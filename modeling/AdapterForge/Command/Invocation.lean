import AdapterForge.Command.Arguments

/-!
What a command line asks for.
-/
namespace AdapterForge

inductive Command where
  /-- Start a project in a folder, under a name or under the folder's own. -/
  | init (path : String) (name : Option String)
  | generate (bidder : Option String) (force dryRun : Bool)
  | validate
  /-- Print the sources of a bidder, or the file of a name among them. -/
  | print (bidder : String) (file : Option String)
  deriving DecidableEq

structure Invocation where
  config : String
  command : Command
  deriving DecidableEq

namespace Invocation

def topSpec : CommandSpec where
  options := [⟨"config", some 'c', true⟩, ⟨"verbose", some 'v', false⟩]
  maxOperands := 0
  subcommands := ["init", "generate", "validate", "show"]

def initSpec : CommandSpec := ⟨[⟨"name", some 'n', true⟩], 1, []⟩

def generateSpec : CommandSpec :=
  ⟨[⟨"bidder", some 'b', true⟩, ⟨"force", none, false⟩, ⟨"dry-run", none, false⟩], 0, []⟩

def validateSpec : CommandSpec := ⟨[], 0, []⟩

def showSpec : CommandSpec := ⟨[⟨"file", some 'f', true⟩], 1, []⟩

def command? (name : String) (args : List String) : Option Command := do
  let arguments (s : CommandSpec) : Option Arguments := (s.read (.empty, none) args).map (·.1)
  match name with
  | "init" =>
    let a ← arguments initSpec
    return .init (a.operands.headD ".") (a.value? "name")
  | "generate" =>
    let a ← arguments generateSpec
    return .generate (a.value? "bidder") (a.has "force") (a.has "dry-run")
  | "validate" =>
    let _ ← arguments validateSpec
    return .validate
  | "show" =>
    let a ← arguments showSpec
    return .print (← a.operands.head?) (a.value? "file")
  | _ => none

def parse? (args : List String) : Option Invocation := do
  let (a, rest) ← topSpec.read (.empty, none) args
  let (name, args) ← rest
  return ⟨(a.value? "config").getD "bidgen.yaml", ← command? name args⟩

end Invocation

end AdapterForge

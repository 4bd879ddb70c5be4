/-!
Options and operands of a command line. An option has a long name after two dashes and may have a
letter after one; letters may be joined, and a value may be attached or follow.
-/
namespace AdapterForge

structure OptionSpec where
  long : String
  short : Option Char
  takesValue : Bool
  deriving DecidableEq

structure CommandSpec where
  options : List OptionSpec
  maxOperands : Nat
  subcommands : List String

structure Arguments where
  options : List (OptionSpec × String)
  operands : List String

namespace Arguments

def empty : Arguments := ⟨[], []⟩

/-- An option may be given once. -/
def give (a : Arguments) (o : OptionSpec) (value : String) : Option Arguments :=
  if a.options.any (·.1 = o) then none else some { a with options := a.options ++ [(o, value)] }

def operand (a : Arguments) (s : CommandSpec) (text : String) : Option Arguments :=
  if a.operands.length < s.maxOperands then some { a with operands := a.operands ++ [text] }
  else none

def value? (a : Arguments) (long : String) : Option String :=
  (a.options.find? (·.1.long = long)).map (·.2)

def has (a : Arguments) (long : String) : Bool := (a.value? long).isSome

end Arguments

/-- A single dash is an operand. -/
def isHyphenated (arg : String) : Bool :=
  match arg.toList with
  | '-' :: _ :: _ => true
  | _ => false

namespace CommandSpec

def longParts (body : List Char) : String × Option String :=
  let name := body.takeWhile (· ≠ '=')
  match body.drop name.length with
  | [] => (String.ofList name, none)
  | _ :: value => (String.ofList name, some (String.ofList value))

/-- Arguments so far, and the option whose value is still to come. -/
abbrev Progress := Arguments × Option OptionSpec

def long (s : CommandSpec) (a : Arguments) (body : List Char) : Option Progress := do
  let (name, value) := longParts body
  let o ← s.options.find? (·.long = name)
  match o.takesValue, value with
  | true, none => return (a, some o)
  | true, some v => return (← a.give o v, none)
  | false, none => return (← a.give o "", none)
  | false, some _ => none

/-- Joined letters. What follows the letter of an option with a value is that value. -/
def letters (s : CommandSpec) : Arguments → List Char → Option Progress
  | a, [] => some (a, none)
  | a, c :: r => do
    let o ← s.options.find? (·.short = some c)
    if o.takesValue then
      match r with
      | [] => return (a, some o)
      | '=' :: v => return (← a.give o (String.ofList v), none)
      | v => return (← a.give o (String.ofList v), none)
    else s.letters (← a.give o "") r

/-- Read arguments up to the end, or up to a subcommand, which is given with those behind it. -/
def read (s : CommandSpec) : Progress → List String → Option (Arguments × Option (String × List String))
  | (a, none), [] => some (a, none)
  | (_, some _), [] => none
  | (a, some o), arg :: r => if isHyphenated arg then none else do s.read (← a.give o arg, none) r
  | (a, none), arg :: r =>
    if arg ∈ s.subcommands then some (a, some (arg, r))
    else
      match arg.toList with
      -- whatever follows two dashes is an operand
      | ['-', '-'] => (r.foldlM (fun (b : Arguments) text => b.operand s text) a).map (·, none)
      | '-' :: '-' :: body => do s.read (← s.long a body) r
      | '-' :: c :: body => do s.read (← s.letters a (c :: body)) r
      | _ => do s.read (← a.operand s arg, none) r

end CommandSpec

end AdapterForge

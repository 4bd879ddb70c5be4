import AdapterForge.Command.Invocation
import AdapterForge.Command.Log
import AdapterForge.Project.Build
import AdapterForge.Project.Start

/-!
The commands of the program. Each one keeps a log, may print, and ends well or with a chain of
errors, the outermost first.
-/
namespace AdapterForge

structure Transcript where
  log : List LogLine
  output : String

/-- A running command. Its transcript stays when it fails. -/
abbrev Running (m : Type → Type) := ExceptT (List String) (StateT Transcript m)

structure CommandResult where
  log : List LogLine
  output : String
  errors : List String

def CommandResult.exitCode (r : CommandResult) : Nat := if r.errors.isEmpty then 0 else 1

def usageExitCode : Nat := 2

variable {m : Type → Type} [Monad m] [Storage m] {α : Type}

namespace Running

def log (level : LogLevel) (message : String) : Running m Unit :=
  modify fun t => { t with log := t.log ++ [.tell level message] }

def info (message : String) : Running m Unit := log .info message

def tell (text : String) : Running m Unit := modify fun t => { t with output := t.output ++ text }

def attempt (work : Work m α) : Running m (Except ProjectError α) :=
  ExceptT.lift (StateT.lift work.run)

def within (context : String) (work : Work m α) : Running m α := do
  match ← attempt work with
  | .ok a => return a
  | .error e => throw [context, e.message]

def access (act : m (Except IoFault α)) : Running m α := do
  match ← (ExceptT.lift (StateT.lift act) : Running m _) with
  | .ok a => return a
  | .error e => throw [e.message]

def isThere (path : String) : Running m Bool := ExceptT.lift (StateT.lift (Storage.isThere path))

def result (r : Running m Unit) : m CommandResult := do
  let (e, t) ← r.run.run ⟨[], ""⟩
  return ⟨t.log, t.output, match e with
    | .ok _ => []
    | .error errors => errors⟩

end Running

namespace Command

open Running

def number (n : Nat) : String := toString n

def bidderNotFound (bidder : String) : String := "Bidder not found: " ++ bidder

def descriptionInvalid (bidder : String) : String := "Invalid bidder description: " ++ bidder

def generationFailed (bidder : String) : String := "Failed to generate bidder " ++ bidder

def loadProject (config : String) : Running m Project :=
  within "Failed to load configuration" (Project.load config)

def loadAdapter (p : Project) (bidder : String) : Running m Adapter := do
  let d ← within (bidderNotFound bidder) (p.description bidder)
  match Adapter.ofDescription d with
  | .ok a => return a
  | .error e => throw [descriptionInvalid bidder, e.message]

/-- Start a project. A folder that has a configuration is left alone. -/
def runInit (path : String) (name : Option String) : Running m Unit := do
  if !(← isThere path) then access (Storage.makeFolders path)
  let absolute ← access (Storage.realPath path)
  -- without a name the project is called like its folder
  let projectName ← match name with
    | some n => pure n
    | none =>
      match FilePath.fileName? absolute with
      | some n => pure n
      | none => throw ["Could not determine project name from path"]
  let config := FilePath.join path Project.configName
  if ← isThere config then
    throw ["Directory '" ++ path ++ "' already contains a " ++ Project.configName]
  info ("Creating new bidgen project: " ++ projectName)
  access (Storage.makeFolders (FilePath.join path "bidders"))
  access (Storage.writeText config (Project.startConfig projectName))
  access (Storage.writeText (FilePath.join path "bidders/example.yaml") Project.startDescription)
  info ("✓ Created project '" ++ projectName ++ "' at " ++ absolute)
  info "Next steps:"
  if path ≠ "." then info ("  cd " ++ path)
  info "  bidgen validate    # Check bidder descriptions"
  info "  bidgen generate    # Write Java sources"

def tellBuilt (dryRun : Bool) (b : BuiltBidder) : Running m Unit := do
  info ("✓ " ++ b.name ++ " (" ++ (if dryRun then "would write " else "wrote ") ++
    number b.written.length ++ ", " ++ number b.skipped.length ++ " unchanged, fingerprint: " ++
    (b.generated.fingerprint.take 8).toString ++ "...)")
  b.written.forM fun path => info ("  " ++ path)

def runGenerate (config : String) (bidder : Option String) (force dryRun : Bool) :
    Running m Unit := do
  info ("Loading configuration from " ++ config)
  let p ← loadProject config
  let options : BuildOptions := ⟨p.outputDir, force, dryRun⟩
  let built ← match bidder with
    | some name => do
      let a ← loadAdapter p name
      pure [← within (generationFailed name) (a.build p.config.codegen options)]
    | none => do
      info ("Generating all bidders in " ++ p.biddersDir)
      within "Failed to generate bidders" (Adapter.buildAll p.config.codegen options p.biddersDir)
  built.forM (tellBuilt dryRun)
  info ("Generated " ++ number built.length ++ " bidders")

def checkDescription (path : String) : Running m Bool := do
  match ← attempt (Adapter.load path) with
  | .error e => fail e.message
  | .ok a =>
    match a.compile with
    | .error e => fail e.message
    | .ok c =>
      info ("✓ " ++ a.name ++ " (" ++ number (a.imp.length + a.request.length) ++
        " transformations, " ++ number (c.programs.foldl (· + ·.assignCount) 0) ++ " assignments)")
      return true
where
  fail (message : String) : Running m Bool := do
    Running.log .error ("✗ " ++ path ++ ": " ++ message)
    return false

def runValidate (config : String) : Running m Unit := do
  info ("Validating configuration: " ++ config)
  let p ← loadProject config
  info ("✓ Project: " ++ p.config.name)
  info ("✓ Output directory: " ++ p.outputDir)
  let paths ← within "Failed to list bidder descriptions" p.descriptionPaths
  let passed ← paths.mapM checkDescription
  let failures := passed.countP (!·)
  if 0 < failures then
    throw [number failures ++ " of " ++ number paths.length ++ " bidder descriptions are invalid"]
  info ("✓ " ++ number paths.length ++ " bidder descriptions are valid")

def runPrint (config bidder : String) (file : Option String) : Running m Unit := do
  let p ← loadProject config
  let a ← loadAdapter p bidder
  match a.generate p.config.codegen with
  | .error e => throw [generationFailed bidder, e.message]
  | .ok g =>
    match file with
    | some name =>
      match g.file? name with
      | some f => tell f.contents
      | none => throw ["No generated file named " ++ name]
    | none => g.files.forM fun f => tell ("// ==> " ++ f.path ++ " <==\n" ++ f.contents ++ "\n")

end Command

def Invocation.run (i : Invocation) : m CommandResult :=
  Running.result <|
    match i.command with
    | .init path name => Command.runInit path name
    | .generate bidder force dryRun => Command.runGenerate i.config bidder force dryRun
    | .validate => Command.runValidate i.config
    | .print bidder file => Command.runPrint i.config bidder file

end AdapterForge

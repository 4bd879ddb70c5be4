import AdapterForge.Generated
import AdapterForge.Project.Basic

/-!
Writing the generated files of bidders. A file that already has its contents is left alone.
-/
namespace AdapterForge

structure BuildOptions where
  outputDir : String
  /-- Write files even when they have their contents already. -/
  force : Bool
  /-- Write nothing, and only tell what would be written. -/
  dryRun : Bool

inductive FileOutcome where
  | written
  | skipped
  deriving DecidableEq

structure BuiltBidder where
  generated : GeneratedBidder
  outcomes : List (String × FileOutcome)

namespace BuiltBidder

def name (b : BuiltBidder) : String := b.generated.name

def pathsOf (b : BuiltBidder) (o : FileOutcome) : List String :=
  (b.outcomes.filter (·.2 = o)).map (·.1)

def written (b : BuiltBidder) : List String := b.pathsOf .written

def skipped (b : BuiltBidder) : List String := b.pathsOf .skipped

def changed (b : BuiltBidder) : Bool := !b.written.isEmpty

end BuiltBidder

variable {m : Type → Type} [Monad m] [Storage m]

namespace GeneratedFile

/-- The path in the tree that files are written to. -/
def target (f : GeneratedFile) (outputDir : String) : String := FilePath.join outputDir f.path

def isUnchanged (path contents : String) : Work m Bool := ExceptT.lift do
  match ← Storage.readText path with
  | .ok text => return text = contents
  | .error _ => return false

/-- Write a file, and the folders that it needs. -/
def write (path contents : String) : Work m Unit := do
  Work.access (Storage.makeFolders ((FilePath.parent? path).getD ""))
  Work.access (Storage.writeText path contents)

def build (f : GeneratedFile) (o : BuildOptions) : Work m (String × FileOutcome) := do
  let path := f.target o.outputDir
  if !o.force && (← isUnchanged path f.contents) then return (path, .skipped)
  if !o.dryRun then write path f.contents
  return (path, .written)

end GeneratedFile

namespace GeneratedBidder

/-- Write the files one after the other; the first fault ends it. -/
def build (g : GeneratedBidder) (o : BuildOptions) : Work m BuiltBidder :=
  return ⟨g, ← g.files.mapM (·.build o)⟩

end GeneratedBidder

namespace Adapter

def build (a : Adapter) (config : CodegenConfig) (o : BuildOptions) : Work m BuiltBidder := do
  (← Work.compiled (a.generate config)).build o

def buildFile (config : CodegenConfig) (o : BuildOptions) (path : String) : Work m BuiltBidder := do
  (← Adapter.load path).build config o

/-- The files of a folder that are named like descriptions. A path to a file stands for that file
alone. -/
def descriptionFiles (path : String) : Work m (List String) := do
  if !(← Work.isThere path) then throw (.io .notFound)
  if ← Work.isFolder path then
    let names ← Work.access (Storage.namesIn path)
    ((names.map (FilePath.join path)).filter FilePath.isDescription).filterM fun p =>
      return !(← Work.isFolder p)
  else return if FilePath.isDescription path then [path] else []

/-- Build all bidders of a folder in order. The first one that fails ends it, and what was written
before stays. -/
def buildAll (config : CodegenConfig) (o : BuildOptions) (path : String) :
    Work m (List BuiltBidder) := do
  (← descriptionFiles path).mapM (buildFile config o)

end Adapter

end AdapterForge

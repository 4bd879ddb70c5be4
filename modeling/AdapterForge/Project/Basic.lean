import AdapterForge.Adapter
import AdapterForge.Description.Text
import AdapterForge.FilePath
import AdapterForge.Project.Config
import AdapterForge.Project.Error

/-!
Projects: a configuration and the descriptions of bidders in a folder of their own.
-/
namespace AdapterForge

abbrev Work (m : Type → Type) := ExceptT ProjectError m

namespace Work

variable {m : Type → Type} [Monad m] [Storage m] {α : Type}

def access (act : m (Except IoFault α)) : Work m α := ExceptT.mk do
  return (← act).mapError .io

def compiled (r : Except RuleError α) : Work m α := ExceptT.mk (pure (r.mapError .rule))

def isThere (path : String) : Work m Bool := ExceptT.lift (Storage.isThere path)

def isFolder (path : String) : Work m Bool := ExceptT.lift (Storage.isFolder path)

end Work

structure Project where
  config : ProjectConfig
  base : String

variable {m : Type → Type} [Monad m] [Storage m]

namespace Description

/-- The description in a file. Its extension tells the format. -/
def load (path : String) : Work m Description := do
  let text ← Work.access (Storage.readText path)
  let format := if FilePath.extension? path = some "json" then TextFormat.json else .yaml
  match ofText format text with
  | .ok d => return d
  | .error .malformed => throw (.descriptionMalformed path)
  | .error (.invalid e) => throw (.description e)

end Description

namespace Adapter

def load (path : String) : Work m Adapter := do
  Work.compiled (ofDescription (← Description.load path))

end Adapter

namespace Project

def configName : String := "bidgen.yaml"

/-- The configuration file that a path stands for, and the base of the project: a folder stands for
the file in it. -/
def located (path : String) (isFolder : Bool) : String × String :=
  if isFolder then (FilePath.join path configName, path)
  else (path, (FilePath.parent? path).getD ".")

def load (path : String) : Work m Project := do
  let (file, base) := located path (← Work.isFolder path)
  if !(← Work.isThere file) then throw (.configNotFound file)
  match ProjectConfig.ofText? (← Work.access (Storage.readText file)) with
  | none => throw .configMalformed
  | some config => if config.codegen.isIndentable then return ⟨config, base⟩ else throw .indentMalformed

def biddersDir (p : Project) : String := FilePath.join p.base p.config.biddersDir

def outputDir (p : Project) : String := FilePath.join p.base p.config.outputDir

/-- Everything that is named like a description, in ascending order. -/
def descriptionPaths (p : Project) : Work m (List String) := do
  if ← Work.isThere p.biddersDir then
    let names ← Work.access (Storage.namesIn p.biddersDir)
    return (names.map (FilePath.join p.biddersDir)).filter FilePath.isDescription
  else return []

def descriptions (p : Project) : Work m (List Description) := do
  (← p.descriptionPaths).mapM Description.load

/-- The file of a bidder, of the first extension for which there is one. -/
def findDescription (p : Project) (bidder : String) : (extensions : List String) → Work m Description
  | [] => throw (.configNotFound (FilePath.join p.biddersDir (bidder ++ ".yaml")))
  | e :: r => do
    let path := FilePath.join p.biddersDir (bidder ++ "." ++ e)
    if ← Work.isThere path then Description.load path else p.findDescription bidder r

def description (p : Project) (bidder : String) : Work m Description :=
  p.findDescription bidder FilePath.descriptionExtensions

end Project

end AdapterForge

import AdapterForge.FilePath

/-!
Access to files and folders by path.
-/
namespace AdapterForge

inductive IoFault where
  | notFound
  | notAFolder
  | isAFolder
  | alreadyThere
  | nameTooLong
  | nulInName
  | other (text : String)
  deriving DecidableEq

def IoFault.message : IoFault → String
  | notFound => "No such file or directory (os error 2)"
  | notAFolder => "Not a directory (os error 20)"
  | isAFolder => "Is a directory (os error 21)"
  | alreadyThere => "File exists (os error 17)"
  | nameTooLong => "File name too long (os error 36)"
  | nulInName => "file name contained an unexpected NUL byte"
  | other text => text

class Storage (m : Type → Type) where
  readText (path : String) : m (Except IoFault String)
  /-- Replace a file, or make it in a folder that is there. -/
  writeText (path text : String) : m (Except IoFault Unit)
  makeFolder (path : String) : m (Except IoFault Unit)
  isThere (path : String) : m Bool
  isFolder (path : String) : m Bool
  /-- The names in a folder, in ascending order. -/
  namesIn (path : String) : m (Except IoFault (List String))
  /-- The absolute path without steps that only move within the tree. -/
  realPath (path : String) : m (Except IoFault String)

namespace Storage

variable {m : Type → Type} [Monad m] [Storage m]

/-- A folder that could not be made may be there already. -/
def orFolder (path : String) : Except IoFault Unit → m (Except IoFault Unit)
  | .ok () => return .ok ()
  | .error e => return if ← isFolder path then .ok () else .error e

/-- Make the first of some folders, each of which lies in the next one. The next one is made only
when the first one lacks it. -/
def makeFirst : List String → m (Except IoFault Unit)
  | [] => return .ok ()
  | path :: above => do
    match ← makeFolder path with
    | .error .notFound =>
      match ← makeFirst above with
      | .ok () => orFolder path (← makeFolder path)
      | .error e => return .error e
    | made => orFolder path made

def makeFolders (path : String) : m (Except IoFault Unit) := makeFirst (FilePath.ancestors path)

end Storage

end AdapterForge

import AdapterForge.FilePath
import AdapterForge.Storage.Basic
import AdapterForge.Storage.FileTree

/-!
A tree of files as storage, with the place that relative paths start from.
-/
namespace AdapterForge

structure Disk where
  root : FileTree
  here : List String

namespace Disk

/-- The longest name of a file or folder, in octets. -/
def maxName : Nat := 255

/-- The longest path, in octets. -/
def maxPath : Nat := 4095

/-- Follow the steps of a path from a place. Every step starts in a folder. -/
def walk (t : FileTree) : (place : List String) → List String → Except IoFault (List String)
  | place, [] => .ok place
  | place, s :: r =>
    match t.at? place with
    | none => .error .notFound
    | some (.file _) => .error .notAFolder
    | some (.folder _) =>
      if maxName < s.utf8ByteSize then .error .nameTooLong
      else walk t (if s = "." then place else if s = ".." then place.dropLast else place ++ [s]) r

def pathFault? (path : String) : Option IoFault :=
  if path.toList.contains '\x00' then some .nulInName
  else if path = "" then some .notFound
  else if maxPath < path.utf8ByteSize then some .nameTooLong
  else none

def start (d : Disk) (path : String) : List String := if FilePath.isAbsolute path then [] else d.here

def follow (d : Disk) (path : String) (steps : List String) : Except IoFault (List String) :=
  match pathFault? path with
  | some e => .error e
  | none => walk d.root (d.start path) steps

/-- The place that a path leads to. There need not be anything at it. -/
def locate (d : Disk) (path : String) : Except IoFault (List String) :=
  d.follow path (FilePath.steps path)

def find? (d : Disk) (path : String) : Option FileTree :=
  match d.locate path with
  | .ok place => d.root.at? place
  | .error _ => none

def readText (d : Disk) (path : String) : Except IoFault String := do
  match d.root.at? (← d.locate path) with
  | some (.file text) => return text
  | some (.folder _) => throw .isAFolder
  | none => throw .notFound

def writeText (d : Disk) (path text : String) : Except IoFault Disk := do
  let place ← d.locate path
  match d.root.at? place with
  | some (.folder _) => throw .isAFolder
  | _ => return { d with root := d.root.put (.file text) place }

/-- Make a folder. A slash behind its name does not ask for one that is there. -/
def makeFolder (d : Disk) (path : String) : Except IoFault Disk := do
  let place ← d.follow path (FilePath.names path)
  match d.root.at? place with
  | some _ => throw .alreadyThere
  | none => return { d with root := d.root.put .empty place }

def namesIn (d : Disk) (path : String) : Except IoFault (List String) := do
  match d.root.at? (← d.locate path) with
  | some (.folder entries) => return entries.keys.names
  | some (.file _) => throw .notAFolder
  | none => throw .notFound

def realPath (d : Disk) (path : String) : Except IoFault String := do
  let place ← d.locate path
  let absolute := if place = [] then "/" else String.join (place.map ("/" ++ ·))
  match d.root.at? place with
  | some _ => if maxPath < absolute.utf8ByteSize then throw .nameTooLong else return absolute
  | none => throw .notFound

/-- A change of the disk that may fail, and then changes nothing. -/
def change (act : Disk → Except IoFault Disk) : StateM Disk (Except IoFault Unit) := do
  match act (← get) with
  | .ok d =>
    set d
    return .ok ()
  | .error e => return .error e

instance : Storage (StateM Disk) where
  readText path := return (← get).readText path
  writeText path text := change (·.writeText path text)
  makeFolder path := change (·.makeFolder path)
  isThere path := return ((← get).find? path).isSome
  isFolder path := return match (← get).find? path with
    | some (.folder _) => true
    | _ => false
  namesIn path := return (← get).namesIn path
  realPath path := return (← get).realPath path

end Disk

end AdapterForge

import AdapterForge.Json.Fields

/-!
Trees of files and folders. A place in a tree is the list of names that lead to it.
-/
namespace AdapterForge

inductive FileTree where
  | file (text : String)
  | folder (entries : Fields FileTree)

namespace FileTree

def empty : FileTree := .folder .empty

instance : Inhabited FileTree := ⟨empty⟩

def at? (t : FileTree) : (place : List String) → Option FileTree
  | [] => some t
  | k :: r =>
    match t with
    | .file _ => none
    | .folder entries =>
      match entries.get? k with
      | some child => child.at? r
      | none => none

def textAt? (t : FileTree) (place : List String) : Option String :=
  match t.at? place with
  | some (.file text) => some text
  | _ => none

def isFolderAt (t : FileTree) (place : List String) : Bool :=
  match t.at? place with
  | some (.folder _) => true
  | _ => false

/-- Put a tree at a place. Below a file, or below a folder that is missing, nothing changes. -/
def put (t : FileTree) (v : FileTree) : (place : List String) → FileTree
  | [] => v
  | k :: r =>
    match t with
    | .file text => .file text
    | .folder entries =>
      match entries.get? k, r with
      | some child, r => .folder (entries.set k (child.put v r))
      | none, [] => .folder (entries.set k v)
      | none, _ :: _ => .folder entries

def remove (t : FileTree) : (place : List String) → FileTree
  | [] => t
  | [k] =>
    match t with
    | .file text => .file text
    | .folder entries => .folder (entries.erase k)
  | k :: r =>
    match t with
    | .file text => .file text
    | .folder entries =>
      match entries.get? k with
      | some child => .folder (entries.set k (child.remove r))
      | none => .folder entries

def places : FileTree → List (List String)
  | .file _ => [[]]
  | .folder ⟨keys, value⟩ =>
    keys.names.attach.flatMap fun k => (places (value ⟨k.1, k.2⟩)).map (k.1 :: ·)

@[simp] theorem at?_nil (t : FileTree) : t.at? [] = some t := by cases t <;> rfl

theorem at?_append (t : FileTree) (p q : List String) :
    t.at? (p ++ q) = (t.at? p).bind (·.at? q) := by
  induction p generalizing t with
  | nil => simp
  | cons k p ih =>
    cases t with
    | file text => rfl
    | folder entries =>
      simp only [List.cons_append, at?]
      cases entries.get? k with
      | none => rfl
      | some child => exact ih child

end FileTree

end AdapterForge

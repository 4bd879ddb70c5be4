import AdapterForge.FieldPath
import AdapterForge.Java.Name

/-!
How nested objects are rebuilt: as model objects, or as raw JSON nodes from `ext` downwards.
-/
namespace AdapterForge

inductive ObjectKind where
  | model (name : String)
  | json
  deriving DecidableEq

namespace ObjectKind

def ofField (field : String) (parent : Option ObjectKind) : ObjectKind :=
  if field = "ext" ∨ parent = some json then json else model (Java.className field)

def isJson : ObjectKind → Bool
  | json => true
  | model _ => false

def modelName? : ObjectKind → Option String
  | json => none
  | model name => some name

def along (parent : Option ObjectKind) : List String → Option ObjectKind
  | [] => parent
  | k :: r => along (some (ofField k parent)) r

def ofPath (p : FieldPath) : ObjectKind := (along none p.segments).getD json

end ObjectKind

end AdapterForge

import AdapterForge.Json.Basic
import AdapterForge.RunError

/-!
Reading the values that programs and expectations copy. Sources are the objects as they were given,
never ones that are being rebuilt.
-/
namespace AdapterForge

structure Sources where
  imp : Option Json
  impExt : Option Json
  request : Option Json

namespace Sources

def root? (s : Sources) : SourceRoot → Option Json
  | .imp => s.imp
  | .impExt => s.impExt
  | .request => s.request

/-- Read on from a value that the fields `done` of `whole` have led to. A missing field is null,
and reading a field of null is a null dereference. -/
def readFrom (whole : Source) : (done : List String) → Json → List String → Except RunError Json
  | _, v, [] => .ok v
  | done, .object fields, k :: r =>
    readFrom whole (done ++ [k]) ((fields.get? k).getD .null) r
  | done, .null, _ :: _ =>
    .error (.nullDereference (Java.getterChain (Java.rootVar whole.root) done))
  | _, _, k :: _ => .error (.memberOfNonObject k (Java.mutationValue (.field whole)))

def read (s : Sources) (source : Source) : Except RunError Json :=
  match s.root? source.root with
  | none => .error (.nullDereference (Java.rootVar source.root))
  | some v => readFrom source [] v source.path.segments

def eval (s : Sources) : Operand → Except RunError Json
  | .literal l => .ok l.toJson
  | .field source => s.read source

end Sources

/-- The bidder's part of the extension of an impression. -/
def bidderExt? (imp : Json) : Option Json :=
  (imp.get? "ext").bind fun ext => ext.present? "bidder"

def asObject (name : String) : Json → Except RunError (Fields Json)
  | .object fields => .ok fields
  | _ => .error (.notAnObject name)

end AdapterForge

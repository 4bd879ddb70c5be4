import AdapterForge.Fixture.Basic
import AdapterForge.Java.Context

/-!
Fixtures as the Java expressions that build them.
-/
namespace AdapterForge

namespace Java

def leafCall (inJson : Bool) (field : String) (value : Literal) : String :=
  if inJson then ".put(" ++ quote field ++ ", " ++ literal value ++ ")"
  else "." ++ field ++ "(" ++ literal value ++ ")"

def objectCall (inJson : Bool) (field object : String) : String :=
  if inJson then ".<ObjectNode>set(" ++ quote field ++ ", " ++ object ++ ")"
  else "." ++ field ++ "(" ++ object ++ ")"

def newObject (kind : ObjectKind) (calls : String) : String :=
  match kind with
  | .model name => name ++ ".builder()" ++ calls ++ ".build()"
  | .json => "mapper.createObjectNode()" ++ calls

/-- The calls for samples that agree on the names before place `index`. -/
def sampleCalls : (levels : Nat) → Option ObjectKind → (index : Nat) → List SampleField → String
  | 0, _, _, _ => ""
  | levels + 1, parent, index, l =>
    let inJson := parent == some .json
    String.join <| (groupBySegment index (·.path) l).map fun (field, items) =>
      match items.find? (·.path.depth = index + 1) with
      | some leaf => leafCall inJson field leaf.value
      | none =>
        let kind := ObjectKind.ofField field parent
        objectCall inJson field
          (newObject kind (sampleCalls levels (some kind) (index + 1) items))

def customizer (var : String) (l : List SampleField) : String :=
  if l.isEmpty then "identity()"
  else
    let levels := (l.map (·.path.depth)).foldr max 0
    var ++ " -> " ++ var ++ sampleCalls levels none 0 l

def paramLiteral (p : SampleParam) : String :=
  let n := toString p.number
  match p.param.type with
  | .string => quote (p.param.name ++ "String")
  | .integer => n
  | .long => n ++ "L"
  | .double => n ++ ".0"
  | .float => n ++ ".0F"
  | .boolean => "true"

/-- The params above which an extension class is made through a builder. -/
def builderThreshold : Nat := 4

def extValue (ctx : RenderContext) (l : List SampleParam) : String :=
  if l.isEmpty then "mapper.createObjectNode()"
  else if builderThreshold < l.length then
    let calls := l.map fun p => "." ++ p.param.name ++ "(" ++ paramLiteral p ++ ")"
    ctx.extClass ++ ".builder()" ++ String.join calls ++ ".build()"
  else ctx.extClass ++ ".of(" ++ String.intercalate ", " (l.map paramLiteral) ++ ")"

end Java

namespace Fixture

def impCustomizer (f : Fixture) : String := Java.customizer "impBuilder" f.impFields

def requestCustomizer (f : Fixture) : String := Java.customizer "requestBuilder" f.requestFields

end Fixture

end AdapterForge

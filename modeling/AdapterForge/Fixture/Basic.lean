import AdapterForge.Adapter
import AdapterForge.Sources

/-!
Fixtures: the request that a generated test starts from. Every field that a transformation copies
has a sample value in it, and the first impression carries a full bidder extension.
-/
namespace AdapterForge

/-- The fields of a request that hold whole numbers; every other sampled field holds a text. -/
def integerFields : List String :=
  ["w", "h", "at", "pos", "topframe", "minduration", "maxduration", "startdelay", "placement",
    "sequence", "minbitrate", "maxbitrate", "secure", "tmax", "len"]

structure SampleField where
  path : FieldPath
  value : Literal
  deriving DecidableEq

structure SampleParam where
  param : Param
  number : Nat
  deriving DecidableEq

namespace SampleParam

def value (p : SampleParam) : Json :=
  match p.param.type with
  | .string => .string (p.param.name ++ "String")
  | .integer | .long => .number (.ofNat p.number)
  | .double | .float =>
    .number (.double ((Double.ofRatio false p.number 1).getD (.zero false)))
  | .boolean => .bool true

end SampleParam

structure Fixture where
  impFields : List SampleField
  requestFields : List SampleField
  ext : List SampleParam

def sampleAt (path : FieldPath) (n : Nat) : SampleField :=
  ⟨path, if integerFields.contains path.leaf then .number (.ofNat n) else .text (path.leaf ++ "String")⟩

/-- The paths that do not lead to another one. -/
def innermost (paths : List FieldPath) : List FieldPath :=
  paths.filter fun p => !paths.any fun q => p.isAbove q && p != q

/-- The samples of some paths, numbered from `first` on. A path that leads to another one gives way
to it. -/
def sampleFields (first : Nat) (paths : List FieldPath) : List SampleField :=
  ((innermost paths).zipIdx first).map fun (p, n) => sampleAt p n

/-- The samples of the params; only numbers are counted. -/
def sampleParams (next : Nat) : List Param → List SampleParam
  | [] => []
  | p :: r => ⟨p, next⟩ :: sampleParams (if p.type.isNumeric then next + 1 else next) r

namespace Adapter

def sources (a : Adapter) : List Source := (a.imp ++ a.request).filterMap (·.source?)

/-- The copied impression fields, each once. The extension is left out: its bidder part is sampled
from the params. -/
def impPaths (a : Adapter) : List FieldPath :=
  ((a.sources.filter fun s => s.root = .imp ∧ s.path.first ≠ "ext").map (·.path)).eraseDups

def requestPaths (a : Adapter) : List FieldPath :=
  ((a.sources.filter (·.root = .request)).map (·.path)).eraseDups

def fixture (a : Adapter) : Fixture :=
  let imp := sampleFields 1 a.impPaths
  ⟨imp, sampleFields (imp.length + 1) a.requestPaths, sampleParams 1 a.params⟩

end Adapter

namespace Json

/-- Set the field at the end of a list of names; an object is put wherever there is none on the
way. -/
def setAt (fields : Fields Json) (k : String) : List String → Json → Fields Json
  | [], v => fields.set k v
  | j :: r, v => fields.set k (.object (setAt (((fields.get? k).getD .null).fieldsOf) j r v))

end Json

namespace SampleField

def setIn (fields : Fields Json) (s : SampleField) : Fields Json :=
  Json.setAt fields s.path.first s.path.rest s.value.toJson

def outerKinds (s : SampleField) : List ObjectKind :=
  (List.range (s.path.depth - 1)).map fun n => .ofPath (s.path.upTo (n + 1))

end SampleField

namespace Fixture

def impId : String := "123"

def bidderExt (f : Fixture) : Json :=
  .object (.ofList (f.ext.map fun p => (p.param.name, p.value)))

def imp (f : Fixture) : Json :=
  let fields := f.impFields.foldl SampleField.setIn (Fields.empty.set "id" (.string impId))
  .object (fields.set "ext" (.object (Fields.empty.set "bidder" f.bidderExt)))

def bidRequest (f : Fixture) : Json :=
  .object (f.requestFields.foldl SampleField.setIn (Fields.empty.set "imp" (.array [f.imp])))

def fields (f : Fixture) : List SampleField := f.impFields ++ f.requestFields

def modelNames (f : Fixture) : List String :=
  (f.fields.flatMap (·.outerKinds)).filterMap (·.modelName?)

def usesJson (f : Fixture) : Bool := (f.fields.flatMap (·.outerKinds)).any (·.isJson)

end Fixture

end AdapterForge

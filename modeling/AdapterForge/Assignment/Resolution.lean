import AdapterForge.Assignment.Error

/-!
From rules to assignments: paths lose their markers and are checked against the scope.
-/
namespace AdapterForge

namespace Scope

def targetText (scope : Scope) (raw : String) : Except Ambiguity String :=
  let carries (marker : String) : Bool := (afterMarker? marker raw).isSome
  let plain := (afterMarker? scope.marker raw).getD raw
  match scope with
  | .impression =>
    if carries requestMarker then .error .requestTarget
    else if carries extMarker then .error .extTarget
    else .ok plain
  | .request =>
    if carries impMarker || carries extMarker then .error .impressionTarget else .ok plain

def resolveTarget (scope : Scope) (raw : String) : Except RuleError FieldPath :=
  match scope.targetText raw with
  | .error why => .error ⟨raw, .ambiguous why⟩
  | .ok text =>
    match FieldPath.parse text with
    | .error why => .error ⟨raw, .malformed raw why⟩
    | .ok path =>
      if scope = .request ∧ path.first = "imp" then .error ⟨raw, .ambiguous .impressionsTarget⟩
      else if scope.maxDepth < path.depth then
        .error ⟨raw, .unsupported (.targetDepth path.depth scope)⟩
      else .ok path

/-- The object that a source is read from and the text of its path. A source without a marker is
read from the object of the scope. -/
def sourceText (scope : Scope) (raw : String) : Except Ambiguity (SourceRoot × String) :=
  match afterMarker? extMarker raw with
  | some text => .ok (.impExt, text)
  | none =>
    match afterMarker? impMarker raw, scope with
    | some text, .impression => .ok (.imp, text)
    | some _, .request => .error (.impressionSource raw)
    | none, _ =>
      match afterMarker? requestMarker raw, scope with
      | some text, .request => .ok (.request, text)
      | some _, .impression => .error (.requestSource raw)
      | none, .impression => .ok (.imp, raw)
      | none, .request => .ok (.request, raw)

def resolveSource (scope : Scope) (target raw : String) : Except RuleError Source :=
  match scope.sourceText raw with
  | .error why => .error ⟨target, .ambiguous why⟩
  | .ok (root, text) =>
    match FieldPath.parse text with
    | .error why => .error ⟨target, .malformed raw why⟩
    | .ok path =>
      if root = .request ∧ path.first = "imp" then
        .error ⟨target, .ambiguous (.impressionsSource raw)⟩
      else if maxSourceDepth < path.depth then
        .error ⟨target, .unsupported (.sourceDepth raw path.depth)⟩
      else .ok ⟨root, path⟩

end Scope

/-- Resolve a rule in a scope. It has either a value or a source. -/
def Rule.resolve (scope : Scope) (r : Rule) : Except RuleError Assignment :=
  match r.staticValue, r.source with
  | some _, some _ => .error ⟨r.target, .invalid .valueAndSource⟩
  | none, none => .error ⟨r.target, .invalid .neitherValueNorSource⟩
  | some v, none => do
    let target ← scope.resolveTarget r.target
    return ⟨r.target, target, .fixed v⟩
  | none, some s => do
    let target ← scope.resolveTarget r.target
    let source ← scope.resolveSource r.target s
    return ⟨r.target, target, .copy source⟩

namespace Assignment

/-- A value copied from the extension is one of the declared params. -/
def checkParam (params : List Param) (a : Assignment) : Except RuleError Assignment :=
  match a.value with
  | .copy ⟨.impExt, path⟩ =>
    if 1 < path.depth then .error ⟨a.raw, .unsupported (.nestedParam path)⟩
    else if params.any (·.name = path.leaf) then .ok a
    else .error ⟨a.raw, .invalid (.undeclaredParam path)⟩
  | _ => .ok a

/-- What an assignment writes. Only numbers and strings are literals. -/
def operand (a : Assignment) : Except RuleError Operand :=
  match a.value with
  | .copy s => .ok (.field s)
  | .fixed (.number n) => .ok (.literal (.number n))
  | .fixed (.string s) => .ok (.literal (.text s))
  | .fixed .null => .error ⟨a.raw, .valueType .null⟩
  | .fixed (.bool _) => .error ⟨a.raw, .valueType .boolean⟩
  | .fixed (.array _) => .error ⟨a.raw, .valueType .array⟩
  | .fixed (.object _) => .error ⟨a.raw, .valueType .object⟩

end Assignment

def Rule.assignment (params : List Param) (r : Rule) : Except RuleError Assignment :=
  (r.resolve (.ofTarget r.target)).bind (·.checkParam params)

end AdapterForge

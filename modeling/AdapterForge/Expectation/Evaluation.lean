import AdapterForge.Expectation.Basic
import AdapterForge.Sources

/-!
The value of an expectation on a given request.
-/
namespace AdapterForge

/-- What an expected object starts with: the object its steps lead to, or nothing when it is
missing. A JSON node takes the place of whatever is no object. -/
def expectedSeed (s : Sources) (bidRequest : Json) (root : ExpectedRoot) (steps : List Step) :
    Except RunError (Fields Json) :=
  let names := steps.map (·.field)
  let settle (v : Option Json) : Except RunError (Fields Json) :=
    match v with
    | some (.object given) => .ok given
    | some _ =>
      if (kindAfter root steps).isJson then .ok .empty else .error (.expectedAnObject names)
    | none => .ok .empty
  match root with
  | .request => settle (bidRequest.at? names)
  | .firstImp =>
    match s.imp with
    | none => .error (.nullDereference Java.firstImp)
    | some imp => settle (imp.at? names)

mutual

def ExpectedObject.eval (s : Sources) (bidRequest : Json) :
    ExpectedObject → Except RunError (Fields Json)
  | .mk root steps overrides => do
    evalOverrides s bidRequest overrides (← expectedSeed s bidRequest root steps)

def evalOverrides (s : Sources) (bidRequest : Json) :
    List Override → Fields Json → Except RunError (Fields Json)
  | [], fields => .ok fields
  | .value field value :: r, fields => do
    evalOverrides s bidRequest r (Json.put fields field (← s.eval value))
  | .object field o :: r, fields => do
    evalOverrides s bidRequest r (fields.set field (.object (← o.eval s bidRequest)))
  | .singleImp o :: r, fields => do
    evalOverrides s bidRequest r (fields.set "imp" (.array [.object (← o.eval s bidRequest)]))

end

/-- The first impression of a request unless it is null. -/
def firstImp? (bidRequest : Json) : Option Json :=
  match bidRequest.get? "imp" with
  | some (.array (imp :: _)) => Json.nonNull? (some imp)
  | _ => none

def ExpectedObject.evaluate (o : ExpectedObject) (bidRequest : Json) : Except RunError Json := do
  let _ ← asObject "bidRequest" bidRequest
  let imp := firstImp? bidRequest
  return .object (← o.eval ⟨imp, imp.bind bidderExt?, some bidRequest⟩ bidRequest)

end AdapterForge

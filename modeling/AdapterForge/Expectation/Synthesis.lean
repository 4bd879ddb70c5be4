import AdapterForge.Plan
import AdapterForge.Expectation.Basic

/-!
From plans to the expected request.
-/
namespace AdapterForge

/-- The overrides of an object reached by `steps`, for assignments that agree on the names before
place `index`. -/
def overridesOf : (levels : Nat) → ExpectedRoot → List Step → (index : Nat) → List Assignment →
    Except RuleError (List Override)
  | 0, _, _, _, _ => .ok []
  | levels + 1, root, steps, index, l => do
    let parts ← (groupBySegment index (·.target) l).mapM fun (field, items) => do
      let leaves := items.filter (·.target.depth = index + 1)
      let nested := items.filter (·.target.depth ≠ index + 1)
      match leaves, nested with
      | _ :: _, a :: _ => .error ⟨a.raw, .unsupported (.assignedAndRebuilt field)⟩
      | leaves, [] => leaves.mapM fun a => do return .value field (← a.operand)
      | [], nested => do
        let kind := ObjectKind.ofField field (steps.getLast?.map (·.kind))
        let below := steps ++ [⟨field, kind⟩]
        return [.object field (.mk root below (← overridesOf levels root below (index + 1) nested))]
    return parts.flatten

def Plan.overrides (p : Plan) (root : ExpectedRoot) : Except RuleError (List Override) := do
  let parts ← p.groups.mapM fun g => overridesOf (maxDepth g.members) root [] 0 g.members
  return parts.flatten

/-- The expected request with a single impression, which is left alone when no assignment concerns
it. -/
def expectedRequest (imp request : Plan) : Except RuleError ExpectedObject := do
  let first ← imp.overrides .firstImp
  let rest ← request.overrides .request
  let impressions := if imp.isEmpty then [] else [Override.singleImp (.mk .firstImp [] first)]
  return .mk .request [] (impressions ++ rest)

end AdapterForge

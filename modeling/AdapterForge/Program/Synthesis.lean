import AdapterForge.Plan
import AdapterForge.Program.Basic

/-!
From a plan to a program. `emit` goes down level by level: the writes that end at a level are
assignments to the builder at hand, all others share one builder per field.
-/
namespace AdapterForge

/-- The statements for assignments that agree on the names before place `index`. -/
def emit : (levels : Nat) → Builder → Option ObjectKind → (index : Nat) → List Assignment →
    Except RuleError (List Statement)
  | 0, _, _, _, _ => .ok []
  | levels + 1, builder, parent, index, l => do
    let parts ← (groupBySegment index (·.target) l).mapM fun (field, items) =>
      if items.all (·.target.depth = index + 1) then
        items.mapM fun a => do return .assign builder field (← a.operand)
      else
        match items.find? (·.target.depth = index + 1), items with
        | some leaf, _ => .error ⟨leaf.raw, .unsupported (.assignedAndRebuilt field)⟩
        -- no group is empty
        | none, [] => .ok []
        | none, a :: _ => do
          let path := a.target.upTo (index + 1)
          let kind := ObjectKind.ofField field parent
          let inner ← emit levels (.nested path) (some kind) (index + 1) items
          return .start path kind :: (inner ++ [.commit path])
    return parts.flatten

def Plan.program (p : Plan) : Except RuleError Program := do
  let parts ← p.groups.mapM fun g => emit (maxDepth g.members) .root none 0 g.members
  let located := if p.scope = .request ∧ p.readsExt then [Statement.locateExt] else []
  return ⟨p.scope, located ++ parts.flatten⟩

end AdapterForge

import AdapterForge.Assignment.Resolution
import AdapterForge.Grouping

/-!
Plans: the assignments of one scope, checked and grouped by the top-level field that they touch.
-/
namespace AdapterForge

/-- The assignments that touch one top-level field, in the order in which they are compiled. -/
structure Group where
  field : String
  members : List Assignment
  deriving DecidableEq

namespace Group

def isBatched (g : Group) : Bool := 1 < g.members.length

def isNested (g : Group) : Bool := g.members.any (1 < ·.target.depth)

end Group

structure Plan where
  scope : Scope
  groups : List Group
  deriving DecidableEq

def maxDepth (l : List Assignment) : Nat := (l.map (·.target.depth)).foldr max 0

namespace Plan

def empty (scope : Scope) : Plan := ⟨scope, []⟩

def isEmpty (p : Plan) : Bool := p.groups.isEmpty

def assignments (p : Plan) : List Assignment := p.groups.flatMap (·.members)

def readsExt (p : Plan) : Bool := p.assignments.any (·.readsExt)

/-- Put a group at the end, or in the place of the group of the same field. -/
def putGroup (g : Group) : List Group → List Group
  | [] => [g]
  | h :: r => if h.field = g.field then g :: r else h :: putGroup g r

/-- The assignments that write anything, each with a literal or a source. -/
def kept : List Assignment → Except RuleError (List Assignment)
  | [] => .ok []
  | a :: r =>
    if a.isNoop then kept r
    else do
      let _ ← a.operand
      return a :: (← kept r)

/-- No field may be both assigned and the parent of a field that is assigned; looked for level by
level, from place `index` on. -/
def checkShape : (levels : Nat) → (index : Nat) → List Assignment → Except RuleError Unit
  | 0, _, _ => .ok ()
  | levels + 1, index, l =>
    (groupBySegment index (·.target) l).forM fun (field, items) =>
      let leaves := items.filter (·.target.depth = index + 1)
      let nested := items.filter (·.target.depth ≠ index + 1)
      match leaves, nested with
      | leaf :: _, deeper :: _ =>
        .error ⟨deeper.raw, .unsupported (.assignedAndNested field leaf.raw)⟩
      | _, nested => checkShape levels (index + 1) nested

/-- Impressions take their literals before their copies, each in the order of the description. -/
def ordered (scope : Scope) (l : List Assignment) : List Assignment :=
  match scope with
  | .impression => l.filter (·.isStatic) ++ l.filter (!·.isStatic)
  | .request => l

def ofAssignments (scope : Scope) (l : List Assignment) : Except RuleError Plan := do
  let l ← kept l
  checkShape (maxDepth l) 0 l
  return ⟨scope, (groupBySegment 0 (·.target) l).map fun (field, items) =>
    ⟨field, ordered scope items⟩⟩

end Plan

end AdapterForge

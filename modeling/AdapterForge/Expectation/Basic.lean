import AdapterForge.Assignment.Basic
import AdapterForge.ObjectKind

/-!
Expectations: the request that a test expects, as a tree of objects. Each object starts from one of
the given request and carries the values that replace its fields.
-/
namespace AdapterForge

inductive ExpectedRoot where
  | request
  | firstImp
  deriving DecidableEq

structure Step where
  field : String
  kind : ObjectKind
  deriving DecidableEq

mutual

inductive ExpectedObject where
  | mk (root : ExpectedRoot) (steps : List Step) (overrides : List Override)

inductive Override where
  | value (field : String) (value : Operand)
  | object (field : String) (object : ExpectedObject)
  /-- The impressions are replaced by this one. -/
  | singleImp (object : ExpectedObject)

end

/-- The kind of an object at the end of some steps; the roots are model objects. -/
def kindAfter (root : ExpectedRoot) (steps : List Step) : ObjectKind :=
  match steps.getLast?, root with
  | some s, _ => s.kind
  | none, .request => .model "BidRequest"
  | none, .firstImp => .model "Imp"

namespace ExpectedObject

def root : ExpectedObject → ExpectedRoot
  | mk r _ _ => r

def steps : ExpectedObject → List Step
  | mk _ s _ => s

def overrides : ExpectedObject → List Override
  | mk _ _ o => o

def kind (o : ExpectedObject) : ObjectKind := kindAfter o.root o.steps

def isIdentity (o : ExpectedObject) : Bool := o.overrides.isEmpty

end ExpectedObject

mutual

def ExpectedObject.stepKinds : ExpectedObject → List ObjectKind
  | .mk _ steps overrides => steps.map (·.kind) ++ stepKindsOf overrides

def stepKindsOf : List Override → List ObjectKind
  | [] => []
  | .value .. :: r => stepKindsOf r
  | .object _ o :: r => o.stepKinds ++ stepKindsOf r
  | .singleImp o :: r => o.stepKinds ++ stepKindsOf r

end

mutual

def ExpectedObject.rebuilds : ExpectedObject → Bool
  | .mk _ _ overrides => rebuildsAny overrides

def rebuildsAny : List Override → Bool
  | [] => false
  | .value .. :: r => rebuildsAny r
  | .object .. :: _ => true
  | .singleImp o :: r => o.rebuilds || rebuildsAny r

end

end AdapterForge

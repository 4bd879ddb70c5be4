import AdapterForge.Assignment.Basic
import AdapterForge.ObjectKind

/-!
Programs: the statements of a method that modifies an impression or a request. Every nested object
that is written to has a builder of its own, started from the given object and committed to the
builder of its parent.
-/
namespace AdapterForge

/-- The builder of the modified object, or of the nested object at a path. -/
inductive Builder where
  | root
  | nested (path : FieldPath)
  deriving DecidableEq

inductive Statement where
  | locateExt
  /-- Start a builder from the given object at a path. -/
  | start (path : FieldPath) (kind : ObjectKind)
  | assign (builder : Builder) (field : String) (value : Operand)
  /-- Put what a builder made into the builder of its parent. -/
  | commit (path : FieldPath)
  deriving DecidableEq

structure Program where
  scope : Scope
  statements : List Statement
  deriving DecidableEq

def Builder.parentOf (path : FieldPath) : Builder :=
  match path.parent? with
  | some p => .nested p
  | none => .root

namespace Statement

def isLocateExt : Statement → Bool
  | locateExt => true
  | _ => false

def isAssign : Statement → Bool
  | assign .. => true
  | _ => false

def startedKind? : Statement → Option ObjectKind
  | start _ kind => some kind
  | _ => none

end Statement

namespace Program

def locatesExt (p : Program) : Bool := p.statements.any (·.isLocateExt)

def startedKinds (p : Program) : List ObjectKind := p.statements.filterMap (·.startedKind?)

def usesJson (p : Program) : Bool := p.startedKinds.any (·.isJson)

def assignCount (p : Program) : Nat := p.statements.countP (·.isAssign)

end Program

end AdapterForge

import AdapterForge.Description.Basic
import AdapterForge.FieldPath
import AdapterForge.Scope

/-!
Assignments: transformations whose paths are resolved.
-/
namespace AdapterForge

inductive SourceRoot where
  | imp
  | impExt
  | request
  deriving DecidableEq

structure Source where
  root : SourceRoot
  path : FieldPath
  deriving DecidableEq

/-- What is written: a value of the description, or a field of another object. -/
inductive ValueSource where
  | fixed (value : Written)
  | copy (source : Source)
  deriving DecidableEq

structure Assignment where
  raw : String
  target : FieldPath
  value : ValueSource
  deriving DecidableEq

inductive Literal where
  | number (value : Number)
  | text (value : String)
  deriving DecidableEq

inductive Operand where
  | literal (value : Literal)
  | field (source : Source)
  deriving DecidableEq

def Literal.toJson : Literal → Json
  | .number n => .number n
  | .text s => .string s

namespace Assignment

def isStatic (a : Assignment) : Bool :=
  match a.value with
  | .fixed _ => true
  | .copy _ => false

/-- An explicit null writes nothing. -/
def isNoop (a : Assignment) : Bool :=
  match a.value with
  | .fixed .null => true
  | _ => false

def source? (a : Assignment) : Option Source :=
  match a.value with
  | .fixed _ => none
  | .copy s => some s

def readsExt (a : Assignment) : Bool := a.source?.any (·.root = .impExt)

end Assignment

end AdapterForge

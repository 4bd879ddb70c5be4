import AdapterForge.Java.Value

/-!
Why a program or an expectation has no result on a request.
-/
namespace AdapterForge

inductive RunError where
  /-- A value is read through an object that is missing. -/
  | nullDereference (expression : String)
  | notAnObject (name : String)
  | impressionsNotAList
  | givenNotAnObject (base : String) (path : FieldPath)
  | noOpenBuilder (path : FieldPath)
  | expectedAnObject (steps : List String)
  | memberOfNonObject (segment expression : String)
  deriving DecidableEq

namespace RunError

/-- Whether the fault is a missing object; all others are faults of the request's shape. -/
def isNullDereference : RunError → Bool
  | nullDereference _ => true
  | _ => false

def message : RunError → String
  | nullDereference expression => "null dereference evaluating '" ++ expression ++ "'"
  | notAnObject name => "invalid object graph: " ++ name ++ " is not an object"
  | impressionsNotAList => "invalid object graph: bidRequest.imp is not an array"
  | givenNotAnObject base path =>
    "invalid object graph: " ++ base ++ "." ++ path.text ++ " is not an object"
  | noOpenBuilder path => "invalid object graph: no open builder for " ++ path.text
  | expectedAnObject steps =>
    "invalid object graph: expected an object at " ++ String.intercalate "." steps
  | memberOfNonObject segment expression =>
    "invalid object graph: cannot read '" ++ segment ++ "' of a non-object in " ++ expression

end RunError

end AdapterForge

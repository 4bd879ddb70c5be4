import AdapterForge.Assignment.Basic

/-!
Why a transformation cannot be compiled.
-/
namespace AdapterForge

inductive Ambiguity where
  | requestTarget
  | extTarget
  | impressionTarget
  | impressionsTarget
  | impressionSource (raw : String)
  | requestSource (raw : String)
  | impressionsSource (raw : String)
  deriving DecidableEq

def Ambiguity.message : Ambiguity → String
  | .requestTarget => "request-level target in impression scope"
  | .extTarget => "the parsed impression extension is read-only"
  | .impressionTarget => "impression-level target in request scope"
  | .impressionsTarget => "impressions are modified through 'imp.' targets"
  | .impressionSource raw =>
    "'" ++ raw ++ "': impression fields cannot be read from request scope"
  | .requestSource raw =>
    "'" ++ raw ++ "': request fields cannot be read from impression scope"
  | .impressionsSource raw =>
    "'" ++ raw ++ "': impressions are a list and cannot be read from request scope"

def maxSourceDepth : Nat := 3

inductive Unsupported where
  | targetDepth (depth : Nat) (scope : Scope)
  | sourceDepth (raw : String) (depth : Nat)
  | nestedParam (path : FieldPath)
  | assignedAndNested (field leaf : String)
  | assignedAndRebuilt (field : String)
  deriving DecidableEq

def Unsupported.message : Unsupported → String
  | .targetDepth depth scope =>
    "target path has " ++ toString depth ++ " segments, " ++ scope.text ++
      " scope supports at most " ++ toString scope.maxDepth
  | .sourceDepth raw depth =>
    "source path '" ++ raw ++ "' has " ++ toString depth ++ " segments, at most " ++
      toString maxSourceDepth ++ " are supported"
  | .nestedParam path => "extension source '" ++ path.text ++ "' must name a single bidder param"
  | .assignedAndNested field leaf =>
    "'" ++ field ++ "' is assigned directly by '" ++ leaf ++
      "' and also has nested fields written"
  | .assignedAndRebuilt field => "'" ++ field ++ "' is both assigned and rebuilt"

inductive ValueKind where
  | null
  | boolean
  | array
  | object
  deriving DecidableEq

def ValueKind.text : ValueKind → String
  | .null => "null"
  | .boolean => "boolean"
  | .array => "array"
  | .object => "object"

inductive Invalid where
  | valueAndSource
  | neitherValueNorSource
  | undeclaredParam (path : FieldPath)
  deriving DecidableEq

def Invalid.message : Invalid → String
  | .valueAndSource => "staticValue and from are mutually exclusive"
  | .neitherValueNorSource => "one of staticValue or from is required"
  | .undeclaredParam path => "'" ++ path.text ++ "' is not a declared bidder param"

inductive RuleFault where
  | malformed (path : String) (why : PathFault)
  | ambiguous (why : Ambiguity)
  | unsupported (why : Unsupported)
  | valueType (kind : ValueKind)
  | invalid (why : Invalid)
  deriving DecidableEq

structure RuleError where
  target : String
  fault : RuleFault
  deriving DecidableEq

def RuleError.message (e : RuleError) : String :=
  match e.fault with
  | .malformed path why =>
    "malformed path '" ++ path ++ "' in transformation '" ++ e.target ++ "': " ++ why.message
  | .ambiguous why => "ambiguous source in transformation '" ++ e.target ++ "': " ++ why.message
  | .unsupported why => "unsupported transformation '" ++ e.target ++ "': " ++ why.message
  | .valueType kind =>
    "unsupported static value in transformation '" ++ e.target ++ "': " ++ kind.text ++
      " values are not supported"
  | .invalid why => "invalid transformation '" ++ e.target ++ "': " ++ why.message

end AdapterForge

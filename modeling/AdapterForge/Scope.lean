/-!
The two objects that transformations modify, and the markers that lead their paths.
-/
namespace AdapterForge

inductive Scope where
  | impression
  | request
  deriving DecidableEq

/-- What is left of a text behind a marker. -/
def afterMarker? (marker text : String) : Option String :=
  if marker.toList.isPrefixOf text.toList then
    some (String.ofList (text.toList.drop marker.toList.length))
  else none

def impMarker : String := "imp."

def extMarker : String := "impExt."

def requestMarker : String := "bidRequest."

namespace Scope

def text : Scope → String
  | impression => "impression"
  | request => "request"

def ofTarget (raw : String) : Scope :=
  if (afterMarker? impMarker raw).isSome then impression else request

def maxDepth : Scope → Nat
  | impression => 2
  | request => 3

/-- The marker that may lead a target. -/
def marker : Scope → String
  | impression => impMarker
  | request => requestMarker

def base : Scope → String
  | impression => "imp"
  | request => "bidRequest"

def builder : Scope → String
  | impression => "impBuilder"
  | request => "requestBuilder"

end Scope

end AdapterForge

import AdapterForge.FieldPath
import AdapterForge.Text.Uppercase

/-!
Java names made from the names of fields, bidders and paths.
-/
namespace AdapterForge.Java

/-- The first character in upper case, the rest as written. -/
def capitalize (s : String) : String :=
  match s.toList with
  | [] => ""
  | c :: r => String.ofList (Text.uppercase c ++ r)

def className (field : String) : String := capitalize field

def getter (field : String) : String := "get" ++ className field

/-- The variable of the nested object at a path: all its names in one, so that equal names under
different parents stay apart. -/
def localVar (p : FieldPath) : String := p.rest.foldl (fun t s => t ++ className s) p.first

def builderVar (p : FieldPath) : String := localVar p ++ "Builder"

/-- The variable of a member of a JSON node before it is known to be an object. -/
def nodeVar (p : FieldPath) : String := localVar p ++ "Node"

def bidderClass (bidder : String) : String := capitalize bidder ++ "Bidder"

def extClass (bidder : String) : String := "ExtImp" ++ capitalize bidder

/-- The first character in lower case; ASCII letters only, as in the names of bidders. -/
def lowerFirst (s : String) : String :=
  match s.toList with
  | [] => ""
  | c :: r => String.ofList (c.toLower :: r)

def lower (s : String) : String := s.map Char.toLower

end AdapterForge.Java

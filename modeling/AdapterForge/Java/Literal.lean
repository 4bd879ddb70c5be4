import AdapterForge.Assignment.Basic
import AdapterForge.Json.NumberText

/-!
Java literals.
-/
namespace AdapterForge.Java

def escapeChar (c : Char) : List Char :=
  match c with
  | '\\' => ['\\', '\\']
  | '"' => ['\\', '"']
  | '\n' => ['\\', 'n']
  | '\r' => ['\\', 'r']
  | '\t' => ['\\', 't']
  | c => [c]

def quote (s : String) : String :=
  String.ofList ('"' :: (s.toList.flatMap escapeChar ++ ['"']))

def literal : Literal → String
  | .number n => n.text
  | .text s => quote s

end AdapterForge.Java

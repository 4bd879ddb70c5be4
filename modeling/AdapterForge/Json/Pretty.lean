import AdapterForge.Json.NumberText
import AdapterForge.Json.Quoted
import AdapterForge.Json.Written

/-!
JSON text over many lines, two blanks for each level. An empty array or object stays on its line.
-/
namespace AdapterForge.Written

def lineBreak (level : Nat) : String := "\n" ++ String.ofList (List.replicate (2 * level) ' ')

def enclosed (opening closing : String) (level : Nat) (items : List String) : String :=
  if items.isEmpty then opening ++ closing
  else
    opening ++ lineBreak (level + 1) ++ String.intercalate ("," ++ lineBreak (level + 1)) items ++
      lineBreak level ++ closing

mutual

/-- The text of a value whose first line is already indented. -/
def pretty (level : Nat) : Written → String
  | .null => "null"
  | .bool b => if b then "true" else "false"
  | .number n => n.text
  | .string s => Json.quote s
  | .array items => enclosed "[" "]" level (prettyItems (level + 1) items)
  | .object members => enclosed "\x7b" "\x7d" level (prettyMembers (level + 1) members)

def prettyItems (level : Nat) : List Written → List String
  | [] => []
  | v :: r => pretty level v :: prettyItems level r

def prettyMembers (level : Nat) : List (String × Written) → List String
  | [] => []
  | (k, v) :: r => (Json.quote k ++ ": " ++ pretty level v) :: prettyMembers level r

end

end AdapterForge.Written

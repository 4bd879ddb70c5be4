import AdapterForge.Json.Basic

/-!
JSON values as a document writes them: the members of an object keep their order. Forgetting that
order (`Written.toJson`) gives the value.
-/
namespace AdapterForge

inductive Written where
  | null
  | bool (value : Bool)
  | number (value : Number)
  | string (value : String)
  | array (items : List Written)
  | object (members : List (String × Written))

instance : Inhabited Written := ⟨.null⟩

namespace Written

mutual

def toJson : Written → Json
  | .null => .null
  | .bool b => .bool b
  | .number n => .number n
  | .string s => .string s
  | .array items => .array (toJsonList items)
  | .object members => .object (.ofList (toJsonMembers members))

def toJsonList : List Written → List Json
  | [] => []
  | v :: r => v.toJson :: toJsonList r

def toJsonMembers : List (String × Written) → List (String × Json)
  | [] => []
  | (k, v) :: r => (k, v.toJson) :: toJsonMembers r

end

/-- Add a member at the end, or replace the one of that name where it stands. -/
def putMember (k : String) (v : Written) : List (String × Written) → List (String × Written)
  | [] => [(k, v)]
  | (j, w) :: r => if j = k then (k, v) :: r else (j, w) :: putMember k v r

/-- An object from its members as they come; of a repeated name the last value counts. -/
def ofMembers (members : List (String × Written)) : Written :=
  .object (members.foldl (fun l e => putMember e.1 e.2 l) [])

mutual

def decEq : (a b : Written) → Decidable (a = b)
  | .null, .null => isTrue rfl
  | .bool x, .bool y => if h : x = y then isTrue (by rw [h]) else isFalse (by simp [h])
  | .number x, .number y => if h : x = y then isTrue (by rw [h]) else isFalse (by simp [h])
  | .string x, .string y => if h : x = y then isTrue (by rw [h]) else isFalse (by simp [h])
  | .array x, .array y =>
    match decEqList x y with
    | isTrue h => isTrue (by rw [h])
    | isFalse h => isFalse (by simp [h])
  | .object x, .object y =>
    match decEqMembers x y with
    | isTrue h => isTrue (by rw [h])
    | isFalse h => isFalse (by simp [h])
  | .null, .bool _ | .null, .number _ | .null, .string _ | .null, .array _ | .null, .object _
  | .bool _, .null | .bool _, .number _ | .bool _, .string _ | .bool _, .array _
  | .bool _, .object _ | .number _, .null | .number _, .bool _ | .number _, .string _
  | .number _, .array _ | .number _, .object _ | .string _, .null | .string _, .bool _
  | .string _, .number _ | .string _, .array _ | .string _, .object _ | .array _, .null
  | .array _, .bool _ | .array _, .number _ | .array _, .string _ | .array _, .object _
  | .object _, .null | .object _, .bool _ | .object _, .number _ | .object _, .string _
  | .object _, .array _ => isFalse nofun
termination_by structural a => a

def decEqList : (a b : List Written) → Decidable (a = b)
  | [], [] => isTrue rfl
  | [], _ :: _ => isFalse nofun
  | _ :: _, [] => isFalse nofun
  | x :: r, y :: s =>
    match decEq x y with
    | isTrue hx =>
      match decEqList r s with
      | isTrue hr => isTrue (by rw [hx, hr])
      | isFalse hr => isFalse (by simp [hr])
    | isFalse hx => isFalse (by simp [hx])
termination_by structural a => a

def decEqMembers : (a b : List (String × Written)) → Decidable (a = b)
  | [], [] => isTrue rfl
  | [], _ :: _ => isFalse nofun
  | _ :: _, [] => isFalse nofun
  | (k, x) :: r, (j, y) :: s =>
    if hk : k = j then
      match decEq x y with
      | isTrue hx =>
        match decEqMembers r s with
        | isTrue hr => isTrue (by rw [hk, hx, hr])
        | isFalse hr => isFalse (by simp [hr])
      | isFalse hx => isFalse (by simp [hx])
    else isFalse (by simp [hk])
termination_by structural a => a

end

instance : DecidableEq Written := decEq

end Written

end AdapterForge

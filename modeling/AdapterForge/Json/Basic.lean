import AdapterForge.Json.Fields
import AdapterForge.Decimal.Double

/-!
JSON values. Objects are finite maps, so two values are equal exactly when they differ in nothing
but the order of keys; a whole number and a fraction are never equal.
-/
namespace AdapterForge

/-- A JSON number: a whole number that fits 64 bits, signed or not, or a double. -/
inductive Number where
  | int (value : Int) (range : -2 ^ 63 ≤ value ∧ value < 2 ^ 64)
  | double (value : Double)
  deriving DecidableEq

def Number.ofNat (n : Nat) : Number :=
  .int (n % 2 ^ 64 : Nat) ⟨by omega, by have := Nat.mod_lt n (show 0 < 2 ^ 64 by decide); omega⟩

inductive Json where
  | null
  | bool (value : Bool)
  | number (value : Number)
  | string (value : String)
  | array (items : List Json)
  | object (fields : Fields Json)

instance : Inhabited Json := ⟨.null⟩

namespace Json

def emptyObject : Json := .object .empty

/-- The object under `fields`, or the empty object for every other value. -/
def fieldsOf : Json → Fields Json
  | .object fields => fields
  | _ => .empty

def isNull : Json → Bool
  | .null => true
  | _ => false

def get? (v : Json) (k : String) : Option Json :=
  match v with
  | .object fields => fields.get? k
  | _ => none

def nonNull? : Option Json → Option Json
  | some .null => none
  | o => o

def present? (v : Json) (k : String) : Option Json := nonNull? (v.get? k)

/-- What lies at the end of a list of names, when nothing on the way is missing or null. -/
def at? (v : Json) : List String → Option Json
  | [] => some v
  | k :: r =>
    match v.present? k with
    | some w => w.at? r
    | none => none

/-- Write a member, or remove it when the value is null. -/
def put (fields : Fields Json) (k : String) (v : Json) : Fields Json :=
  if v.isNull then fields.erase k else fields.set k v

mutual

def decEq : (a b : Json) → Decidable (a = b)
  | .null, .null => isTrue rfl
  | .bool x, .bool y => if h : x = y then isTrue (by rw [h]) else isFalse (by simp [h])
  | .number x, .number y => if h : x = y then isTrue (by rw [h]) else isFalse (by simp [h])
  | .string x, .string y => if h : x = y then isTrue (by rw [h]) else isFalse (by simp [h])
  | .array x, .array y =>
    match decEqList x y with
    | isTrue h => isTrue (by rw [h])
    | isFalse h => isFalse (by simp [h])
  | .object ⟨ks, v⟩, .object ⟨ls, w⟩ =>
    if hk : ks = ls then
      have same : ∀ k : {k // k ∈ ks}, Decidable (v k = w ⟨k.1, hk ▸ k.2⟩) :=
        fun k => decEq (v k) (w ⟨k.1, hk ▸ k.2⟩)
      if h : ∀ k ∈ ks.names.attach, v ⟨k.1, k.2⟩ = w ⟨k.1, hk ▸ k.2⟩ then
        isTrue (by
          subst hk
          congr 2
          funext k
          exact h ⟨k.1, k.2⟩ (List.mem_attach _ _))
      else
        isFalse (by
          subst hk
          intro e
          injection e with e
          injection e with _ e
          exact h fun k _ => congrFun e ⟨k.1, k.2⟩)
    else isFalse (by simp [hk])
  | .null, .bool _ | .null, .number _ | .null, .string _ | .null, .array _ | .null, .object _
  | .bool _, .null | .bool _, .number _ | .bool _, .string _ | .bool _, .array _
  | .bool _, .object _ | .number _, .null | .number _, .bool _ | .number _, .string _
  | .number _, .array _ | .number _, .object _ | .string _, .null | .string _, .bool _
  | .string _, .number _ | .string _, .array _ | .string _, .object _ | .array _, .null
  | .array _, .bool _ | .array _, .number _ | .array _, .string _ | .array _, .object _
  | .object _, .null | .object _, .bool _ | .object _, .number _ | .object _, .string _
  | .object _, .array _ => isFalse nofun
termination_by structural a => a

def decEqList : (a b : List Json) → Decidable (a = b)
  | [], [] => isTrue rfl
  | [], _ :: _ => isFalse nofun
  | _ :: _, [] => isFalse nofun
  | x :: r, y :: s =>
    match decEq x y with
    | isTrue hx =>
      match decEqList r s with
      | isTrue hr => isTrue (by rw [hx, hr])
      | isFalse hr => isFalse (by simp [hr])
    | isFalse hx => isFalse (by simp [hx])
termination_by structural a => a

end

instance : DecidableEq Json := decEq

end Json

end AdapterForge

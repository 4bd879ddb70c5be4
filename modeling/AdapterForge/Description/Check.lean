import AdapterForge.Description.Basic
import AdapterForge.Text.Blank

/-!
What a description must satisfy beyond its form.
-/
namespace AdapterForge

inductive DescriptionFault where
  | emptyName
  | nameNotAlphanumeric
  | emptyEndpoint
  | repeatedParam (param : String)
  deriving DecidableEq

structure DescriptionError where
  bidder : String
  fault : DescriptionFault
  deriving DecidableEq

def DescriptionError.message (e : DescriptionError) : String :=
  "invalid bidder description '" ++ e.bidder ++ "': " ++
    match e.fault with
    | .emptyName => "bidderName must not be empty"
    | .nameNotAlphanumeric => "bidderName '" ++ e.bidder ++ "' must be alphanumeric"
    | .emptyEndpoint => "properties.endpointUrl must not be empty"
    | .repeatedParam p => "duplicate bidder param '" ++ p ++ "'"

def firstRepeated? (seen : List String) : List String → Option String
  | [] => none
  | k :: r => if k ∈ seen then some k else firstRepeated? (k :: seen) r

theorem firstRepeated?_eq_none_iff {seen l : List String} :
    firstRepeated? seen l = none ↔ l.Nodup ∧ ∀ k ∈ l, k ∉ seen := by
  induction l generalizing seen with
  | nil => simp [firstRepeated?]
  | cons k r ih =>
    unfold firstRepeated?
    by_cases h : k ∈ seen
    · simp [h]
    · rw [if_neg h, ih]
      simp only [List.nodup_cons, List.mem_cons, not_or]
      constructor
      · rintro ⟨hr, hn⟩
        exact ⟨⟨fun hk => (hn k hk).1 rfl, hr⟩, fun j hj => hj.elim (· ▸ h) fun hj => (hn j hj).2⟩
      · rintro ⟨⟨hk, hr⟩, hn⟩
        exact ⟨hr, fun j hj => ⟨fun e => hk (e ▸ hj), hn j (.inr hj)⟩⟩

namespace Description

/-- The first fault, in the order name, endpoint, params. -/
def fault? (d : Description) : Option DescriptionFault :=
  if d.name = "" then some .emptyName
  else if ¬ d.name.toList.all Char.isAlphanum then some .nameNotAlphanumeric
  else if Text.allBlank d.endpoint.url then some .emptyEndpoint
  else (firstRepeated? [] (d.params.map (·.name))).map .repeatedParam

def check (d : Description) : Except DescriptionError Description :=
  match d.fault? with
  | some f => .error ⟨d.name, f⟩
  | none => .ok d

theorem fault?_eq_none_iff {d : Description} :
    d.fault? = none ↔ d.name ≠ "" ∧ d.name.toList.all Char.isAlphanum = true ∧
      Text.allBlank d.endpoint.url = false ∧ (d.params.map (·.name)).Nodup := by
  unfold fault?
  by_cases h₁ : d.name = "" <;> by_cases h₂ : d.name.toList.all Char.isAlphanum = true <;>
    by_cases h₃ : Text.allBlank d.endpoint.url = true <;>
    simp [h₁, h₂, h₃, firstRepeated?_eq_none_iff]

end Description

end AdapterForge

/-!
Sets of names as strictly ascending lists. A set is determined by its members (`KeySet.ext_mem`),
so two ways of building one never differ.
-/
namespace AdapterForge

def insertName (k : String) : List String → List String
  | [] => [k]
  | x :: r => if k < x then k :: x :: r else if k = x then x :: r else x :: insertName k r

theorem mem_insertName {k y : String} {l : List String} :
    y ∈ insertName k l ↔ y = k ∨ y ∈ l := by
  induction l with
  | nil => simp [insertName]
  | cons x r ih =>
    unfold insertName
    split
    · simp
    · split
      · next h => subst h; simp
      · simp only [List.mem_cons, ih]
        constructor
        · rintro (h | h | h) <;> simp [h]
        · rintro (h | h | h) <;> simp [h]

theorem lt_of_not_lt_of_ne {a b : String} (h : ¬ a < b) (hne : a ≠ b) : b < a := by
  by_cases hba : b < a
  · exact hba
  · exact absurd (String.le_antisymm (String.not_lt.1 hba) (String.not_lt.1 h)) hne

theorem pairwise_insertName (k : String) {l : List String} (h : l.Pairwise (· < ·)) :
    (insertName k l).Pairwise (· < ·) := by
  induction l with
  | nil => simp [insertName]
  | cons x r ih =>
    rw [List.pairwise_cons] at h
    unfold insertName
    split
    · next hk =>
      refine List.pairwise_cons.2 ⟨?_, List.pairwise_cons.2 h⟩
      intro y hy
      rcases List.mem_cons.1 hy with rfl | hy
      · exact hk
      · exact String.lt_trans hk (h.1 y hy)
    · next hk =>
      split
      · exact List.pairwise_cons.2 h
      · next hne =>
        refine List.pairwise_cons.2 ⟨?_, ih h.2⟩
        intro y hy
        rcases mem_insertName.1 hy with rfl | hy
        · exact lt_of_not_lt_of_ne hk hne
        · exact h.1 y hy

theorem eq_of_pairwise_of_mem_iff {l m : List String} (hl : l.Pairwise (· < ·))
    (hm : m.Pairwise (· < ·)) (h : ∀ k, k ∈ l ↔ k ∈ m) : l = m := by
  induction l generalizing m with
  | nil =>
    cases m with
    | nil => rfl
    | cons y s => exact absurd ((h y).2 (by simp)) (by simp)
  | cons x r ih =>
    cases m with
    | nil => exact absurd ((h x).1 (by simp)) (by simp)
    | cons y s =>
      rw [List.pairwise_cons] at hl hm
      have hxy : x = y := by
        rcases List.mem_cons.1 ((h x).1 (by simp)) with e | hx
        · exact e
        · rcases List.mem_cons.1 ((h y).2 (by simp)) with e | hy
          · exact e.symm
          · exact absurd (hl.1 y hy) (String.lt_asymm (hm.1 x hx))
      subst hxy
      congr 1
      refine ih hl.2 hm.2 fun k => ⟨fun hk => ?_, fun hk => ?_⟩
      · rcases List.mem_cons.1 ((h k).1 (List.mem_cons_of_mem _ hk)) with rfl | hk'
        · exact absurd (hl.1 k hk) (String.lt_irrefl k)
        · exact hk'
      · rcases List.mem_cons.1 ((h k).2 (List.mem_cons_of_mem _ hk)) with rfl | hk'
        · exact absurd (hm.1 k hk) (String.lt_irrefl k)
        · exact hk'

/-- A finite set of names, listed in strictly ascending order. -/
structure KeySet where
  names : List String
  ascending : names.Pairwise (· < ·)
  deriving DecidableEq

namespace KeySet

instance : Membership String KeySet := ⟨fun s k => k ∈ s.names⟩

instance (k : String) (s : KeySet) : Decidable (k ∈ s) := inferInstanceAs (Decidable (k ∈ s.names))

theorem mem_names {k : String} {s : KeySet} : k ∈ s.names ↔ k ∈ s := Iff.rfl

theorem ext_mem {s t : KeySet} (h : ∀ k, k ∈ s ↔ k ∈ t) : s = t := by
  cases s; cases t
  congr 1
  exact eq_of_pairwise_of_mem_iff ‹_› ‹_› h

def empty : KeySet := ⟨[], .nil⟩

def insert (k : String) (s : KeySet) : KeySet :=
  ⟨insertName k s.names, pairwise_insertName k s.ascending⟩

def erase (k : String) (s : KeySet) : KeySet :=
  ⟨s.names.filter (· ≠ k), s.ascending.filter _⟩

def ofList (l : List String) : KeySet := l.foldr insert empty

@[simp] theorem not_mem_empty (k : String) : k ∉ empty := List.not_mem_nil

@[simp] theorem mem_insert {k y : String} {s : KeySet} : y ∈ s.insert k ↔ y = k ∨ y ∈ s :=
  mem_insertName

@[simp] theorem mem_erase {k y : String} {s : KeySet} : y ∈ s.erase k ↔ y ≠ k ∧ y ∈ s := by
  change y ∈ s.names.filter (· ≠ k) ↔ _
  simp [List.mem_filter, and_comm, mem_names]

@[simp] theorem mem_ofList {k : String} {l : List String} : k ∈ ofList l ↔ k ∈ l := by
  induction l with
  | nil => simp [ofList]
  | cons x r ih => simp_all [ofList]

end KeySet

end AdapterForge

import AdapterForge.Java.Name
import AdapterForge.Proofs.Flattening

/-!
How paths are spelled as variables: the names in one word, each but the first with a capital. Where
the names themselves have no capitals, the capitals tell where the names begin, and two paths are
never spelled alike.
-/
namespace AdapterForge

theorem Java.toList_className {s : String} {c : Char} {r : List Char} (hs : s.toList = c :: r)
    (hc : Text.uppercase c = [c.toUpper]) : (className s).toList = c.toUpper :: r := by
  simp only [className, capitalize, hs, hc, List.singleton_append, String.toList_ofList]

/-- A small letter, with no capital behind it. -/
def isPlain (s : String) : Bool :=
  match s.toList with
  | [] => false
  | c :: r => c.isLower && r.all (!·.isUpper)

def IsPlain (s : String) : Prop := isPlain s = true

instance (s : String) : Decidable (IsPlain s) := inferInstanceAs (Decidable (_ = true))

def FieldPath.Plain (p : FieldPath) : Prop := ∀ k ∈ p.segments, IsPlain k

instance (p : FieldPath) : Decidable p.Plain := inferInstanceAs (Decidable (∀ k ∈ _, _))

theorem capital_of_isLower {c : Char} (h : c.isLower = true) :
    Text.uppercase c = [c.toUpper] ∧ c.toUpper.isUpper = true ∧ c.toUpper.toLower = c ∧
      c.isUpper = false := by
  have hascii : c.toNat < 128 := by
    have hle : c.toNat ≤ 122 := of_decide_eq_true (Bool.and_eq_true_iff.1 h).2
    omega
  exact Text.forall_ascii (p := fun c => c.isLower = true → Text.uppercase c = [c.toUpper] ∧
    c.toUpper.isUpper = true ∧ c.toUpper.toLower = c ∧ c.isUpper = false) (by decide +kernel) hascii h

namespace IsPlain

variable {s t : String}

theorem exists_toList (h : IsPlain s) :
    ∃ c r, s.toList = c :: r ∧ c.isLower = true ∧ ∀ d ∈ r, d.isUpper = false := by
  unfold IsPlain isPlain at h
  cases hs : s.toList with
  | nil => simp [hs] at h
  | cons c r => exact ⟨c, r, rfl, by simpa [hs] using h⟩

theorem isUpper_eq_false (h : IsPlain s) : ∀ c ∈ s.toList, c.isUpper = false := by
  obtain ⟨c, r, hs, hc, hr⟩ := h.exists_toList
  rw [hs]
  intro d hd
  rcases List.mem_cons.1 hd with rfl | hd
  · exact (capital_of_isLower hc).2.2.2
  · exact hr d hd

theorem toList_className (h : IsPlain s) : ∃ c r, s.toList = c :: r ∧ c.isLower = true ∧
    (∀ d ∈ r, d.isUpper = false) ∧ (Java.className s).toList = c.toUpper :: r := by
  obtain ⟨c, r, hs, hc, hr⟩ := h.exists_toList
  exact ⟨c, r, hs, hc, hr, Java.toList_className hs (capital_of_isLower hc).1⟩

end IsPlain

namespace Java

/-- The capitals behind a part without capitals. -/
def capitals (names : List String) : List Char := names.flatMap fun k => (className k).toList

theorem takeWhile_capitals {u : List Char} {names : List String}
    (hu : ∀ c ∈ u, c.isUpper = false) (h : ∀ k ∈ names, IsPlain k) :
    (u ++ capitals names).takeWhile (!·.isUpper) = u := by
  rw [List.takeWhile_append_of_pos (by simpa using hu)]
  cases names with
  | nil => simp [capitals]
  | cons k names =>
    obtain ⟨c, r, -, hc, -, hk⟩ := (h k (by simp)).toList_className
    simp [capitals, hk, (capital_of_isLower hc).2.1]

theorem capitals_inj {u v : List Char} {names names' : List String}
    (hu : ∀ c ∈ u, c.isUpper = false) (hv : ∀ c ∈ v, c.isUpper = false)
    (h : ∀ k ∈ names, IsPlain k) (h' : ∀ k ∈ names', IsPlain k)
    (heq : u ++ capitals names = v ++ capitals names') : u = v ∧ names = names' := by
  induction names generalizing u v names' with
  -- in both cases the part without capitals ends where the first capital is
  | nil =>
    have huv : u = v := by
      rw [← takeWhile_capitals hu h, heq, takeWhile_capitals hv h']
    subst huv
    cases names' with
    | nil => exact ⟨rfl, rfl⟩
    | cons k' names' =>
      obtain ⟨d, w, -, -, -, hk'⟩ := (h' k' (by simp)).toList_className
      simp [capitals, hk'] at heq
  | cons k names ih =>
    have huv : u = v := by
      rw [← takeWhile_capitals hu h, heq, takeWhile_capitals hv h']
    subst huv
    obtain ⟨c, r, hks, hc, hr, hk⟩ := (h k (by simp)).toList_className
    have hrest := List.append_cancel_left heq
    cases names' with
    | nil => simp [capitals, hk] at hrest
    | cons k' names' =>
      obtain ⟨d, w, hks', hd, hw, hk'⟩ := (h' k' (by simp)).toList_className
      simp only [capitals, List.flatMap_cons, hk, hk', List.cons_append, List.cons.injEq] at hrest
      obtain ⟨hcd, hrest⟩ := hrest
      obtain ⟨rfl, rfl⟩ := ih hr hw (fun j hj => h j (List.mem_cons_of_mem _ hj))
        (fun j hj => h' j (List.mem_cons_of_mem _ hj)) hrest
      have hsame : c = d := by
        rw [← (capital_of_isLower hc).2.2.1, hcd, (capital_of_isLower hd).2.2.1]
      obtain rfl : k = k' := String.toList_inj.1 (by rw [hks, hks', hsame])
      exact ⟨rfl, rfl⟩

theorem toList_localVar (p : FieldPath) :
    (localVar p).toList = p.first.toList ++ capitals p.rest := by
  have hfold : ∀ (rest : List String) (t : String),
      (rest.foldl (fun t s => t ++ className s) t).toList = t.toList ++ capitals rest := by
    intro rest
    induction rest with
    | nil => simp [capitals]
    | cons k rest ih =>
      intro t
      rw [List.foldl_cons, ih, String.toList_append, List.append_assoc]
      rfl
  exact hfold p.rest p.first

theorem localVar_inj {p q : FieldPath} (hp : p.Plain) (hq : q.Plain) :
    localVar p = localVar q ↔ p = q := by
  refine ⟨fun h => ?_, congrArg localVar⟩
  rw [← String.toList_inj, toList_localVar, toList_localVar] at h
  obtain ⟨hfirst, hrest⟩ := capitals_inj (hp p.first (by simp [FieldPath.segments])).isUpper_eq_false
    (hq q.first (by simp [FieldPath.segments])).isUpper_eq_false
    (fun k hk => hp k (List.mem_cons_of_mem _ hk)) (fun k hk => hq k (List.mem_cons_of_mem _ hk)) h
  obtain ⟨first, rest⟩ := p
  obtain ⟨first', rest'⟩ := q
  rw [FieldPath.mk.injEq]
  exact ⟨String.toList_inj.1 hfirst, hrest⟩

theorem localVar_child (p : FieldPath) (k : String) :
    localVar ((Builder.nested p).child k) = localVar p ++ className k := by
  unfold localVar Builder.child
  rw [List.foldl_append]
  rfl

theorem builderVar_eq (p : FieldPath) :
    builderVar p = localVar ((Builder.nested p).child "builder") := by
  rw [localVar_child]
  rfl

theorem nodeVar_eq (p : FieldPath) : nodeVar p = localVar ((Builder.nested p).child "node") := by
  rw [localVar_child]
  rfl

end Java

end AdapterForge

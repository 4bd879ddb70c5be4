import AdapterForge.Proofs.GeneratedPaths
import AdapterForge.Proofs.Spelling

/-!
The names that Java accepts, and which of the names made from fields and bidders are among them.
-/
namespace AdapterForge

namespace Java

def reservedWords : List String :=
  ["abstract", "assert", "boolean", "break", "byte", "case", "catch", "char", "class", "const",
    "continue", "default", "do", "double", "else", "enum", "extends", "final", "finally", "float",
    "for", "goto", "if", "implements", "import", "instanceof", "int", "interface", "long", "native",
    "new", "package", "private", "protected", "public", "return", "short", "static", "strictfp",
    "super", "switch", "synchronized", "this", "throw", "throws", "transient", "try", "void",
    "volatile", "while", "_", "true", "false", "null"]

/-- Reserved words have small letters only, but for the lone underscore. -/
theorem isLower_of_mem_reservedWords {s : String} (h : s ∈ reservedWords) :
    s = "_" ∨ ∀ c ∈ s.toList, c.isLower = true := by
  have hall : reservedWords.all (fun w => w == "_" || w.toList.all Char.isLower) = true := by
    decide +kernel
  have hs := List.all_eq_true.1 hall s h
  rwa [Bool.or_eq_true, beq_iff_eq, List.all_eq_true] at hs

theorem not_reserved {s : String} (hlength : 1 < s.toList.length) {c : Char} (hc : c ∈ s.toList)
    (hlower : c.isLower = false) : s ∉ reservedWords := by
  intro h
  rcases isLower_of_mem_reservedWords h with rfl | hall
  · exact absurd hlength (by decide)
  · rw [hall c hc] at hlower
    cases hlower

end Java

/-- ASCII letters, digits, underscores and dollar signs, with no digit first. -/
def IsName (s : String) : Prop := FieldPath.isName s.toList = true

instance (s : String) : Decidable (IsName s) := inferInstanceAs (Decidable (_ = true))

/-- A name that Java accepts for a class, a method or a variable. -/
def Java.IsIdentifier (s : String) : Prop := IsName s ∧ s ∉ Java.reservedWords

instance (s : String) : Decidable (Java.IsIdentifier s) := inferInstanceAs (Decidable (_ ∧ _))

theorem isNameChar_of_isNameStart {c : Char} (h : FieldPath.isNameStart c = true) :
    FieldPath.isNameChar c = true := by
  unfold FieldPath.isNameStart at h
  unfold FieldPath.isNameChar Char.isAlphanum
  simp only [Bool.or_eq_true] at h ⊢
  tauto

namespace IsName

variable {s t : String}

theorem iff_of_toList {c : Char} {r : List Char} (hs : s.toList = c :: r) :
    IsName s ↔ FieldPath.isNameStart c = true ∧ ∀ d ∈ r, FieldPath.isNameChar d = true := by
  rw [IsName, hs, FieldPath.isName, Bool.and_eq_true, List.all_eq_true]

theorem exists_toList (h : IsName s) : ∃ c r, s.toList = c :: r ∧
    FieldPath.isNameStart c = true ∧ ∀ d ∈ r, FieldPath.isNameChar d = true := by
  cases hs : s.toList with
  | nil => simp [IsName, hs, FieldPath.isName] at h
  | cons c r => exact ⟨c, r, rfl, (iff_of_toList hs).1 h⟩

theorem isNameChar (h : IsName s) : ∀ c ∈ s.toList, FieldPath.isNameChar c = true := by
  obtain ⟨c, r, hs, hc, hr⟩ := h.exists_toList
  rw [hs]
  intro d hd
  rcases List.mem_cons.1 hd with rfl | hd
  · exact isNameChar_of_isNameStart hc
  · exact hr d hd

theorem append (h : IsName s) (ht : ∀ c ∈ t.toList, FieldPath.isNameChar c = true) :
    IsName (s ++ t) := by
  obtain ⟨c, r, hs, hc, hr⟩ := h.exists_toList
  rw [iff_of_toList (c := c) (r := r ++ t.toList) (by rw [String.toList_append, hs, List.cons_append])]
  refine ⟨hc, fun d hd => ?_⟩
  exact (List.mem_append.1 hd).elim (hr d) (ht d)

theorem uppercase_eq {c : Char} (h : FieldPath.isNameStart c = true) :
    Text.uppercase c = [c.toUpper] ∧ FieldPath.isNameStart c.toUpper = true ∧
      c.toUpper.isLower = false ∧ (c.toUpper = '_' → c = '_') := by
  have hascii : c.toNat < 128 := by
    rcases Bool.or_eq_true_iff.1 h with hstart | hdollar
    · rcases Bool.or_eq_true_iff.1 hstart with halpha | hunder
      · exact IsWord.ascii (Bool.or_eq_true_iff.2 (.inl halpha))
      · obtain rfl := beq_iff_eq.1 hunder
        decide
    · obtain rfl := beq_iff_eq.1 hdollar
      decide
  exact Text.forall_ascii (p := fun c => FieldPath.isNameStart c = true →
    Text.uppercase c = [c.toUpper] ∧ FieldPath.isNameStart c.toUpper = true ∧
      c.toUpper.isLower = false ∧ (c.toUpper = '_' → c = '_')) (by decide +kernel) hascii h

theorem toList_className (h : IsName s) : ∃ c r, s.toList = c :: r ∧
    FieldPath.isNameStart c = true ∧ (Java.className s).toList = c.toUpper :: r := by
  obtain ⟨c, r, hs, hc, -⟩ := h.exists_toList
  exact ⟨c, r, hs, hc, Java.toList_className hs (uppercase_eq hc).1⟩

theorem className (h : IsName s) : IsName (Java.className s) := by
  obtain ⟨c, r, hs, hc, hcap⟩ := h.toList_className
  exact (iff_of_toList hcap).2 ⟨(uppercase_eq hc).2.1, ((iff_of_toList hs).1 h).2⟩

end IsName

namespace Java

variable {s t : String} {p : FieldPath}

/-- A capital, or anything else that is no small letter, keeps a longer name from being reserved. -/
theorem isIdentifier_append (hs : IsName s) (ht : t.toList.all FieldPath.isNameChar = true)
    {c : Char} (hc : c ∈ t.toList) (hlower : c.isLower = false) : IsIdentifier (s ++ t) := by
  refine ⟨hs.append (List.all_eq_true.1 ht), not_reserved (c := c) ?_ ?_ hlower⟩
  · obtain ⟨d, r, hs, -, -⟩ := hs.exists_toList
    have hpos := List.length_pos_of_mem hc
    simp only [String.toList_append, hs, List.cons_append, List.length_cons, List.length_append]
    omega
  · rw [String.toList_append]
    exact List.mem_append_right _ hc

theorem isIdentifier_append_className (hs : IsName s) (ht : IsName t) :
    IsIdentifier (s ++ className t) := by
  obtain ⟨c, r, -, hc, hcap⟩ := ht.toList_className
  have hchars := List.all_eq_true.2 ht.className.isNameChar
  exact isIdentifier_append hs hchars (c := c.toUpper) (by simp [hcap])
    (IsName.uppercase_eq hc).2.2.1

theorem isIdentifier_getter (h : IsName s) : IsIdentifier (getter s) :=
  isIdentifier_append_className (by decide) h

/-- The class of a field has a capital, unless the field is reserved itself. -/
theorem isIdentifier_className (h : IsName s) (hs : s ∉ reservedWords) :
    IsIdentifier (className s) := by
  refine ⟨h.className, fun hreserved => hs ?_⟩
  obtain ⟨c, r, hlist, hc, hcap⟩ := h.toList_className
  rcases isLower_of_mem_reservedWords hreserved with heq | hall
  · rw [heq] at hcap
    obtain ⟨hunder, rfl⟩ := List.cons.inj hcap
    obtain rfl : s = "_" := by
      rw [← String.toList_inj, hlist, (IsName.uppercase_eq hc).2.2.2 hunder.symm]
      rfl
    decide
  · have hlower := hall c.toUpper (by simp [hcap])
    rw [(IsName.uppercase_eq hc).2.2.1] at hlower
    cases hlower

theorem isName_localVar (h : ∀ k ∈ p.segments, IsName k) : IsName (localVar p) := by
  have hfold : ∀ (rest : List String) (t : String), IsName t → (∀ k ∈ rest, IsName k) →
      IsName (rest.foldl (fun t s => t ++ className s) t) := by
    intro rest
    induction rest with
    | nil => exact fun t ht _ => ht
    | cons k rest ih =>
      intro t ht hrest
      refine ih _ ?_ fun j hj => hrest j (List.mem_cons_of_mem _ hj)
      exact (isIdentifier_append_className ht (hrest k (by simp))).1
  exact hfold p.rest p.first (h _ (by simp [FieldPath.segments]))
    fun k hk => h k (List.mem_cons_of_mem _ hk)

/-- Of the variables of objects, only those of top-level objects can be reserved words. -/
theorem isIdentifier_localVar (h : ∀ k ∈ p.segments, IsName k)
    (hfirst : p.first ∉ reservedWords) : IsIdentifier (localVar p) := by
  obtain ⟨first, rest⟩ := p
  rcases List.eq_nil_or_concat rest with rfl | ⟨r, k, rfl⟩
  · exact ⟨isName_localVar h, hfirst⟩
  · rw [List.concat_eq_append] at h ⊢
    have hchild := localVar_child ⟨first, r⟩ k
    unfold Builder.child at hchild
    rw [hchild]
    refine isIdentifier_append_className (isName_localVar fun j hj => h j ?_) (h k ?_)
    · rcases List.mem_cons.1 hj with rfl | hj
      · simp [FieldPath.segments]
      · simp [FieldPath.segments, show j ∈ r from hj]
    · simp [FieldPath.segments]

theorem isIdentifier_builderVar (h : ∀ k ∈ p.segments, IsName k) : IsIdentifier (builderVar p) :=
  isIdentifier_append (isName_localVar h) (by decide) (c := 'B') (by decide) (by decide)

theorem isIdentifier_nodeVar (h : ∀ k ∈ p.segments, IsName k) : IsIdentifier (nodeVar p) :=
  isIdentifier_append (isName_localVar h) (by decide) (c := 'N') (by decide) (by decide)

end Java

def startsWithDigit (s : String) : Bool := s.toList.head?.any (·.isDigit)

namespace IsWord

variable {s t : String}

theorem digit_eq {c : Char} (h : c.isAlphanum = true) :
    FieldPath.isNameStart c = !c.isDigit ∧ c.toUpper.isDigit = c.isDigit ∧
      c.toLower.isDigit = c.isDigit := by
  exact Text.forall_ascii (p := fun c => c.isAlphanum = true →
    FieldPath.isNameStart c = !c.isDigit ∧ c.toUpper.isDigit = c.isDigit ∧
      c.toLower.isDigit = c.isDigit) (by decide +kernel) (ascii h) h

theorem isNameChar (h : IsWord s) : ∀ c ∈ s.toList, FieldPath.isNameChar c = true := by
  intro c hc
  simp [FieldPath.isNameChar, h.alphanum c hc]

theorem isName_iff (h : IsWord s) : IsName s ↔ startsWithDigit s = false := by
  obtain ⟨c, r, hs⟩ := List.exists_cons_of_ne_nil h.toList_ne_nil
  have hr : ∀ d ∈ r, FieldPath.isNameChar d = true := fun d hd => h.isNameChar d (by simp [hs, hd])
  rw [IsName.iff_of_toList hs, and_iff_left hr, startsWithDigit, hs,
    (digit_eq (h.alphanum c (by simp [hs]))).1]
  simp

theorem startsWithDigit_capitalize (h : IsWord s) :
    startsWithDigit (Java.capitalize s) = startsWithDigit s := by
  obtain ⟨c, r, hs⟩ := List.exists_cons_of_ne_nil h.toList_ne_nil
  have hc := h.alphanum c (by simp [hs])
  have hcap : (Java.capitalize s).toList = c.toUpper :: r := Java.toList_className hs (case_eq hc).2.1
  simp [startsWithDigit, hs, hcap, (digit_eq hc).2.1]

theorem startsWithDigit_append (h : IsWord s) : startsWithDigit (s ++ t) = startsWithDigit s := by
  obtain ⟨c, r, hs⟩ := List.exists_cons_of_ne_nil h.toList_ne_nil
  simp [startsWithDigit, String.toList_append, hs]

theorem startsWithDigit_lower (h : IsWord s) :
    startsWithDigit (Java.lower s) = startsWithDigit s := by
  obtain ⟨c, r, hs⟩ := List.exists_cons_of_ne_nil h.toList_ne_nil
  simp [startsWithDigit, Java.lower, String.toList_map, hs,
    (digit_eq (h.alphanum c (by simp [hs]))).2.2]

theorem toList_lowerFirst {c : Char} {r : List Char} (hs : s.toList = c :: r) :
    (Java.lowerFirst s).toList = c.toLower :: r := by
  simp only [Java.lowerFirst, hs, String.toList_ofList]

theorem lowerFirst (h : IsWord s) :
    IsWord (Java.lowerFirst s) ∧ startsWithDigit (Java.lowerFirst s) = startsWithDigit s := by
  obtain ⟨c, r, hs⟩ := List.exists_cons_of_ne_nil h.toList_ne_nil
  have hc := h.alphanum c (by simp [hs])
  have hlist := toList_lowerFirst hs
  refine ⟨⟨?_, ?_⟩, by simp [startsWithDigit, hs, hlist, (digit_eq hc).2.2]⟩
  · rw [Ne, ← String.toList_eq_nil_iff, hlist]
    exact List.cons_ne_nil _ _
  · rw [hlist]
    intro d hd
    rcases List.mem_cons.1 hd with rfl | hd
    · exact (case_eq hc).1
    · exact h.alphanum d (by simp [hs, hd])

end IsWord

end AdapterForge

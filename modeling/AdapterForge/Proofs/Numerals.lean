import Mathlib.Data.List.TakeWhile
import AdapterForge.Json.NumberText
import AdapterForge.Proofs.NearestDouble

/-!
Numerals: the parts of the text of a number. The text of a decimal has a fraction or an exponent, and
its parts stand for the same value.
-/
namespace AdapterForge

theorem numberOf_eq (ds : List Char) : numberOf ds = Nat.ofDigitChars 10 ds 0 :=
  Nat.ofDigitChars_eq_foldl.symm

@[simp] theorem numberOf_digitsOf (n : Nat) : numberOf (digitsOf n) = n := by
  rw [numberOf_eq, digitsOf, Nat.ofDigitChars_ten_toDigits]

theorem numberOf_append (ds es : List Char) :
    numberOf (ds ++ es) = numberOf ds * 10 ^ es.length + numberOf es := by
  rw [numberOf_eq, Nat.ofDigitChars_append, Nat.ofDigitChars_eq_ofDigitChars_zero, ← numberOf_eq,
    ← numberOf_eq, Nat.mul_comm]

theorem numberOf_replicate_zero (k : Nat) : numberOf (List.replicate k '0') = 0 := by
  rw [numberOf_eq, Nat.ofDigitChars_replicate_zero, Nat.mul_zero]

theorem digitsOf_ne_nil (n : Nat) : digitsOf n ≠ [] := Nat.toDigits_ne_nil

theorem isDigit_of_mem_digitsOf {n : Nat} {c : Char} (h : c ∈ digitsOf n) : c.isDigit = true :=
  Nat.isDigit_of_mem_toDigits (by decide) (by decide) h

def IsDigits (ds : List Char) : Prop := ds ≠ [] ∧ ∀ c ∈ ds, c.isDigit = true

theorem isDigits_digitsOf (n : Nat) : IsDigits (digitsOf n) :=
  ⟨digitsOf_ne_nil n, fun _ => isDigit_of_mem_digitsOf⟩

structure Numeral where
  negative : Bool
  whole : List Char
  fraction : Option (List Char)
  exponent : Option Int
  deriving DecidableEq

namespace Numeral

def fractionText : Option (List Char) → List Char
  | none => []
  | some ds => '.' :: ds

def exponentText : Option Int → List Char
  | none => []
  | some e => 'e' :: (if 0 ≤ e then '+' else '-') :: digitsOf e.natAbs

def magnitudeText (n : Numeral) : List Char :=
  n.whole ++ (fractionText n.fraction ++ exponentText n.exponent)

def text (n : Numeral) : List Char :=
  if n.negative then '-' :: n.magnitudeText else n.magnitudeText

structure WellFormed (n : Numeral) : Prop where
  whole : IsDigits n.whole
  fraction : ∀ ds, n.fraction = some ds → IsDigits ds

def isFloating (n : Numeral) : Bool := n.fraction.isSome || n.exponent.isSome

def decimal (n : Numeral) : Decimal :=
  ⟨numberOf (n.whole ++ n.fraction.getD []), n.exponent.getD 0 - (n.fraction.getD []).length⟩

end Numeral

namespace Decimal

theorem value_append_zeros (ds : List Char) (k : Nat) (e : Int) :
    (⟨numberOf (ds ++ List.replicate k '0'), e⟩ : Decimal).value =
      (⟨numberOf ds, e + k⟩ : Decimal).value := by
  have hten : (10 : ℚ) ≠ 0 := by norm_num
  simp only [value, numberOf_append, numberOf_replicate_zero, List.length_replicate, Nat.add_zero]
  rw [zpow_add₀ hten, zpow_natCast]
  push_cast
  ring

theorem numberOf_zeros_append (ds : List Char) (k : Nat) :
    numberOf (List.replicate k '0' ++ ds) = numberOf ds := by
  rw [numberOf_append, numberOf_replicate_zero, Nat.zero_mul, Nat.zero_add]

theorem eq_take_append_zeros (ds : List Char) :
    ds = ds.take (ds.length - (ds.reverse.takeWhile (· == '0')).length) ++
      List.replicate (ds.reverse.takeWhile (· == '0')).length '0' := by
  have hzeros : ds.reverse.takeWhile (· == '0') =
      List.replicate (ds.reverse.takeWhile (· == '0')).length '0' := by
    apply List.eq_replicate_of_mem
    intro c hc
    simpa using List.mem_takeWhile_imp hc
  have hsplit := List.takeWhile_append_dropWhile (p := (· == '0')) (l := ds.reverse)
  generalize ds.reverse.takeWhile (· == '0') = zeros at hzeros hsplit ⊢
  have hdrop : (ds.reverse.drop zeros.length).reverse = ds.take (ds.length - zeros.length) := by
    rw [List.reverse_drop, List.reverse_reverse, List.length_reverse]
  rw [← hdrop, ← hsplit, List.drop_left, ← List.reverse_replicate, ← hzeros, ← List.reverse_append,
    hsplit, List.reverse_reverse]

/-- Trimming keeps the value and leaves at least one digit. -/
theorem trimmed_spec {d : Decimal} {ds : List Char} {e : Int} (h : d.trimmed = (ds, e)) :
    IsDigits ds ∧ (⟨numberOf ds, e⟩ : Decimal).value = d.value := by
  unfold trimmed at h
  dsimp only at h
  split at h
  · next hzero =>
    obtain ⟨rfl, rfl⟩ := Prod.mk.inj h
    refine ⟨⟨List.cons_ne_nil _ _, List.forall_mem_singleton.2 rfl⟩, ?_⟩
    have hnumber : numberOf ['0'] = 0 := rfl
    simp [value, hzero, hnumber]
  · next hzero =>
    obtain ⟨hds, rfl⟩ := Prod.mk.inj h
    have hsplit := eq_take_append_zeros (digitsOf d.digits)
    generalize ((digitsOf d.digits).reverse.takeWhile (· == '0')).length = zeros at hds hsplit ⊢
    rw [hds] at hsplit
    have hvalue := value_append_zeros ds zeros d.exponent
    rw [← hsplit, numberOf_digitsOf] at hvalue
    refine ⟨⟨?_, ?_⟩, hvalue.symm⟩
    · intro hnil
      rw [hnil, List.nil_append] at hsplit
      apply hzero
      rw [← numberOf_digitsOf d.digits, hsplit, numberOf_replicate_zero]
    · intro c hc
      rw [← hds] at hc
      exact isDigit_of_mem_digitsOf (List.mem_of_mem_take hc)

end Decimal

namespace Numeral

/-- A numeral for the value of a decimal that cannot be read as a whole number. -/
structure Reads (n : Numeral) (d : Decimal) : Prop where
  unsigned : n.negative = false
  wellFormed : n.WellFormed
  floating : n.isFloating = true
  value : n.decimal.value = d.value

theorem isDigits_zeros_append {ds : List Char} (h : IsDigits ds) (k : Nat) :
    IsDigits (List.replicate k '0' ++ ds) ∧ IsDigits (ds ++ List.replicate k '0') := by
  have hdigit : ∀ c ∈ List.replicate k '0', c.isDigit = true := by
    intro c hc
    rw [List.eq_of_mem_replicate hc]
    decide
  refine ⟨⟨by simp [h.1], fun c hc => ?_⟩, by simp [h.1], fun c hc => ?_⟩
  · exact (List.mem_append.1 hc).elim (hdigit c) (h.2 c)
  · exact (List.mem_append.1 hc).elim (h.2 c) (hdigit c)

variable {ds : List Char} {e : Int}

theorem reads_fraction (zeros : Nat) (h : IsDigits ds) (hzeros : (zeros : Int) = -(ds.length + e)) :
    (⟨false, ['0'], some (List.replicate zeros '0' ++ ds), none⟩ : Numeral).Reads
      ⟨numberOf ds, e⟩ where
  unsigned := rfl
  wellFormed :=
    ⟨⟨List.cons_ne_nil _ _, List.forall_mem_singleton.2 rfl⟩,
      fun _ hds => Option.some.inj hds ▸ (isDigits_zeros_append h zeros).1⟩
  floating := rfl
  value := by
    have hnumber := Decimal.numberOf_zeros_append ds (zeros + 1)
    have hexponent : 0 - ((List.replicate zeros '0' ++ ds).length : Int) = e := by
      simp only [List.length_append, List.length_replicate]
      omega
    rw [List.replicate_succ, List.cons_append] at hnumber
    simp only [decimal, Option.getD_some, Option.getD_none, hexponent, List.singleton_append, hnumber]

theorem reads_whole (zeros : Nat) (h : IsDigits ds) (hzeros : (zeros : Int) = e) :
    (⟨false, ds ++ List.replicate zeros '0', some ['0'], none⟩ : Numeral).Reads
      ⟨numberOf ds, e⟩ where
  unsigned := rfl
  wellFormed :=
    ⟨(isDigits_zeros_append h zeros).2, fun _ hds => Option.some.inj hds ▸
      ⟨List.cons_ne_nil _ _, List.forall_mem_singleton.2 rfl⟩⟩
  floating := rfl
  value := by
    have happend : ds ++ List.replicate zeros '0' ++ ['0'] = ds ++ List.replicate (zeros + 1) '0' := by
      rw [List.append_assoc, ← List.replicate_succ']
    have hexponent : (0 : Int) - (['0'].length : Nat) + (zeros + 1 : Nat) = e := by
      simp only [List.length_singleton]
      omega
    simp only [decimal, Option.getD_some, Option.getD_none, happend, Decimal.value_append_zeros,
      hexponent]

theorem reads_point (point : Nat) (h : IsDigits ds) (hpos : 0 < point)
    (hpoint : (point : Int) = ds.length + e) (hnegative : e < 0) :
    (⟨false, ds.take point, some (ds.drop point), none⟩ : Numeral).Reads ⟨numberOf ds, e⟩ where
  unsigned := rfl
  wellFormed := by
    refine ⟨⟨?_, fun c hc => h.2 c (List.mem_of_mem_take hc)⟩, ?_⟩
    · apply List.ne_nil_of_length_pos
      rw [List.length_take]
      omega
    · rintro _ ⟨⟩
      refine ⟨?_, fun c hc => h.2 c (List.mem_of_mem_drop hc)⟩
      apply List.ne_nil_of_length_pos
      rw [List.length_drop]
      omega
  floating := rfl
  value := by
    have hexponent : 0 - ((ds.drop point).length : Int) = e := by
      rw [List.length_drop]
      omega
    simp only [decimal, Option.getD_some, Option.getD_none, hexponent, List.take_append_drop]

theorem reads_digit {c : Char} (h : IsDigits [c]) :
    (⟨false, [c], none, some e⟩ : Numeral).Reads ⟨numberOf [c], e⟩ where
  unsigned := rfl
  wellFormed := ⟨h, nofun⟩
  floating := rfl
  value := by simp [decimal]

theorem reads_scientific {c : Char} (h : IsDigits (c :: ds)) (hds : ds ≠ []) :
    (⟨false, [c], some ds, some (ds.length + e)⟩ : Numeral).Reads ⟨numberOf (c :: ds), e⟩ where
  unsigned := rfl
  wellFormed := by
    obtain ⟨hc, hrest⟩ := List.forall_mem_cons.1 h.2
    exact ⟨⟨List.cons_ne_nil _ _, List.forall_mem_singleton.2 hc⟩,
      fun _ hsome => Option.some.inj hsome ▸ ⟨hds, hrest⟩⟩
  floating := rfl
  value := by simp [decimal]

end Numeral

namespace Decimal

/-- The text of a decimal is a numeral for its value. -/
theorem exists_numeral (d : Decimal) : ∃ n : Numeral, n.magnitudeText = d.text ∧ n.Reads d := by
  obtain ⟨⟨ds, e⟩, htrimmed⟩ : ∃ parts, d.trimmed = parts := ⟨_, rfl⟩
  obtain ⟨hdigits, hvalue⟩ := trimmed_spec htrimmed
  suffices ∃ n : Numeral, n.magnitudeText = d.text ∧ n.Reads ⟨numberOf ds, e⟩ by
    obtain ⟨n, htext, hreads⟩ := this
    exact ⟨n, htext, { hreads with value := hreads.value.trans hvalue }⟩
  have hlength := List.length_pos_of_ne_nil hdigits.1
  unfold text
  simp only [htrimmed, Numeral.magnitudeText]
  split
  -- positional: below one, whole, or with a point between the digits
  · split
    · refine ⟨_, ?_, Numeral.reads_fraction (-(ds.length + e)).toNat hdigits (by omega)⟩
      simp [Numeral.fractionText, Numeral.exponentText]
    split
    · refine ⟨_, ?_, Numeral.reads_whole e.toNat hdigits (by omega)⟩
      simp [Numeral.fractionText, Numeral.exponentText]
    · refine ⟨_, ?_, Numeral.reads_point (ds.length + e).toNat hdigits (by omega) (by omega)
        (by omega)⟩
      simp [Numeral.fractionText, Numeral.exponentText]
  -- scientific: a single digit has no point behind it
  · match ds, hdigits with
    | [c], hdigits =>
      refine ⟨_, ?_, Numeral.reads_digit hdigits⟩
      have hexponent : (([c].length : Int) + e - 1) = e := by
        rw [List.length_singleton]
        omega
      rw [hexponent]
      simp only [Numeral.fractionText, Numeral.exponentText]
      split <;> rfl
    | c :: c' :: r, hdigits =>
      refine ⟨_, ?_, Numeral.reads_scientific hdigits (List.cons_ne_nil _ _)⟩
      have hexponent : ((c :: c' :: r).length : Int) + e - 1 = (c' :: r).length + e := by
        rw [List.length_cons]
        omega
      rw [hexponent]
      simp only [Numeral.fractionText, Numeral.exponentText]
      split <;> simp

end Decimal

def Numeral.ofInt (i : Int) : Numeral := ⟨i < 0, digitsOf i.natAbs, none, none⟩

theorem Numeral.text_ofInt (i : Int) : (ofInt i).text = intText i := by
  by_cases h : i < 0 <;>
    simp [ofInt, text, magnitudeText, fractionText, exponentText, intText, h]

theorem Numeral.wellFormed_ofInt (i : Int) : (ofInt i).WellFormed := ⟨isDigits_digitsOf i.natAbs, nofun⟩

theorem Double.exists_numeral (x : Double) : ∃ n : Numeral, n.text = x.text ∧ n.WellFormed ∧
    n.isFloating = true ∧ n.negative = x.negative ∧ n.decimal.value = x.shortest.value := by
  obtain ⟨m, hmagnitude, hreads⟩ := x.shortest.exists_numeral
  refine ⟨{ m with negative := x.negative }, ?_, ⟨hreads.wellFormed.whole, hreads.wellFormed.fraction⟩,
    hreads.floating, rfl, hreads.value⟩
  rw [Double.text, ← hmagnitude]
  rfl

theorem Number.exists_numeral (n : Number) : ∃ m : Numeral, n.text.toList = m.text ∧ m.WellFormed := by
  cases n with
  | int i range =>
    refine ⟨.ofInt i, ?_, Numeral.wellFormed_ofInt i⟩
    rw [text, String.toList_ofList, Numeral.text_ofInt]
  | double x =>
    obtain ⟨m, htext, hwell, -⟩ := x.exists_numeral
    refine ⟨m, ?_, hwell⟩
    rw [text, String.toList_ofList, htext]

end AdapterForge

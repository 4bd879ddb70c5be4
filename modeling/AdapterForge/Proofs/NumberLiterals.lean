import AdapterForge.Assignment.Resolution
import AdapterForge.Java.Value
import AdapterForge.Proofs.Numerals

/-!
Number literals of Java. A written number is a literal that denotes it, unless it is a whole number
beyond the range of `int`: those are written without the suffix of a `long` and are no literals at all.
-/
namespace AdapterForge.Java

inductive Constant where
  | int (value : Int)
  | long (value : Int)
  | double (value : Double)
  deriving DecidableEq

def readSign : List Char → Bool × List Char
  | '-' :: r => (true, r)
  | '+' :: r => (false, r)
  | r => (false, r)

def readFraction : List Char → Option (List Char) × List Char
  | '.' :: r => (some (r.takeWhile Char.isDigit), r.dropWhile Char.isDigit)
  | r => (none, r)

def readExponent : List Char → Option Int × List Char
  | [] => (none, [])
  | c :: r =>
    let (negative, digits) := readSign r
    let e : Int := numberOf (digits.takeWhile Char.isDigit)
    if (c = 'e' ∨ c = 'E') ∧ digits.takeWhile Char.isDigit ≠ [] then
      (some (if negative then -e else e), digits.dropWhile Char.isDigit)
    else (none, c :: r)

def readMagnitude (negative : Bool) (text : List Char) : Numeral × List Char :=
  let (fraction, rest) := readFraction (text.dropWhile Char.isDigit)
  let (exponent, rest) := readExponent rest
  (⟨negative, text.takeWhile Char.isDigit, fraction, exponent⟩, rest)

/-- The numeral at the start of a text, and what follows it. -/
def readNumeral : List Char → Numeral × List Char
  | '-' :: r => readMagnitude true r
  | r => readMagnitude false r

/-- A whole number below `bound`, or not below its negation. More digits behind a zero are octal. -/
def integer? (n : Numeral) (bound : Int) : Option Int :=
  let i : Int := if n.negative then -numberOf n.whole else numberOf n.whole
  if n.whole = [] ∨ (n.whole.head? = some '0' ∧ n.whole ≠ ['0']) then none
  else if -bound ≤ i ∧ i < bound then some i
  else none

/-- The nearest double; a literal that is not zero may not be rounded to zero. -/
def floating? (n : Numeral) : Option Double := do
  let x ← n.decimal.nearest? n.negative
  if x.isZero ∧ n.decimal.digits ≠ 0 then none else some x

/-- What a decimal literal or the negation of one stands for: a literal with a point or an exponent is
a `double`, any other one an `int`, or a `long` if it has the suffix. -/
def constant? (text : List Char) : Option Constant :=
  let (n, suffix) := readNumeral text
  if n.whole ++ n.fraction.getD [] = [] then none
  else if n.isFloating then
    if suffix = [] then (floating? n).map .double else none
  else
    match suffix with
    | [] => (integer? n (2 ^ 31)).map .int
    | ['L'] | ['l'] => (integer? n (2 ^ 63)).map .long
    | _ => none

def numberConstant? : Number → Option Constant
  | .int i _ => if -2 ^ 31 ≤ i ∧ i < 2 ^ 31 then some (.int i) else none
  | .double x => some (.double x)

def NoDigitHead (rest : List Char) : Prop := ∀ c r, rest = c :: r → c.isDigit = false

theorem span_isDigit {ds rest : List Char} (h : IsDigits ds) (hrest : NoDigitHead rest) :
    (ds ++ rest).takeWhile Char.isDigit = ds ∧ (ds ++ rest).dropWhile Char.isDigit = rest := by
  rw [List.takeWhile_append_of_pos h.2, List.dropWhile_append_of_pos h.2]
  cases rest with
  | nil => exact ⟨List.append_nil ds, rfl⟩
  | cons c r =>
    have hc : ¬c.isDigit = true := by simp [hrest c r rfl]
    rw [List.takeWhile_cons_of_neg hc, List.dropWhile_cons_of_neg hc]
    exact ⟨List.append_nil ds, rfl⟩

theorem noDigitHead_exponentText (e : Option Int) : NoDigitHead (Numeral.exponentText e) := by
  intro c r he
  cases e with
  | none => cases he
  | some e =>
    obtain ⟨rfl, -⟩ := List.cons.inj he
    rfl

theorem noDigitHead_fractionText (fraction : Option (List Char)) (e : Option Int) :
    NoDigitHead (Numeral.fractionText fraction ++ Numeral.exponentText e) := by
  cases fraction with
  | none => exact noDigitHead_exponentText e
  | some ds =>
    intro c r h
    obtain ⟨rfl, -⟩ := List.cons.inj h
    rfl

theorem readExponent_exponentText (e : Option Int) :
    readExponent (Numeral.exponentText e) = (e, []) := by
  cases e with
  | none => rfl
  | some e =>
    obtain ⟨htake, hdrop⟩ := span_isDigit (isDigits_digitsOf e.natAbs) (nofun : NoDigitHead [])
    rw [List.append_nil] at htake hdrop
    have hdigits := digitsOf_ne_nil e.natAbs
    by_cases he : 0 ≤ e
    · simp [Numeral.exponentText, he, readExponent, readSign, htake, hdrop, hdigits]
    · have hnumber : -((e.natAbs : Nat) : Int) = e := by omega
      simp [Numeral.exponentText, he, readExponent, readSign, htake, hdrop, hdigits, hnumber,
        -Nat.cast_natAbs]

theorem readFraction_append {fraction : Option (List Char)} (h : ∀ ds, fraction = some ds → IsDigits ds)
    (e : Option Int) :
    readFraction (Numeral.fractionText fraction ++ Numeral.exponentText e) =
      (fraction, Numeral.exponentText e) := by
  cases fraction with
  | none =>
    cases e with
    | none => rfl
    | some e => rfl
  | some ds =>
    obtain ⟨htake, hdrop⟩ := span_isDigit (h ds rfl) (noDigitHead_exponentText e)
    simp only [Numeral.fractionText, List.cons_append, readFraction, htake, hdrop]

theorem readMagnitude_magnitudeText {n : Numeral} (h : n.WellFormed) :
    readMagnitude n.negative n.magnitudeText = (n, []) := by
  obtain ⟨htake, hdrop⟩ := span_isDigit h.whole (noDigitHead_fractionText n.fraction n.exponent)
  simp only [readMagnitude, Numeral.magnitudeText, htake, hdrop, readFraction_append h.fraction,
    readExponent_exponentText]

theorem readNumeral_text {n : Numeral} (h : n.WellFormed) : readNumeral n.text = (n, []) := by
  have hread := readMagnitude_magnitudeText h
  unfold Numeral.text
  cases hn : n.negative with
  | true =>
    rw [hn] at hread
    rw [if_pos rfl]
    exact hread
  | false =>
    rw [hn] at hread
    rw [if_neg Bool.false_ne_true, ← hread]
    -- the text starts with a digit and so not with a sign
    obtain ⟨c, r, hwhole⟩ := List.exists_cons_of_ne_nil h.whole.1
    have hdigit : c.isDigit = true := h.whole.2 c (by simp [hwhole])
    rw [Numeral.magnitudeText, hwhole, List.cons_append]
    apply readNumeral.eq_2
    intro r' hsign
    obtain ⟨rfl, -⟩ := List.cons.inj hsign
    exact absurd hdigit (by decide)

theorem constant?_text {n : Numeral} (h : n.WellFormed) :
    constant? n.text =
      if n.isFloating then (floating? n).map .double else (integer? n (2 ^ 31)).map .int := by
  unfold constant?
  rw [readNumeral_text h]
  simp [h.whole.1]

theorem floating?_eq {n : Numeral} {x : Double} (hsign : n.negative = x.negative)
    (hvalue : n.decimal.value = x.shortest.value) : floating? n = some x := by
  have hzero : ¬(x.isZero = true ∧ n.decimal.digits ≠ 0) := by
    intro ⟨hx, hdigits⟩
    have hshortest : x.shortest = ⟨0, 0⟩ := if_pos hx
    rw [hshortest] at hvalue
    have hpow : (10 : ℚ) ^ n.decimal.exponent ≠ 0 := zpow_ne_zero _ (by norm_num)
    apply hdigits
    simpa [Decimal.value, hpow] using hvalue
  rw [floating?, hsign, Double.nearest?_of_value_eq hvalue]
  exact if_neg hzero

theorem head_digitsOf {n : Nat} (h : n ≠ 0) : (digitsOf n).head? ≠ some '0' := by
  induction n using Nat.strongRecOn with
  | ind n ih =>
    by_cases hsmall : n < 10
    · have hdigit : ∀ d < 10, d ≠ 0 → Nat.digitChar d ≠ '0' := by decide
      rw [digitsOf, Nat.toDigits_of_lt_base hsmall]
      exact fun hhead => hdigit n hsmall h (Option.some.inj hhead)
    · rw [digitsOf, Nat.toDigits_of_base_le (by decide) (by omega),
        List.head?_append_of_ne_nil _ Nat.toDigits_ne_nil]
      exact ih (n / 10) (by omega) (by omega)

theorem integer?_ofInt (i bound : Int) :
    integer? (Numeral.ofInt i) bound = if -bound ≤ i ∧ i < bound then some i else none := by
  have hvalue : (if (Numeral.ofInt i).negative then -(numberOf (Numeral.ofInt i).whole : Int)
      else numberOf (Numeral.ofInt i).whole) = i := by
    simp only [Numeral.ofInt, numberOf_digitsOf, decide_eq_true_eq]
    split <;> omega
  have hdecimal : ¬((Numeral.ofInt i).whole = [] ∨
      (Numeral.ofInt i).whole.head? = some '0' ∧ (Numeral.ofInt i).whole ≠ ['0']) := by
    rintro (hnil | ⟨hhead, hne⟩)
    · exact digitsOf_ne_nil _ hnil
    · apply head_digitsOf _ hhead
      intro hzero
      apply hne
      simp only [Numeral.ofInt, hzero]
      rfl
  unfold integer?
  dsimp only
  rw [hvalue, if_neg hdecimal]

theorem constant?_double (x : Double) : constant? x.text = some (.double x) := by
  obtain ⟨n, htext, hwell, hfloating, hsign, hvalue⟩ := x.exists_numeral
  rw [← htext, constant?_text hwell, floating?_eq hsign hvalue]
  exact if_pos hfloating

theorem constant?_number (n : Number) : constant? n.text.toList = numberConstant? n := by
  cases n with
  | int i range =>
    rw [Number.text, String.toList_ofList, ← Numeral.text_ofInt, constant?_text (Numeral.wellFormed_ofInt i),
      integer?_ofInt, numberConstant?]
    change Option.map Constant.int _ = _
    split_ifs <;> rfl
  | double x =>
    rw [Number.text, String.toList_ofList, constant?_double, numberConstant?]

/-- A number is written as a literal that denotes it when it is a double or an `int`, and only then. -/
theorem staticNumber_denotes (raw : String) (target : FieldPath) (n : Number) (params : List Param) :
    ∃ value, Assignment.operand ⟨raw, target, .fixed (.number n)⟩ = .ok value ∧
      constant? (mutationValue value).toList = numberConstant? n ∧
      constant? (expectedValue params value).toList = numberConstant? n :=
  ⟨.literal (.number n), rfl, constant?_number n, constant?_number n⟩

/-- Three thousand million is written without the suffix that it needs. -/
theorem staticNumber_illegal :
    ∃ value, Assignment.operand ⟨"tmax", ⟨"tmax", []⟩, .fixed (.number (.ofNat 3000000000))⟩ = .ok value ∧
      mutationValue value = "3000000000" ∧ constant? (mutationValue value).toList = none ∧
      constant? "3000000000L".toList = some (.long 3000000000) :=
  ⟨.literal (.number (.ofNat 3000000000)), rfl, by decide +kernel⟩

end AdapterForge.Java

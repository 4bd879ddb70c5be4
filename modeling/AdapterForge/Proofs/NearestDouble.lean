import Mathlib.Algebra.Order.Field.Power
import Mathlib.Data.Rat.Cast.Order
import Mathlib.Tactic.Linarith
import Mathlib.Tactic.NormNum
import Mathlib.Tactic.Positivity
import Mathlib.Tactic.Ring
import AdapterForge.Decimal.Text

/-!
Decimals that round to a double. Every number between the ends of a double rounds to it, the shortest
decimal lies between them, and whether a decimal does depends on its value alone.
-/
namespace AdapterForge

theorem roundHalfEven_eq {num den m : Nat} (hden : 0 < den) (hlow : 2 * m * den ≤ 2 * num + den)
    (hhigh : 2 * num ≤ 2 * m * den + den)
    (hodd : m % 2 = 1 → 2 * m * den < 2 * num + den ∧ 2 * num < 2 * m * den + den) :
    roundHalfEven num den = m := by
  have hdiv : den * (num / den) + num % den = num := Nat.div_add_mod num den
  have hmod : num % den < den := Nat.mod_lt num hden
  have hle : num / den ≤ m := by
    by_contra hlt
    have hmul : den * (m + 1) ≤ den * (num / den) := Nat.mul_le_mul_left den (by omega)
    have : den * (m + 1) = m * den + den := by ring
    have : 2 * m * den = 2 * (m * den) := by ring
    omega
  have hge : m ≤ num / den + 1 := by
    by_contra hlt
    have hmul : den * (num / den + 2) ≤ den * m := Nat.mul_le_mul_left den (by omega)
    have : den * (num / den + 2) = den * (num / den) + 2 * den := by ring
    have : 2 * m * den = 2 * (den * m) := by ring
    omega
  -- what remains are the ties: a half goes to the even one of two neighbours
  have hm : m = num / den ∨ m = num / den + 1 := by omega
  unfold roundHalfEven
  dsimp only
  rcases hm with hm | hm
  · have : 2 * m * den = 2 * (den * (num / den)) := by rw [← hm]; ring
    split_ifs with hless hmore heven
    · exact hm.symm
    · omega
    · exact hm.symm
    · have := (hodd (by omega)).2
      omega
  · have : 2 * m * den = 2 * (den * (num / den)) + 2 * den := by rw [hm]; ring
    split_ifs with hless hmore heven
    · omega
    · exact hm.symm
    · have := (hodd (by omega)).1
      omega
    · exact hm.symm

namespace Double

variable {x : Double}

theorem significand_lt (x : Double) : x.significand < 2 ^ 53 := by
  unfold significand
  split <;> omega

theorem le_significand (h : 0 < x.shift) : 2 ^ 52 ≤ x.significand := by
  unfold shift at h
  unfold significand
  split <;> omega

theorem rank_eq (x : Double) : x.rank = x.shift * 2 ^ 52 + x.significand := by
  unfold shift significand
  split <;> omega

theorem significand_pos (h : x.isZero = false) : 0 < x.significand := by
  have hrank : x.rank ≠ 0 := by simpa [isZero] using h
  unfold significand
  split <;> omega

/-- Between the ends of a double; the ends themselves round to it when its significand is even. -/
def Within (x : Double) (num den : Nat) : Prop :=
  if x.significand % 2 = 0 then
    x.lowEnd * den ≤ num * 2 ^ 1076 ∧ num * 2 ^ 1076 ≤ x.highEnd * den
  else x.lowEnd * den < num * 2 ^ 1076 ∧ num * 2 ^ 1076 < x.highEnd * den

theorem Within.le {num den : Nat} (h : x.Within num den) :
    x.lowEnd * den ≤ num * 2 ^ 1076 ∧ num * 2 ^ 1076 ≤ x.highEnd * den := by
  unfold Within at h
  split at h
  · exact h
  · exact ⟨h.1.le, h.2.le⟩

theorem Within.lt {num den : Nat} (h : x.Within num den) (hodd : x.significand % 2 = 1) :
    x.lowEnd * den < num * 2 ^ 1076 ∧ num * 2 ^ 1076 < x.highEnd * den := by
  unfold Within at h
  rwa [if_neg (by omega)] at h

theorem log2_sub_eq {q s : Nat} (hhigh : q < 2 ^ (53 + s)) (hlow : 0 < s → 2 ^ (52 + s) ≤ q) :
    q.log2 - 52 = s := by
  rcases Nat.eq_zero_or_pos q with rfl | hq
  · rcases Nat.eq_zero_or_pos s with rfl | hs
    · rfl
    · have := hlow hs
      have := Nat.two_pow_pos (52 + s)
      omega
  · have hlt : q.log2 < 53 + s := (Nat.log2_lt (by omega)).2 hhigh
    rcases Nat.eq_zero_or_pos s with rfl | hs
    · omega
    · have hle : 52 + s ≤ q.log2 := (Nat.le_log2 (by omega)).2 (hlow hs)
      omega

/-- The ends of a double around a number, in the scale of the double. -/
structure Around (x : Double) (n unit : Nat) : Prop where
  high : 4 * n ≤ 4 * (x.significand * unit) + 2 * unit
  low : 4 * (x.significand * unit) ≤ 4 * n + 2 * unit
  odd : x.significand % 2 = 1 → 4 * (x.significand * unit) < 4 * n + 2 * unit ∧
    4 * n < 4 * (x.significand * unit) + 2 * unit
  /-- Below a power of two the doubles lie closer. -/
  power : x.significand = 2 ^ 52 → 0 < x.shift → 4 * (x.significand * unit) ≤ 4 * n + unit

theorem highEnd_mul (x : Double) (den : Nat) :
    x.highEnd * den = 4 * (x.significand * (den * 2 ^ x.shift)) + 2 * (den * 2 ^ x.shift) := by
  rw [highEnd]
  ring

theorem lowEnd_mul (hx : x.isZero = false) (den : Nat) :
    x.lowEnd * den + (if x.significand = 2 ^ 52 ∧ 0 < x.shift then 1 else 2) *
      (den * 2 ^ x.shift) = 4 * (x.significand * (den * 2 ^ x.shift)) := by
  have hpos := significand_pos hx
  have hends (k : Nat) (hk : k ≤ 4 * x.significand) :
      (4 * x.significand - k) * 2 ^ x.shift * den + k * (den * 2 ^ x.shift) =
        4 * (x.significand * (den * 2 ^ x.shift)) := by
    obtain ⟨j, hj⟩ := Nat.exists_eq_add_of_le hk
    rw [hj, Nat.add_sub_cancel_left, ← Nat.mul_assoc 4, hj]
    ring
  simp only [lowEnd]
  split
  · exact hends 1 (by omega)
  · exact hends 2 (by omega)

theorem Within.around {num den : Nat} (hx : x.isZero = false) (h : x.Within num den) :
    x.Around (num * 2 ^ 1074) (den * 2 ^ x.shift) := by
  have hnum : num * 2 ^ 1076 = 4 * (num * 2 ^ 1074) := by
    have hpow (k : Nat) : num * 2 ^ (k + 2) = 4 * (num * 2 ^ k) := by ring
    simpa only [Nat.reduceAdd] using hpow 1074
  have hlow := lowEnd_mul hx den
  have hle := h.le
  have hlt := h.lt
  rw [hnum, highEnd_mul] at hle hlt
  generalize den * 2 ^ x.shift = unit at hlow hle hlt ⊢
  generalize num * 2 ^ 1074 = n at hle hlt ⊢
  constructor
  · exact hle.2
  · split at hlow <;> omega
  · intro hodd
    have := hlt hodd
    split at hlow <;> omega
  · intro hm hs
    rw [if_pos ⟨hm, hs⟩] at hlow
    omega

namespace Around

variable {n den s : Nat}

theorem div_lt (hden : 0 < den) (h : x.Around n (den * 2 ^ x.shift)) : n / den < 2 ^ (53 + x.shift) := by
  have hm := x.significand_lt
  have hunit : 0 < den * 2 ^ x.shift := Nat.mul_pos hden (Nat.two_pow_pos _)
  have hmul : x.significand * (den * 2 ^ x.shift) ≤ (2 ^ 53 - 1) * (den * 2 ^ x.shift) :=
    Nat.mul_le_mul_right _ (by omega)
  have hpow : 2 ^ (53 + x.shift) * den = 2 ^ 53 * (den * 2 ^ x.shift) := by
    rw [Nat.pow_add]
    ring
  have hhigh := h.high
  rw [Nat.div_lt_iff_lt_mul hden]
  omega

/-- At the scale of the double its significand is the nearest one. -/
theorem roundHalfEven_eq (hden : 0 < den) (h : x.Around n (den * 2 ^ x.shift)) :
    roundHalfEven n (den * 2 ^ x.shift) = x.significand := by
  obtain ⟨hhigh, hlow, hodd, -⟩ := h
  apply AdapterForge.roundHalfEven_eq (Nat.mul_pos hden (Nat.two_pow_pos _))
  · rw [Nat.mul_assoc]; omega
  · rw [Nat.mul_assoc]; omega
  · intro h
    rw [Nat.mul_assoc]
    have := hodd h
    omega

/-- Below the scale of the double are only numbers that round to a power of two. -/
theorem significand_eq (hden : 0 < den) (h : x.Around n (den * 2 ^ x.shift)) (hs : 0 < x.shift)
    (hless : n < 2 ^ (52 + x.shift) * den) : x.significand = 2 ^ 52 := by
  have hmlow := le_significand hs
  have hlow := h.low
  have hpow : 2 ^ (52 + x.shift) * den = 2 ^ 52 * (den * 2 ^ x.shift) := by
    rw [Nat.pow_add]
    ring
  by_contra hne
  have hmul : (2 ^ 52 + 1) * (den * 2 ^ x.shift) ≤ x.significand * (den * 2 ^ x.shift) :=
    Nat.mul_le_mul_right _ (by omega)
  have hunit : 0 < den * 2 ^ x.shift := Nat.mul_pos hden (Nat.two_pow_pos _)
  omega

/-- Such a number is found at the scale below, next to the last significand there. -/
theorem rank_eq_below (hden : 0 < den) (h : x.Around n (den * 2 ^ x.shift)) (hshift : x.shift = s + 1)
    (hless : n < 2 ^ (52 + x.shift) * den) :
    (n / den).log2 - 52 = s ∧ roundHalfEven n (den * 2 ^ s) = 2 ^ 53 := by
  have hunit : 0 < den * 2 ^ s := Nat.mul_pos hden (Nat.two_pow_pos s)
  have hm52 := h.significand_eq hden (by omega) hless
  have hnear := h.power hm52 (by omega)
  have hdouble : den * 2 ^ x.shift = 2 * (den * 2 ^ s) := by
    rw [hshift, Nat.pow_succ]
    ring
  have hpow : 2 ^ (52 + x.shift) * den = 2 ^ 53 * (den * 2 ^ s) := by
    rw [hshift, show 52 + (s + 1) = 53 + s by omega, Nat.pow_add]
    ring
  have hpow' : 2 ^ (52 + s) * den = 2 ^ 52 * (den * 2 ^ s) := by
    rw [Nat.pow_add]
    ring
  rw [hm52] at hnear
  constructor
  · apply log2_sub_eq
    · rw [Nat.div_lt_iff_lt_mul hden, show 53 + s = 52 + x.shift by omega]
      exact hless
    · intro _
      rw [Nat.le_div_iff_mul_le hden]
      omega
  · apply AdapterForge.roundHalfEven_eq hunit
    · omega
    · omega
    · intro hodd
      exact absurd hodd (by decide)

/-- A number around which the ends of `x` lie has the rank of `x`. -/
theorem rank_eq (hden : 0 < den) (h : x.Around n (den * 2 ^ x.shift)) :
    ((n / den).log2 - 52) * 2 ^ 52 + roundHalfEven n (den * 2 ^ ((n / den).log2 - 52)) = x.rank := by
  rw [x.rank_eq]
  by_cases hsame : 0 < x.shift → 2 ^ (52 + x.shift) ≤ n / den
  · rw [log2_sub_eq (h.div_lt hden) hsame, h.roundHalfEven_eq hden]
  · obtain ⟨hs, hless⟩ := Classical.not_imp.1 hsame
    rw [Nat.not_le, Nat.div_lt_iff_lt_mul hden] at hless
    obtain ⟨s, hshift⟩ : ∃ s, x.shift = s + 1 := ⟨x.shift - 1, by omega⟩
    obtain ⟨hscale, hround⟩ := h.rank_eq_below hden hshift hless
    rw [hscale, hround, h.significand_eq hden hs hless, hshift]
    omega

end Around

/-- Every number between the ends of a double rounds to it. -/
theorem ofRatio_of_within {num den : Nat} (hden : 0 < den) (hx : x.isZero = false)
    (h : x.Within num den) : ofRatio x.negative num den = some x := by
  have hrank := (h.around hx).rank_eq hden
  unfold ofRatio
  generalize num * 2 ^ 1074 = n at hrank
  dsimp only
  obtain ⟨negative, rank, hfinite⟩ := x
  dsimp only at hrank
  subst hrank
  rw [dif_pos hfinite]

theorem within_congr {num den num' den' : Nat} (hden : 0 < den) (hden' : 0 < den')
    (h : num * den' = num' * den) : x.Within num den ↔ x.Within num' den' := by
  unfold Within
  generalize 2 ^ 1076 = unit
  have hnum : num * unit * den' = num' * unit * den := by
    rw [Nat.mul_right_comm, h, Nat.mul_right_comm]
  have hlow (bound : Nat) : bound * den ≤ num * unit ↔ bound * den' ≤ num' * unit := by
    rw [← Nat.mul_le_mul_right_iff hden', hnum, Nat.mul_right_comm, Nat.mul_le_mul_right_iff hden]
  have hhigh (bound : Nat) : num * unit ≤ bound * den ↔ num' * unit ≤ bound * den' := by
    rw [← Nat.mul_le_mul_right_iff hden', hnum, Nat.mul_right_comm bound,
      Nat.mul_le_mul_right_iff hden]
  simp only [← Nat.not_le, hlow, hhigh]

end Double

namespace Decimal

def num (d : Decimal) : Nat := if 0 ≤ d.exponent then d.digits * 10 ^ d.exponent.toNat else d.digits

def den (d : Decimal) : Nat := if 0 ≤ d.exponent then 1 else 10 ^ (-d.exponent).toNat

def value (d : Decimal) : ℚ := d.digits * (10 : ℚ) ^ d.exponent

theorem den_pos (d : Decimal) : 0 < d.den := by
  unfold den
  split
  · exact Nat.one_pos
  · exact Nat.pow_pos (by decide)

theorem value_eq (d : Decimal) : d.value = d.num / d.den := by
  unfold value num den
  split
  · next h =>
    obtain ⟨k, hk⟩ := Int.eq_ofNat_of_zero_le h
    simp [hk]
  · next h =>
    obtain ⟨k, hk⟩ := Int.eq_ofNat_of_zero_le (show 0 ≤ -d.exponent by omega)
    rw [show d.exponent = -(k : Int) by omega]
    simp [div_eq_mul_inv]

theorem num_mul_den {d d' : Decimal} (h : d.value = d'.value) : d.num * d'.den = d'.num * d.den := by
  have hden : (d.den : ℚ) ≠ 0 := by exact_mod_cast d.den_pos.ne'
  have hden' : (d'.den : ℚ) ≠ 0 := by exact_mod_cast d'.den_pos.ne'
  rw [value_eq, value_eq, div_eq_div_iff hden hden'] at h
  exact_mod_cast h

end Decimal

namespace Double

variable {x : Double} {d : Decimal}

theorem covers_iff : x.covers d = true ↔ x.Within d.num d.den := by
  unfold covers Within Decimal.num Decimal.den
  generalize 2 ^ 1076 = unit
  by_cases he : 0 ≤ d.exponent
  · have hnum : d.digits * (unit * 10 ^ d.exponent.toNat) =
        d.digits * 10 ^ d.exponent.toNat * unit := by
      rw [Nat.mul_comm unit, Nat.mul_assoc]
    simp only [he, if_true, hnum]
    split <;> simp
  · simp only [he, if_false]
    split <;> simp

theorem within_exactDecimal (h : x.isZero = false) : x.Within x.exactDecimal.num x.exactDecimal.den := by
  have hpos := significand_pos h
  have hneg : ¬(0 : Int) ≤ -1074 := by decide
  have hnum : x.exactDecimal.num = x.scaled * 5 ^ 1074 := if_neg hneg
  have hden : x.exactDecimal.den = 10 ^ 1074 := by
    simp only [Decimal.den, exactDecimal, hneg, if_false, Int.neg_neg, Int.reduceToNat]
  have hpow (k : Nat) : x.scaled * 5 ^ k * 2 ^ (k + 2) = 4 * x.scaled * 10 ^ k := by
    rw [show 10 = 5 * 2 from rfl, Nat.mul_pow, Nat.pow_add]
    ring
  have hscaled := hpow 1074
  simp only [Nat.reduceAdd] at hscaled
  have hends : x.lowEnd < 4 * x.scaled ∧ 4 * x.scaled < x.highEnd := by
    have hunit := Nat.two_pow_pos x.shift
    simp only [lowEnd, highEnd, scaled, ← Nat.mul_assoc]
    constructor
    · apply Nat.mul_lt_mul_of_pos_right _ hunit
      split <;> omega
    · apply Nat.mul_lt_mul_of_pos_right _ hunit
      omega
  have hten := x.exactDecimal.den_pos
  rw [hden] at hten
  rw [hnum, hden, Within, hscaled]
  have hlow := Nat.mul_lt_mul_of_pos_right hends.1 hten
  have hhigh := Nat.mul_lt_mul_of_pos_right hends.2 hten
  split
  · exact ⟨hlow.le, hhigh.le⟩
  · exact ⟨hlow, hhigh⟩

theorem covers_coarsest (h : x.isZero = false) (k : Int) (steps : Nat) :
    x.covers (x.coarsest k steps) = true := by
  induction steps generalizing k with
  | zero => exact covers_iff.2 (within_exactDecimal h)
  | succ steps ih =>
    rw [coarsest]
    cases hgrid : x.onGrid? k with
    | none => exact ih (k - 1)
    | some d => exact covers_of_onGrid? hgrid

theorem covers_shortest (h : x.isZero = false) : x.covers x.shortest = true := by
  unfold shortest
  rw [if_neg (by simp [h])]
  exact covers_coarsest h _ _

theorem two_pow_lt_ten_pow {k n : Nat} (h : k ≤ 3 * n) (hn : n ≠ 0) : 2 ^ k < 10 ^ n := by
  calc 2 ^ k ≤ 2 ^ (3 * n) := Nat.pow_le_pow_right (by decide) h
    _ = 8 ^ n := by rw [Nat.pow_mul]
    _ < 10 ^ n := Nat.pow_lt_pow_left (by decide) hn

theorem highEnd_le (x : Double) : x.highEnd ≤ 2 ^ 1024 * 2 ^ 1076 := by
  have hshift : x.shift ≤ 2045 := by
    have := x.finite
    unfold shift
    omega
  have hm : 4 * x.significand + 2 ≤ 2 ^ 55 := by
    have := x.significand_lt
    omega
  calc x.highEnd ≤ 2 ^ 55 * 2 ^ 2045 :=
        Nat.mul_le_mul hm (Nat.pow_le_pow_right (by decide) hshift)
    _ = 2 ^ 1024 * 2 ^ 1076 := by simp only [← Nat.pow_add, Nat.reduceAdd]

theorem lowEnd_pos (h : x.isZero = false) : 0 < x.lowEnd := by
  have := significand_pos h
  simp only [lowEnd]
  apply Nat.mul_pos _ (Nat.two_pow_pos _)
  split <;> omega

theorem digits_ne_zero (hx : x.isZero = false) (h : x.Within d.num d.den) : d.digits ≠ 0 := by
  intro hzero
  have hnum : d.num = 0 := by simp [Decimal.num, hzero]
  have hlow := h.le.1
  have := Nat.mul_pos (lowEnd_pos hx) d.den_pos
  rw [hnum, Nat.zero_mul] at hlow
  omega

theorem exponent_le (hx : x.isZero = false) (h : x.Within d.num d.den) : d.exponent ≤ 400 := by
  by_contra hlarge
  have hnum : 10 ^ 401 ≤ d.num := by
    rw [Decimal.num, if_pos (by omega)]
    have hexponent : 401 ≤ d.exponent.toNat := by omega
    generalize 401 = k at hexponent ⊢
    have hpow : 10 ^ k ≤ 10 ^ d.exponent.toNat := Nat.pow_le_pow_right (by decide) hexponent
    exact hpow.trans (Nat.le_mul_of_pos_left _ (Nat.pos_of_ne_zero (digits_ne_zero hx h)))
  have hden : d.den = 1 := if_pos (by omega)
  have hends : d.num * 2 ^ 1076 ≤ 2 ^ 1024 * 2 ^ 1076 := by
    have := h.le.2
    rw [hden, Nat.mul_one] at this
    exact this.trans x.highEnd_le
  have hlt := two_pow_lt_ten_pow (k := 1024) (n := 401) (by decide) (by decide)
  have := le_of_mul_le_mul_right hends (by positivity)
  omega

theorem le_exponent (hx : x.isZero = false) (h : x.Within d.num d.den) :
    -400 ≤ d.exponent + (digitsOf d.digits).length := by
  by_contra hsmall
  have hnum : d.num = d.digits := if_neg (by omega)
  have hden : d.den = 10 ^ (-d.exponent).toNat := if_neg (by omega)
  have hdigits : d.digits < 10 ^ (digitsOf d.digits).length :=
    (Nat.length_toDigits_le_iff (by decide) (List.length_pos_of_ne_nil Nat.toDigits_ne_nil)).1 le_rfl
  have hlow : d.den ≤ d.num * 2 ^ 1076 :=
    (Nat.le_mul_of_pos_left _ (lowEnd_pos hx)).trans h.le.1
  have hpow : 10 ^ (digitsOf d.digits).length * 10 ^ 401 ≤ d.den := by
    rw [hden, ← Nat.pow_add]
    exact Nat.pow_le_pow_right (by decide) (by omega)
  have hhigh : d.num * 2 ^ 1076 ≤ 10 ^ (digitsOf d.digits).length * 2 ^ 1076 := by
    rw [hnum]
    exact Nat.mul_le_mul_right _ hdigits.le
  have hlt := two_pow_lt_ten_pow (k := 1076) (n := 401) (by decide) (by decide)
  have := Nat.le_of_mul_le_mul_left ((hpow.trans hlow).trans hhigh) (Nat.pow_pos (by decide))
  omega

/-- A decimal whose value is that of the shortest one of a double is read back as the double. -/
theorem nearest?_of_value_eq (h : d.value = x.shortest.value) : d.nearest? x.negative = some x := by
  cases hx : x.isZero with
  | true =>
    have hshortest : x.shortest = ⟨0, 0⟩ := if_pos hx
    have hdigits : d.digits = 0 := by
      have hpow : (10 : ℚ) ^ d.exponent ≠ 0 := zpow_ne_zero _ (by norm_num)
      simpa [hshortest, Decimal.value, hpow] using h
    rw [Decimal.nearest?, if_pos hdigits]
    obtain ⟨negative, rank, hfinite⟩ := x
    simp only [isZero, beq_iff_eq] at hx
    subst hx
    rfl
  | false =>
    have hshortest := covers_iff.1 (covers_shortest hx)
    have hwithin : x.Within d.num d.den :=
      (within_congr d.den_pos x.shortest.den_pos (Decimal.num_mul_den h)).2 hshortest
    have hratio := ofRatio_of_within d.den_pos hx hwithin
    have hlow := le_exponent hx hwithin
    have hhigh := exponent_le hx hwithin
    rw [Decimal.nearest?, if_neg (digits_ne_zero hx hwithin), if_neg (by omega), if_neg (by omega)]
    unfold Decimal.num Decimal.den at hratio
    by_cases hsign : 0 ≤ d.exponent
    · simpa only [if_pos hsign] using hratio
    · simpa only [if_neg hsign] using hratio

end Double

end AdapterForge

import AdapterForge.Power

/-!
Finite binary64 numbers with exact arithmetic: a magnitude is a whole multiple of `2 ^ (-1074)`,
and every operation is its exact result rounded to nearest, ties to even.
-/
namespace AdapterForge

/-- The quotient rounded to the nearest whole number, a half to the even neighbour. -/
def roundHalfEven (num den : Nat) : Nat :=
  let q := num / den
  let r := num % den
  if 2 * r < den then q else if den < 2 * r then q + 1 else if q % 2 = 0 then q else q + 1

theorem roundHalfEven_le (num den : Nat) : roundHalfEven num den ≤ num / den + 1 := by
  unfold roundHalfEven
  simp only
  repeat' split
  all_goals omega

theorem le_roundHalfEven (num den : Nat) : num / den ≤ roundHalfEven num den := by
  unfold roundHalfEven
  simp only
  repeat' split
  all_goals omega

theorem roundHalfEven_mul (q : Nat) {den : Nat} (h : 0 < den) : roundHalfEven (q * den) den = q := by
  simp [roundHalfEven, Nat.mul_div_cancel q h, h]

/-- A finite binary64 number: a sign, and the place of its magnitude among all finite magnitudes
in ascending order, zero first. -/
structure Double where
  negative : Bool
  rank : Nat
  finite : rank < 2047 * 2 ^ 52
  deriving DecidableEq

namespace Double

def significand (x : Double) : Nat :=
  if x.rank < 2 ^ 52 then x.rank else 2 ^ 52 + x.rank % 2 ^ 52

/-- The power of two by which the significand is scaled, counted from `2 ^ (-1074)`. -/
def shift (x : Double) : Nat := x.rank / 2 ^ 52 - 1

def scaled (x : Double) : Nat := x.significand * 2 ^ x.shift

def zero (negative : Bool) : Double := ⟨negative, 0, by decide⟩

def isZero (x : Double) : Bool := x.rank == 0

def ofRatio (negative : Bool) (num den : Nat) : Option Double :=
  let n := num * 2 ^ 1074
  -- the lowest scale at which the significand has no more than 53 digits
  let shift := Nat.log2 (n / den) - 52
  -- a significand that is rounded up to `2 ^ 53` carries into the next scale
  let rank := shift * 2 ^ 52 + roundHalfEven n (den * 2 ^ shift)
  if h : rank < 2047 * 2 ^ 52 then some ⟨negative, rank, h⟩ else none

def times (x : Double) (num den : Nat) : Option Double :=
  ofRatio x.negative (x.scaled * num) (2 ^ 1074 * den)

end Double

end AdapterForge

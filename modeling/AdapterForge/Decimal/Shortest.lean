import AdapterForge.Decimal.Double

/-!
The shortest decimal of a double: the fewest digits that still round to it, and of those the
nearest to its exact value.
-/
namespace AdapterForge

/-- The whole number `digits` times ten to `exponent`. -/
structure Decimal where
  digits : Nat
  exponent : Int
  deriving DecidableEq, Repr

namespace Double

/-- Four times the significand at the lower end, the middle and the upper end of the numbers that
round to `x`, and the scale they share: `bound * 2 ^ shift / 2 ^ 1076`. Below a power of two the
gap to the next smaller double is half as wide. -/
def lowEnd (x : Double) : Nat :=
  let m := x.significand
  (if m = 2 ^ 52 ∧ 0 < x.shift then 4 * m - 1 else 4 * m - 2) * 2 ^ x.shift

def middle (x : Double) : Nat := 4 * x.significand * 2 ^ x.shift

def highEnd (x : Double) : Nat := (4 * x.significand + 2) * 2 ^ x.shift

/-- Whether `d` lies among the numbers that round to the magnitude of `x`; the ends belong to them
when the significand is even. -/
def covers (x : Double) (d : Decimal) : Bool :=
  let unit := if 0 ≤ d.exponent then 2 ^ 1076 * 10 ^ d.exponent.toNat else 2 ^ 1076
  let grow := if 0 ≤ d.exponent then 1 else 10 ^ (-d.exponent).toNat
  let c := d.digits * unit
  if x.significand % 2 = 0 then x.lowEnd * grow ≤ c ∧ c ≤ x.highEnd * grow
  else x.lowEnd * grow < c ∧ c < x.highEnd * grow

/-- A covered multiple of `10 ^ k`: the nearest one, or else one of the two around the magnitude. -/
def onGrid? (x : Double) (k : Int) : Option Decimal :=
  let unit := if 0 ≤ k then 2 ^ 1076 * 10 ^ k.toNat else 2 ^ 1076
  let num := x.middle * if 0 ≤ k then 1 else 10 ^ (-k).toNat
  [⟨roundHalfEven num unit, k⟩, ⟨num / unit, k⟩, ⟨num / unit + 1, k⟩].find? x.covers

theorem covers_of_onGrid? {x : Double} {k : Int} {d : Decimal} (h : x.onGrid? k = some d) :
    x.covers d = true :=
  List.find?_some h

def exactDecimal (x : Double) : Decimal := ⟨x.scaled * 5 ^ 1074, -1074⟩

/-- The coarsest of `steps` grids, from `10 ^ k` downwards, on which a covered number lies. -/
def coarsest (x : Double) (k : Int) : Nat → Decimal
  | 0 => x.exactDecimal
  | steps + 1 => (x.onGrid? k).getD (coarsest x (k - 1) steps)

/-- A power of ten that is at most ten times too large for the magnitude. -/
def topExponent (x : Double) : Int :=
  ((Nat.log2 x.scaled : Int) - 1074 + 1) * 30103 / 100000 + 1

def shortest (x : Double) : Decimal :=
  -- 17 digits are enough for any double, and the first grid may be a few digits too coarse
  if x.isZero then ⟨0, 0⟩ else x.coarsest x.topExponent 22

end Double

end AdapterForge

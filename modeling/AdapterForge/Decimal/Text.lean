import AdapterForge.Decimal.Shortest

/-!
Decimal text: how a double is written, and which double a written decimal stands for.
-/
namespace AdapterForge

def digitsOf (n : Nat) : List Char := Nat.toDigits 10 n

def numberOf (ds : List Char) : Nat := ds.foldl (fun n c => 10 * n + (c.toNat - '0'.toNat)) 0

def intText (i : Int) : List Char :=
  if i < 0 then '-' :: digitsOf i.natAbs else digitsOf i.natAbs

namespace Decimal

def trimmed (d : Decimal) : List Char × Int :=
  let ds := digitsOf d.digits
  let zeros := (ds.reverse.takeWhile (· == '0')).length
  if d.digits = 0 then (['0'], 0) else (ds.take (ds.length - zeros), d.exponent + zeros)

/-- Positional while the first digit stands between `10 ^ (-5)` and `10 ^ 15`, scientific with a
signed exponent outside; a positional number always has a fraction. -/
def text (d : Decimal) : List Char :=
  let (ds, e) := d.trimmed
  let point : Int := ds.length + e
  if -5 ≤ point - 1 ∧ point - 1 < 16 then
    if point ≤ 0 then
      '0' :: '.' :: (List.replicate (-point).toNat '0' ++ ds)
    else if 0 ≤ e then
      ds ++ List.replicate e.toNat '0' ++ ['.', '0']
    else
      ds.take point.toNat ++ '.' :: ds.drop point.toNat
  else
    let mantissa := match ds with
      | [] => ['0']
      | [c] => [c]
      | c :: r => c :: '.' :: r
    mantissa ++ 'e' :: ((if 0 ≤ point - 1 then ['+'] else ['-']) ++ digitsOf (point - 1).natAbs)

/-- The nearest double, or nothing when that is beyond the largest double. Exponents far outside
the range are settled without computing the power. -/
def nearest? (negative : Bool) (d : Decimal) : Option Double :=
  if d.digits = 0 then some (.zero negative)
  else if 400 < d.exponent then none
  else if d.exponent + (digitsOf d.digits).length < -400 then some (.zero negative)
  else if 0 ≤ d.exponent then Double.ofRatio negative (d.digits * 10 ^ d.exponent.toNat) 1
  else Double.ofRatio negative d.digits (10 ^ (-d.exponent).toNat)

end Decimal

namespace Double

def text (x : Double) : List Char :=
  if x.negative then '-' :: x.shortest.text else x.shortest.text

def powerOfTen? (n : Nat) : Option Double := if n ≤ 308 then Double.ofRatio false (10 ^ n) 1 else none

def mul? (x y : Double) : Option Double := x.times y.scaled (2 ^ 1074)

def div? (x y : Double) : Option Double := x.times (2 ^ 1074) y.scaled

/-- Divide by `10 ^ n`, in steps of at most `10 ^ 308`. -/
def shrink? (x : Double) (n : Nat) : Option Double :=
  if h : n ≤ 308 then (powerOfTen? n).bind x.div?
  else if x.isZero then some x
  else do
    let y ← (powerOfTen? 308).bind x.div?
    y.shrink? (n - 308)
termination_by n
decreasing_by omega

/-- Scale by a power of ten that is itself rounded to a double first: the number is rounded once
as a whole number, once as a power and once as their product or quotient. -/
def scaleByTen? (x : Double) (e : Int) : Option Double :=
  if 0 ≤ e then
    match powerOfTen? e.toNat with
    | some p => x.mul? p
    | none => if x.isZero then some x else none
  else x.shrink? (-e).toNat

end Double

end AdapterForge

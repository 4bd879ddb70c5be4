import AdapterForge.Json.Written
import AdapterForge.Decimal.Text

/-!
The values that plain scalars stand for: null, booleans, whole numbers, fractions, and text for all
the rest.
-/
namespace AdapterForge.Yaml

def isNullWord (s : String) : Bool := ["null", "Null", "NULL", "~"].contains s

def boolWord? (s : String) : Option Bool :=
  if ["true", "True", "TRUE"].contains s then some true
  else if ["false", "False", "FALSE"].contains s then some false
  else none

def withoutSign : List Char → List Char
  | '+' :: r | '-' :: r => r
  | s => s

/-- A zero in front of further digits: such digits are a text and no number. -/
def isPaddedDigits (s : List Char) : Bool :=
  let ds := withoutSign s
  1 < ds.length && ds.head? == some '0' && ds.tail.all Char.isDigit

def digitOf? (base : Nat) (c : Char) : Option Nat :=
  let v? :=
    if c.isDigit then some (c.toNat - 48)
    else if 'a' ≤ c ∧ c ≤ 'z' then some (c.toNat - 87)
    else if 'A' ≤ c ∧ c ≤ 'Z' then some (c.toNat - 55)
    else none
  v?.filter (· < base)

def digits? (base : Nat) (ds : List Char) : Option Nat :=
  if ds.isEmpty then none else ds.foldlM (fun n c => (digitOf? base c).map (base * n + ·)) 0

def basedDigits? : List Char → Option Nat
  | '0' :: 'x' :: r => digits? 16 r
  | '0' :: 'o' :: r => digits? 8 r
  | '0' :: 'b' :: r => digits? 2 r
  | _ => none

/-- A whole number without a minus sign, below `2 ^ 128`. -/
def natural? (s : List Char) : Option Nat :=
  let ds :=
    match s with
    | '+' :: r => r
    | s => s
  let n? :=
    match basedDigits? ds with
    | some n => some n
    | none => if isPaddedDigits s then none else digits? 10 ds
  n?.filter (· < 2 ^ 128)

/-- A whole number with a minus sign, at least `-2 ^ 127`. -/
def negative? : List Char → Option Int
  | '-' :: ds =>
    let n? :=
      match basedDigits? ds with
      | some n => some n
      | none => if isPaddedDigits ds then none else digits? 10 ds
    (n?.filter (· ≤ 2 ^ 127)).map fun n => -(n : Int)
  | _ => none

def int? (s : List Char) : Option Int :=
  match natural? s with
  | some n => some n
  | none => negative? s

def decimal? (s : List Char) : Option Decimal := do
  let whole := s.takeWhile Char.isDigit
  let (fraction, r) :=
    match s.dropWhile Char.isDigit with
    | '.' :: r => (r.takeWhile Char.isDigit, r.dropWhile Char.isDigit)
    | r => ([], r)
  if whole.isEmpty ∧ fraction.isEmpty then none
  let exponent : Int ←
    match r with
    | [] => some 0
    | c :: r =>
      if c = 'e' ∨ c = 'E' then
        (digits? 10 (withoutSign r)).map fun n => if r.head? = some '-' then -(n : Int) else n
      else none
  return ⟨numberOf (whole ++ fraction), exponent - fraction.length⟩

inductive FloatValue where
  | finite (value : Double)
  | notFinite

def float? (s : List Char) : Option FloatValue :=
  let unsigned := match s with
    | '+' :: r => r
    | s => s
  if [".inf", ".Inf", ".INF"].contains (String.ofList unsigned) ∨
      ["-.inf", "-.Inf", "-.INF", ".nan", ".NaN", ".NAN"].contains (String.ofList s) then
    some .notFinite
  else
    let (negative, ds) : Bool × List Char := match s with
      | '-' :: r => (true, r)
      | _ => (false, unsigned)
    ((decimal? ds).bind (·.nearest? negative)).map .finite

/-- A whole number as a value: it must fit 64 bits. -/
def intValue? (i : Int) : Option Written :=
  if h : -2 ^ 63 ≤ i ∧ i < 2 ^ 64 then some (.number (.int i h)) else none

/-- Numbers that are not finite have no JSON form and become null. -/
def FloatValue.written : FloatValue → Written
  | .finite x => .number (.double x)
  | .notFinite => .null

/-- The value of a plain scalar. Only a whole number out of range has none. -/
def plainValue? (text : String) : Option Written :=
  let s := text.toList
  if text = "" ∨ isNullWord text then some .null
  else
    match boolWord? text with
    | some b => some (.bool b)
    | none =>
      match int? s with
      | some i => intValue? i
      | none =>
        match if isPaddedDigits s then none else float? s with
        | some x => some x.written
        | none => some (.string text)

end AdapterForge.Yaml

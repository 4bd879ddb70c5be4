import AdapterForge.Json.Written
import AdapterForge.Decimal.Text

/-!
JSON text. `JsonText.parse?` reads the grammar alone; what a reader of values refuses on top of it
(a number out of range, half a surrogate pair, deep nesting) shows only when a part is used as a
value (`JsonText.written?`), so a reader may pass over a part without looking into it.
-/
namespace AdapterForge

/-- A parsed JSON text. A number out of range and a string that is no text are `none`. -/
inductive JsonText where
  | null
  | bool (value : Bool)
  | number (value : Option Number)
  | string (value : Option String)
  | array (items : List JsonText)
  | object (members : List (Option String × JsonText))

namespace JsonText

def isBlank (c : Char) : Bool := c = ' ' || c = '\n' || c = '\t' || c = '\r'

def skipBlank (s : List Char) : List Char := s.dropWhile isBlank

def hexValue? (c : Char) : Option Nat :=
  if c.isDigit then some (c.toNat - 48)
  else if 'a' ≤ c ∧ c ≤ 'f' then some (c.toNat - 87)
  else if 'A' ≤ c ∧ c ≤ 'F' then some (c.toNat - 55)
  else none

def hex4? (a b c d : Char) : Option Nat := do
  return (((← hexValue? a) * 16 + (← hexValue? b)) * 16 + (← hexValue? c)) * 16 + (← hexValue? d)

def isHighSurrogate (n : Nat) : Bool := 0xD800 ≤ n && n < 0xDC00

def isLowSurrogate (n : Nat) : Bool := 0xDC00 ≤ n && n < 0xE000

def letterEscape? (c : Char) : Option Char :=
  match c with
  | '"' => some '"'
  | '\\' => some '\\'
  | '/' => some '/'
  | 'b' => some '\x08'
  | 'f' => some '\x0c'
  | 'n' => some '\n'
  | 'r' => some '\r'
  | 't' => some '\t'
  | _ => none

/-- The rest of a string after its opening quote: its characters, `none` when half a surrogate pair
stands alone, and what follows the closing quote. -/
def stringBody : List Char → Option (Option (List Char) × List Char)
  | [] => none
  | '"' :: r => some (some [], r)
  | '\\' :: 'u' :: a :: b :: c :: d :: '\\' :: 'u' :: e :: f :: g :: h :: r =>
    match hex4? a b c d, hex4? e f g h with
    | some x, some y =>
      if isHighSurrogate x && isLowSurrogate y then
        (stringBody r).map fun (t, rest) =>
          (t.map (Char.ofNat (0x10000 + (x - 0xD800) * 0x400 + (y - 0xDC00)) :: ·), rest)
      else if isHighSurrogate x || isLowSurrogate x then
        (stringBody ('\\' :: 'u' :: e :: f :: g :: h :: r)).map fun (_, rest) => (none, rest)
      else
        (stringBody ('\\' :: 'u' :: e :: f :: g :: h :: r)).map fun (t, rest) =>
          (t.map (Char.ofNat x :: ·), rest)
    | _, _ => none
  | '\\' :: 'u' :: a :: b :: c :: d :: r =>
    match hex4? a b c d with
    | some x =>
      (stringBody r).map fun (t, rest) =>
        if isHighSurrogate x || isLowSurrogate x then (none, rest)
        else (t.map (Char.ofNat x :: ·), rest)
    | none => none
  | '\\' :: c :: r =>
    match letterEscape? c with
    | some x => (stringBody r).map fun (t, rest) => (t.map (x :: ·), rest)
    | none => none
  | c :: r =>
    if c.toNat < 32 then none
    -- the cases before leave a backslash at the end of the text
    else if c = '\\' then none
    else (stringBody r).map fun (t, rest) => (t.map (c :: ·), rest)

/-- Take digits onto `n` as long as the number stays below `2 ^ 64`; the others are left. -/
def takeDigits (n : Nat) : List Char → Nat × List Char
  | [] => (n, [])
  | c :: r =>
    if 10 * n + (c.toNat - 48) < 2 ^ 64 then takeDigits (10 * n + (c.toNat - 48)) r else (n, c :: r)

/-- The double for written digits. The digits that fit a 64-bit number count, whole digits beyond
them only by their place; a power of ten out of range is an error only for a number above zero. -/
def doubleOf? (negative : Bool) (whole fraction : List Char) (exponent : Int) : Option Double :=
  let (n, left) := takeDigits 0 whole
  let (m, unused) := takeDigits n fraction
  let place : Int := left.length - (fraction.length - unused.length : Nat)
  if 2 ^ 31 ≤ exponent.natAbs then
    if m ≠ 0 ∧ 0 ≤ exponent then none else some (.zero negative)
  else (Double.ofRatio negative m 1).bind (·.scaleByTen? (place + exponent))

/-- The number for written digits: whole when it has neither fraction nor exponent and fits, except
that minus zero is a double. -/
def numberOf? (negative : Bool) (whole : List Char) (fraction : Option (List Char))
    (exponent : Option Int) : Option Number :=
  match fraction, exponent with
  | none, none =>
    let n := AdapterForge.numberOf whole
    let i : Int := if negative then -n else n
    if h : (-2 ^ 63 ≤ i ∧ i < 2 ^ 64) ∧ ¬ (negative = true ∧ n = 0) then some (.int i h.1)
    else (doubleOf? negative whole [] 0).map .double
  | _, _ => (doubleOf? negative whole (fraction.getD []) (exponent.getD 0)).map .double

def exponentPart? (s : List Char) : Option (Option Int × List Char) :=
  let finish (negative : Bool) (r : List Char) : Option (Option Int × List Char) :=
    let ds := r.takeWhile Char.isDigit
    if ds = [] then none
    else
      let n : Int := AdapterForge.numberOf ds
      some (some (if negative then -n else n), r.dropWhile Char.isDigit)
  match s with
  | 'e' :: '+' :: r | 'E' :: '+' :: r => finish false r
  | 'e' :: '-' :: r | 'E' :: '-' :: r => finish true r
  | 'e' :: r | 'E' :: r => finish false r
  | _ => some (none, s)

def fractionPart? (s : List Char) : Option (Option (List Char) × List Char) :=
  match s with
  | '.' :: r =>
    let ds := r.takeWhile Char.isDigit
    if ds = [] then none else some (some ds, r.dropWhile Char.isDigit)
  | _ => some (none, s)

def unsigned? (negative : Bool) (s : List Char) : Option (Option Number × List Char) := do
  let whole := s.takeWhile Char.isDigit
  if whole = [] ∨ (whole.head? = some '0' ∧ whole.length ≠ 1) then none
  let (fraction, r) ← fractionPart? (s.dropWhile Char.isDigit)
  let (exponent, r) ← exponentPart? r
  return (numberOf? negative whole fraction exponent, r)

def number? : List Char → Option (Option Number × List Char)
  | '-' :: r => unsigned? true r
  | s => unsigned? false s

mutual

def value? : Nat → List Char → Option (JsonText × List Char)
  | 0, _ => none
  | fuel + 1, s =>
    match skipBlank s with
    | 'n' :: 'u' :: 'l' :: 'l' :: r => some (.null, r)
    | 't' :: 'r' :: 'u' :: 'e' :: r => some (.bool true, r)
    | 'f' :: 'a' :: 'l' :: 's' :: 'e' :: r => some (.bool false, r)
    | '"' :: r => (stringBody r).map fun (t, rest) => (.string (t.map String.ofList), rest)
    | '[' :: r =>
      match skipBlank r with
      | ']' :: r => some (.array [], r)
      | r => (items? fuel r).map fun (l, rest) => (.array l, rest)
    | '\x7b' :: r =>
      match skipBlank r with
      | '\x7d' :: r => some (.object [], r)
      | r => (members? fuel r).map fun (l, rest) => (.object l, rest)
    | r => (number? r).map fun (n, rest) => (.number n, rest)

def items? : Nat → List Char → Option (List JsonText × List Char)
  | 0, _ => none
  | fuel + 1, s => do
    let (v, r) ← value? fuel s
    match skipBlank r with
    | ',' :: r =>
      let (l, r) ← items? fuel r
      return (v :: l, r)
    | ']' :: r => return ([v], r)
    | _ => none

def members? : Nat → List Char → Option (List (Option String × JsonText) × List Char)
  | 0, _ => none
  | fuel + 1, s => do
    match skipBlank s with
    | '"' :: r =>
      let (k, r) ← stringBody r
      match skipBlank r with
      | ':' :: r =>
        let (v, r) ← value? fuel r
        match skipBlank r with
        | ',' :: r =>
          let (l, r) ← members? fuel r
          return ((k.map String.ofList, v) :: l, r)
        | '\x7d' :: r => return ([(k.map String.ofList, v)], r)
        | _ => none
      | _ => none
    | _ => none

end

def parse? (text : String) : Option JsonText := do
  let (v, rest) ← value? (text.length + 1) text.toList
  if skipBlank rest = [] then return v else none

mutual

/-- The value with at most `room` levels of arrays and objects. -/
def written? (room : Nat) : JsonText → Option Written
  | .null => some .null
  | .bool b => some (.bool b)
  | .number n => n.map .number
  | .string s => s.map .string
  | .array items => if room = 0 then none else (writtenList? (room - 1) items).map .array
  | .object members =>
    if room = 0 then none else (writtenMembers? (room - 1) members).map .ofMembers

def writtenList? (room : Nat) : List JsonText → Option (List Written)
  | [] => some []
  | v :: r => do return (← v.written? room) :: (← writtenList? room r)

def writtenMembers? (room : Nat) : List (Option String × JsonText) → Option (List (String × Written))
  | [] => some []
  | (k, v) :: r => do return (← k, ← v.written? room) :: (← writtenMembers? room r)

end

end JsonText

def Written.ofText? (room : Nat) (text : String) : Option Written :=
  (JsonText.parse? text).bind (·.written? room)

end AdapterForge

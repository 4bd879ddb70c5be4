/-!
Positions in a YAML text, and its classes of characters.
-/
namespace AdapterForge.Yaml

def isAllowed (c : Char) : Bool :=
  let n := c.toNat
  n == 0x09 || n == 0x0A || n == 0x0D || (0x20 ≤ n && n ≤ 0x7E) || n == 0x85 ||
    (0xA0 ≤ n && n ≤ 0xD7FF) || (0xE000 ≤ n && n ≤ 0xFFFD) || 0x10000 ≤ n

def isBlank (c : Char) : Bool := c = ' ' || c = '\t'

def isBreak (c : Char) : Bool :=
  c = '\r' || c = '\n' || c = '\x85' || c = '\u2028' || c = '\u2029'

def isGap (c : Char) : Bool := isBlank c || isBreak c

def isWord (c : Char) : Bool := c.isAlphanum || c = '_' || c = '-'

def startsGap : List Char → Bool
  | [] => true
  | c :: _ => isGap c

def octetLength (s : List Char) : Nat := s.foldl (· + ·.utf8Size) 0

/-- What is left of a text, with the place reached in it: the octets read, the line, and the
characters read of the line. -/
structure Reader where
  rest : List Char
  index : Nat
  line : Nat
  column : Nat

namespace Reader

def start (text : List Char) : Reader := ⟨text, 0, 0, 0⟩

def head? (r : Reader) : Option Char := r.rest.head?

def looksAt (r : Reader) (c : Char) : Bool := r.head? == some c

def atGap (r : Reader) : Bool := startsGap r.rest

def atBreak (r : Reader) : Bool := r.rest.head?.any isBreak

def atEnd (r : Reader) : Bool := r.rest.isEmpty

def skip (r : Reader) (n : Nat) : Reader :=
  ⟨r.rest.drop n, r.index + octetLength (r.rest.take n), r.line, r.column + n⟩

def run (r : Reader) (p : Char → Bool) : List Char × Reader :=
  let t := r.rest.takeWhile p
  (t, r.skip t.length)

/-- Pass over a byte order mark that leads a line. -/
def skipMark (r : Reader) : Reader :=
  if r.column = 0 ∧ r.looksAt '\ufeff' then r.skip 1 else r

def skipBreak (r : Reader) : Reader :=
  match r.rest with
  | '\r' :: '\n' :: t => ⟨t, r.index + 2, r.line + 1, 0⟩
  | c :: t => if isBreak c then ⟨t, r.index + c.utf8Size, r.line + 1, 0⟩ else r
  | [] => r

/-- A line break as it counts in a scalar: the separators of lines and paragraphs stay, every other
break is a line feed. -/
def breakText (r : Reader) : List Char :=
  match r.rest with
  | c :: _ =>
    if c = '\u2028' ∨ c = '\u2029' then [c] else if isBreak c then ['\n'] else []
  | [] => []

def atDocumentMarker (r : Reader) : Bool :=
  r.column == 0 &&
    match r.rest with
    | '-' :: '-' :: '-' :: t => startsGap t
    | '.' :: '.' :: '.' :: t => startsGap t
    | _ => false

def skipComment (r : Reader) : Reader :=
  if r.looksAt '#' then (r.run (!isBreak ·)).2 else r

end Reader

end AdapterForge.Yaml

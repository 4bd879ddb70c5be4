/-!
Dotted field paths: non-empty lists of names. `FieldPath.parse` accepts exactly the texts whose
parts between dots are names, and `FieldPath.text` writes them back.
-/
namespace AdapterForge

inductive PathFault where
  | empty
  | emptySegment
  | notAName (segment : String)
  deriving DecidableEq

def PathFault.message : PathFault → String
  | .empty => "path is empty"
  | .emptySegment => "path contains an empty segment"
  | .notAName s => "'" ++ s ++ "' is not a valid field name"

/-- The names on the way to a field, outermost first. -/
structure FieldPath where
  first : String
  rest : List String
  deriving DecidableEq

namespace FieldPath

def isNameStart (c : Char) : Bool := c.isAlpha || c == '_' || c == '$'

def isNameChar (c : Char) : Bool := c.isAlphanum || c == '_' || c == '$'

/-- A letter, an underscore or a dollar sign, followed by any of these and digits; ASCII only. -/
def isName : List Char → Bool
  | [] => false
  | c :: r => isNameStart c && r.all isNameChar

/-- The parts between dots; there is always a first one. -/
def splitDots : List Char → List Char × List (List Char)
  | [] => ([], [])
  | c :: r =>
    let (w, ws) := splitDots r
    if c = '.' then ([], w :: ws) else (c :: w, ws)

def faultOf : List (List Char) → Option PathFault
  | [] => none
  | w :: ws =>
    if w = [] then some .emptySegment
    else if isName w then faultOf ws
    else some (.notAName (String.ofList w))

def parse (raw : String) : Except PathFault FieldPath :=
  if raw = "" then .error .empty
  else
    let (w, ws) := splitDots raw.toList
    match faultOf (w :: ws) with
    | some f => .error f
    | none => .ok ⟨String.ofList w, ws.map String.ofList⟩

def segments (p : FieldPath) : List String := p.first :: p.rest

def depth (p : FieldPath) : Nat := p.rest.length + 1

def segment? (p : FieldPath) (i : Nat) : Option String := p.segments[i]?

def leaf (p : FieldPath) : String := p.rest.getLastD p.first

/-- The first `n` names, at least one. -/
def upTo (p : FieldPath) (n : Nat) : FieldPath := ⟨p.first, p.rest.take (n - 1)⟩

def parent? (p : FieldPath) : Option FieldPath :=
  if p.rest = [] then none else some ⟨p.first, p.rest.dropLast⟩

def isAbove (p q : FieldPath) : Bool := p.segments.isPrefixOf q.segments

def text (p : FieldPath) : String := p.rest.foldl (fun t s => t ++ "." ++ s) p.first

theorem segments_ne_nil (p : FieldPath) : p.segments ≠ [] := nofun

@[simp] theorem length_segments (p : FieldPath) : p.segments.length = p.depth := rfl

theorem depth_pos (p : FieldPath) : 0 < p.depth := Nat.succ_pos _

theorem segments_inj {p q : FieldPath} : p.segments = q.segments ↔ p = q := by
  constructor
  · intro h
    cases p; cases q
    injection h with h₁ h₂
    simp_all
  · rintro rfl; rfl

theorem segments_upTo (p : FieldPath) {n : Nat} (h : 0 < n) :
    (p.upTo n).segments = p.segments.take n := by
  cases n with
  | zero => exact absurd h (Nat.lt_irrefl 0)
  | succ n => simp [upTo, segments]

theorem faultOf_eq_none_iff {ws : List (List Char)} :
    faultOf ws = none ↔ ∀ w ∈ ws, isName w = true := by
  induction ws with
  | nil => simp [faultOf]
  | cons w ws ih =>
    unfold faultOf
    by_cases hw : w = []
    · subst hw; simp [isName]
    · by_cases hn : isName w = true <;> simp [hw, hn, ih]

end FieldPath

end AdapterForge

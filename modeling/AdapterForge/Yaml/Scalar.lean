import AdapterForge.Yaml.Reader
import AdapterForge.Json.Text

/-!
The texts of YAML scalars: plain, quoted and block scalars, with their rules for folding lines.
-/
namespace AdapterForge.Yaml

inductive Style where
  | plain
  | literal
  | quoted
  deriving DecidableEq

/-- White space inside a scalar: blanks within a line, or a first line break and the later ones. -/
structure Gap where
  blanks : List Char
  broken : Bool
  first : List Char
  more : List Char

namespace Gap

def none : Gap := ⟨[], false, [], []⟩

/-- What the white space contributes: a single line feed becomes a space, further ones stay. -/
def text (g : Gap) : List Char :=
  if g.broken then
    if g.first.head? = some '\n' then (if g.more.isEmpty then [' '] else g.more)
    else g.first ++ g.more
  else g.blanks

/-- Read white space. A tab in front of column `indent` of a later line is an error. -/
def read? (indent : Int) : Nat → Gap → Reader → Option (Gap × Reader)
  | 0, g, r => some (g, r)
  | fuel + 1, g, r =>
    match r.rest with
    | [] => some (g, r)
    | c :: _ =>
      if isBlank c then
        if g.broken then
          if (r.column : Int) < indent ∧ c = '\t' then .none else read? indent fuel g (r.skip 1)
        else read? indent fuel { g with blanks := g.blanks ++ [c] } (r.skip 1)
      else if isBreak c then
        if g.broken then read? indent fuel { g with more := g.more ++ r.breakText } r.skipBreak
        else read? indent fuel ⟨[], true, r.breakText, g.more⟩ r.skipBreak
      else some (g, r)

end Gap

/-- A run of a plain scalar without white space, and what follows it; nothing when a colon stands
where it may not. -/
def plainRun (inFlow : Bool) : List Char → Option (List Char × List Char)
  | [] => some ([], [])
  | c :: r =>
    if isGap c then some ([], c :: r)
    else if inFlow && c = ':' && r.head?.any (",?[]\x7b\x7d".toList.contains ·) then none
    else if (c = ':' && startsGap r) || (inFlow && ",[]\x7b\x7d".toList.contains c) then
      some ([], c :: r)
    else (plainRun inFlow r).map fun (t, rest) => (c :: t, rest)

/-- A plain scalar: its text, the reader behind the white space that follows it, and whether that
white space holds a line break. -/
def plain? (inFlow : Bool) (indent : Int) :
    Nat → (text : List Char) → Gap → Reader → Option (List Char × Bool × Reader)
  | 0, text, g, r => some (text, g.broken, r)
  | fuel + 1, text, g, r =>
    -- behind white space a number sign starts a comment
    if r.atDocumentMarker || r.looksAt '#' then some (text, g.broken, r)
    else
      match plainRun inFlow r.rest with
      | none => none
      | some (run, _) =>
        let text := if run.isEmpty then text else text ++ g.text ++ run
        let g := if run.isEmpty then g else .none
        let r := r.skip run.length
        if r.rest.head?.any isGap then
          match Gap.read? indent r.rest.length g r with
          | none => none
          | some (g, r) =>
            if !inFlow && (r.column : Int) < indent then some (text, g.broken, r)
            else plain? inFlow indent fuel text g r
        else some (text, g.broken, r)

def letterEscape? (c : Char) : Option Char :=
  match c with
  | '0' => some '\x00'
  | 'a' => some '\x07'
  | 'b' => some '\x08'
  | 't' | '\t' => some '\t'
  | 'n' => some '\n'
  | 'v' => some '\x0b'
  | 'f' => some '\x0c'
  | 'r' => some '\r'
  | 'e' => some '\x1b'
  | ' ' => some ' '
  | '"' => some '"'
  | '/' => some '/'
  | '\\' => some '\\'
  | 'N' => some '\x85'
  | '_' => some '\u00a0'
  | 'L' => some '\u2028'
  | 'P' => some '\u2029'
  | _ => none

def hexLength? (c : Char) : Option Nat :=
  match c with
  | 'x' => some 2
  | 'u' => some 4
  | 'U' => some 8
  | _ => none

def hexNumber? (ds : List Char) : Option Nat :=
  ds.foldlM (fun n c => (JsonText.hexValue? c).map (16 * n + ·)) 0

/-- The character of an escape, and how many characters it takes behind the backslash. -/
def escape? : List Char → Option (Char × Nat)
  | [] => none
  | c :: r =>
    match letterEscape? c, hexLength? c with
    | some x, _ => some (x, 1)
    | none, some n => do
      let ds := r.take n
      if ds.length ≠ n then none
      let v ← hexNumber? ds
      if v < 0xD800 ∨ (0xDFFF < v ∧ v ≤ 0x10FFFF) then return (Char.ofNat v, n + 1) else none
    | none, none => none

inductive RunEnd where
  | quote
  | gap
  | escapedBreak
  | stop

def quotedRun? (single : Bool) : Nat → Reader → Option (List Char × RunEnd × Reader)
  | 0, r => some ([], .stop, r)
  | fuel + 1, r =>
    match r.rest with
    | [] => some ([], .stop, r)
    | c :: t =>
      if isGap c then some ([], .gap, r)
      else if single && c = '\'' then
        if t.head? = some '\'' then
          (quotedRun? single fuel (r.skip 2)).map fun (s, e, r) => ('\'' :: s, e, r)
        else some ([], .quote, r)
      else if !single && c = '"' then some ([], .quote, r)
      else if !single && c = '\\' then
        if t.head?.any isBreak then some ([], .escapedBreak, (r.skip 1).skipBreak)
        else
          match escape? t with
          | some (x, n) =>
            (quotedRun? single fuel (r.skip (n + 1))).map fun (s, e, r) => (x :: s, e, r)
          | none => none
      else (quotedRun? single fuel (r.skip 1)).map fun (s, e, r) => (c :: s, e, r)

/-- A quoted scalar behind its opening quote, and the reader behind its closing one. -/
def quoted? (single : Bool) : Nat → (text : List Char) → Reader → Option (List Char × Reader)
  | 0, _, _ => none
  | fuel + 1, text, r =>
    if r.atDocumentMarker then none
    else
      match quotedRun? single r.rest.length r with
      | none => none
      | some (_, .stop, _) => none
      | some (run, .quote, r) => some (text ++ run, r.skip 1)
      | some (run, .gap, r) =>
        match Gap.read? 0 r.rest.length .none r with
        | some (g, r) => quoted? single fuel (text ++ run ++ g.text) r
        | none => none
      | some (run, .escapedBreak, r) =>
        -- the escaped break itself contributes nothing, the later ones stay
        match Gap.read? 0 r.rest.length ⟨[], true, [], []⟩ r with
        | some (g, r) => quoted? single fuel (text ++ run ++ g.text) r
        | none => none

inductive Chomp where
  | strip
  | clip
  | keep
  deriving DecidableEq

/-- The spaces and empty lines in front of a line of a block scalar: the line breaks, the widest
indentation, and the reader. An `indent` of zero is not known yet. -/
def blockBreaks? (indent : Nat) :
    Nat → (breaks : List Char) → (widest : Nat) → Reader → Option (List Char × Nat × Reader)
  | 0, breaks, widest, r => some (breaks, widest, r)
  | fuel + 1, breaks, widest, r =>
    let spaces := (r.rest.takeWhile (· == ' ')).length
    let r := r.skip (if indent = 0 then spaces else min spaces (indent - r.column))
    let widest := max widest r.column
    if (indent = 0 ∨ r.column < indent) ∧ r.looksAt '\t' then none
    else if r.atBreak then blockBreaks? indent fuel (breaks ++ r.breakText) widest r.skipBreak
    else some (breaks, widest, r)

/-- The lines of a block scalar from a line at its indentation on. `lead` is the break that ended
the line before and `trail` the empty lines after it; a folded break is a space unless one of the
lines around it starts with a blank. -/
def blockLines? (folded : Bool) (indent : Nat) :
    Nat → (text lead trail : List Char) → (wasBlank : Bool) → Reader →
      Option (List Char × List Char × List Char × Reader)
  | 0, text, lead, trail, _, r => some (text, lead, trail, r)
  | fuel + 1, text, lead, trail, wasBlank, r =>
    if r.column = indent ∧ !r.atEnd then
      let blank := r.rest.head?.any isBlank
      let joint :=
        if folded && lead.head? == some '\n' && !wasBlank && !blank then
          if trail.isEmpty then [' '] else []
        else lead
      let (line, r) := r.run (!isBreak ·)
      let lead := r.breakText
      match blockBreaks? indent r.rest.length [] 0 r.skipBreak with
      | some (breaks, _, r) =>
        blockLines? folded indent fuel (text ++ joint ++ trail ++ line) lead breaks blank r
      | none => none
    else some (text, lead, trail, r)

/-- The signs behind the indicator of a block scalar: how it ends, and how much its lines are
indented when that is given. -/
def blockHeader? (r : Reader) : Option (Chomp × Nat × Reader) :=
  let chomp? (r : Reader) : Option (Chomp × Reader) :=
    if r.looksAt '+' then some (.keep, r.skip 1)
    else if r.looksAt '-' then some (.strip, r.skip 1)
    else none
  let digit? (r : Reader) : Option Char := r.head?.filter Char.isDigit
  match chomp? r with
  | some (c, r) =>
    match digit? r with
    | some d => if d = '0' then none else some (c, d.toNat - 48, r.skip 1)
    | none => some (c, 0, r)
  | none =>
    match digit? r with
    | some d =>
      if d = '0' then none
      else
        match chomp? (r.skip 1) with
        | some (c, r) => some (c, d.toNat - 48, r)
        | none => some (.clip, d.toNat - 48, r.skip 1)
    | none => some (.clip, 0, r)

/-- A block scalar behind its indicator, inside a block indented by `parent` columns. -/
def block? (folded : Bool) (parent : Int) (r : Reader) : Option (List Char × Reader) := do
  let (chomp, width, r) ← blockHeader? r
  let r := (r.run isBlank).2.skipComment
  if !(r.atBreak || r.atEnd) then none
  let r := r.skipBreak
  let given : Nat := if width = 0 then 0 else if 0 ≤ parent then parent.toNat + width else width
  let (breaks, widest, r) ← blockBreaks? given r.rest.length [] 0 r
  -- without a width in the header, the widest of the lines up to the first text decides
  let indent := if given = 0 then max (max widest (parent + 1).toNat) 1 else given
  let (text, lead, trail, r) ←
    blockLines? folded indent (r.rest.length + 1) [] [] breaks false r
  return (text ++ (if chomp = .strip then [] else lead) ++ (if chomp = .keep then trail else []), r)

end AdapterForge.Yaml

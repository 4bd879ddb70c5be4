import AdapterForge.Yaml.Scalar
import AdapterForge.Yaml.Tag

/-!
The tokens of a YAML text. Block structure is shown by tokens that open and close it, found from
the columns of the text; a key token is put in front of a node once the colon behind it is seen.
-/
namespace AdapterForge.Yaml

inductive Token where
  | streamEnd
  | documentStart
  | documentEnd
  | version (major minor : Nat)
  | handle (name : String) (lead : Tag)
  | blockSequence
  | blockMapping
  | blockEnd
  | flowSequence
  | flowSequenceEnd
  | flowMapping
  | flowMappingEnd
  | blockEntry
  | flowEntry
  | key
  | value
  | alias (name : String)
  | anchor (name : String)
  | tag (handle : String) (suffix : Tag)
  | scalar (text : String) (style : Style)
  deriving DecidableEq

/-- A place that may turn out to be the start of a key. -/
structure KeyPlace where
  required : Bool
  token : Nat
  index : Nat
  line : Nat
  column : Nat

/-- What has been read so far: the tokens, the nesting of flow collections, the columns of the
open blocks, and the possible key of every flow level. -/
structure Scan where
  reader : Reader
  tokens : List Token
  flow : Nat
  indent : Int
  indents : List Int
  keyAllowed : Bool
  keys : List (Option KeyPlace)

namespace Scan

def start (text : List Char) : Scan := ⟨.start text, [], 0, -1, [], true, [none]⟩

def emit (s : Scan) (t : Token) : Scan := { s with tokens := s.tokens ++ [t] }

def insertAt (s : Scan) (n : Nat) (t : Token) : Scan :=
  { s with tokens := s.tokens.take n ++ t :: s.tokens.drop n }

def skip (s : Scan) (n : Nat) : Scan := { s with reader := s.reader.skip n }

def allowKey (s : Scan) (b : Bool) : Scan := { s with keyAllowed := b }

/-- Pass over blanks, comments and line breaks, and over a byte order mark in front of a line. A tab
may only stand where no key may start. -/
def skipGap : Nat → Scan → Scan
  | 0, s => s
  | fuel + 1, s =>
    let tabs := 0 < s.flow || !s.keyAllowed
    let r := (s.reader.skipMark.run fun c => c = ' ' || (tabs && c = '\t')).2.skipComment
    if r.atBreak then
      skipGap fuel { s with reader := r.skipBreak, keyAllowed := s.keyAllowed || s.flow == 0 }
    else { s with reader := r }

/-- A key stands on one line and within 1024 octets. A required key that turns out not to be
one is an error. -/
def dropStaleKeys? (s : Scan) : Option Scan := do
  let keys ← s.keys.mapM fun k =>
    match k with
    | some k =>
      if k.line < s.reader.line ∨ k.index + 1024 < s.reader.index then
        if k.required then none else some none
      else some (some k)
    | none => some none
  return { s with keys }

def dropKey? (s : Scan) : Option Scan :=
  match s.keys with
  | some k :: r => if k.required then none else some { s with keys := none :: r }
  | _ => some s

def saveKey? (s : Scan) : Option Scan :=
  if s.keyAllowed then do
    let r := s.reader
    -- whatever stands at the indentation of its block must turn out to be a key
    let required := s.flow == 0 && s.indent == r.column
    let s ← s.dropKey?
    return { s with keys := some ⟨required, s.tokens.length, r.index, r.line, r.column⟩ :: s.keys.tail }
  else some s

def unroll (column : Int) : List Int → Scan → Scan
  | [], s => s
  | i :: r, s =>
    if s.indent ≤ column then s
    else unroll column r { (s.emit .blockEnd) with indent := i, indents := r }

def unrollTo (s : Scan) (column : Int) : Scan :=
  if 0 < s.flow then s else unroll column s.indents s

/-- Open a block at `column` unless one is open there, its token at place `n`. -/
def rollTo (s : Scan) (column : Nat) (n : Nat) (t : Token) : Scan :=
  if 0 < s.flow ∨ (column : Int) ≤ s.indent then s
  else { (s.insertAt n t) with indent := column, indents := s.indent :: s.indents }

def rollHere (s : Scan) (t : Token) : Scan := s.rollTo s.reader.column s.tokens.length t

/-- Directives and document markers stand outside of all blocks. -/
def leaveBlocks? (s : Scan) : Option Scan := (s.unrollTo (-1)).dropKey?.map (·.allowKey false)

def flowStart? (s : Scan) (t : Token) : Option Scan := do
  let s ← s.saveKey?
  return ({ s with flow := s.flow + 1, keys := none :: s.keys }.allowKey true).skip 1 |>.emit t

def flowEnd? (s : Scan) (t : Token) : Option Scan := do
  let s ← s.dropKey?
  let s := if 0 < s.flow then { s with flow := s.flow - 1, keys := s.keys.tail } else s
  return ((s.allowKey false).skip 1).emit t

def flowEntry? (s : Scan) : Option Scan := do
  return (((← s.dropKey?).allowKey true).skip 1).emit .flowEntry

def blockEntry? (s : Scan) : Option Scan := do
  if s.flow = 0 ∧ !s.keyAllowed then none
  let s ← (s.rollHere .blockSequence).dropKey?
  return ((s.allowKey true).skip 1).emit .blockEntry

def key? (s : Scan) : Option Scan := do
  if s.flow = 0 ∧ !s.keyAllowed then none
  let s ← (s.rollHere .blockMapping).dropKey?
  return ((s.allowKey (s.flow == 0)).skip 1).emit .key

def value? (s : Scan) : Option Scan :=
  match s.keys with
  | some k :: r =>
    -- what was read since the key is out already, so the notes of the key go in front of it
    let s := (s.insertAt k.token .key).rollTo k.column k.token .blockMapping
    some ((({ s with keys := none :: r }.allowKey false).skip 1).emit .value)
  | _ =>
    if s.flow = 0 ∧ !s.keyAllowed then none
    else some ((((s.rollHere .blockMapping).allowKey (s.flow == 0)).skip 1).emit .value)

def name? (s : Scan) (make : String → Token) : Option Scan := do
  let s := (← s.saveKey?).allowKey false
  let (name, r) := (s.reader.skip 1).run isWord
  if name.isEmpty then none
  if r.atGap || r.head?.any ("?:,]\x7d%@`".toList.contains ·) then
    return { s with reader := r }.emit (make (String.ofList name))
  else none

/-- Tag characters behind what was read of the tag already. -/
def uri? (brackets : Bool) (head : List Char) (r : Reader) : Option (Tag × Reader) := do
  let (t, r) := r.run (isTagChar brackets)
  if t.isEmpty ∧ head.isEmpty then none
  return (.ofOctets ((head.drop 1).map Char.toUInt8 ++ (← tagOctets? 0 t)), r)

/-- A tag handle: an exclamation mark, a word and, for a full handle, another mark. -/
def handle? (r : Reader) : Option (List Char × Reader) :=
  if r.looksAt '!' then
    let (w, r) := (r.skip 1).run isWord
    if r.looksAt '!' then some ('!' :: (w ++ ['!']), r.skip 1) else some ('!' :: w, r)
  else none

def tagParts? (r : Reader) : Option (String × Tag × Reader) := do
  if r.rest.tail.head? = some '<' then
    let (suffix, r) ← uri? true [] (r.skip 2)
    if r.looksAt '>' then return ("", suffix, r.skip 1) else none
  else
    let (h, r) ← handle? r
    if 1 < h.length ∧ h.getLast? = some '!' then
      let (suffix, r) ← uri? false [] r
      return (String.ofList h, suffix, r)
    else
      let (suffix, r) ← uri? false h r
      return if suffix.isEmpty then ("", .bare, r) else ("!", suffix, r)

def tag? (s : Scan) : Option Scan := do
  let s := (← s.saveKey?).allowKey false
  let (handle, suffix, r) ← tagParts? s.reader
  if r.atGap || (0 < s.flow && r.looksAt ',') then
    return { s with reader := r }.emit (.tag handle suffix)
  else none

def plain? (s : Scan) : Option Scan := do
  let s := (← s.saveKey?).allowKey false
  let (text, broken, r) ←
    Yaml.plain? (0 < s.flow) (s.indent + 1) (s.reader.rest.length + 1) [] .none s.reader
  return ({ s with reader := r, keyAllowed := broken }).emit (.scalar (String.ofList text) .plain)

def quoted? (s : Scan) (single : Bool) : Option Scan := do
  let s := (← s.saveKey?).allowKey false
  let (text, r) ← Yaml.quoted? single (s.reader.rest.length + 1) [] (s.reader.skip 1)
  return { s with reader := r }.emit (.scalar (String.ofList text) .quoted)

def block? (s : Scan) (folded : Bool) : Option Scan := do
  let s := (← s.dropKey?).allowKey true
  let (text, r) ← Yaml.block? folded s.indent (s.reader.skip 1)
  let style := if folded then Style.quoted else .literal
  return { s with reader := r }.emit (.scalar (String.ofList text) style)

/-- A number of a version, of at most nine digits. -/
def versionNumber? (r : Reader) : Option (Nat × Reader) :=
  let (ds, r) := r.run Char.isDigit
  if ds.isEmpty ∨ 9 < ds.length then none else some (numberOf ds, r)

def version? (r : Reader) : Option (Token × Reader) := do
  let (major, r) ← versionNumber? r
  if !r.looksAt '.' then none
  let (minor, r) ← versionNumber? (r.skip 1)
  return (.version major minor, r)

def handleLead? (r : Reader) : Option (Token × Reader) := do
  let (h, r) ← handle? r
  if h ≠ ['!'] ∧ h.getLast? ≠ some '!' then none
  if !r.rest.head?.any isBlank then none
  let (lead, r) ← uri? true [] (r.run isBlank).2
  if r.atGap then return (.handle (String.ofList h) lead, r) else none

def directiveParts? (r : Reader) : Option (Token × Reader) := do
  let (name, r) := (r.skip 1).run isWord
  if name.isEmpty ∨ !r.atGap then none
  let r := (r.run isBlank).2
  if name = "YAML".toList then version? r
  else if name = "TAG".toList then handleLead? r
  else none

def directive? (s : Scan) : Option Scan := do
  let s ← s.leaveBlocks?
  let (token, r) ← directiveParts? s.reader
  let r := (r.run isBlank).2.skipComment
  if r.atBreak || r.atEnd then return { s with reader := r.skipBreak }.emit token else none

def documentMarker? (s : Scan) (t : Token) : Option Scan := do
  return ((← s.leaveBlocks?).skip 3).emit t

def next? (s : Scan) (c : Char) (after : List Char) : Option Scan :=
  if s.reader.column = 0 ∧ c = '%' then s.directive?
  else if s.reader.atDocumentMarker then
    s.documentMarker? (if c = '-' then .documentStart else .documentEnd)
  else
    match c with
    | '[' => s.flowStart? .flowSequence
    | '\x7b' => s.flowStart? .flowMapping
    | ']' => s.flowEnd? .flowSequenceEnd
    | '\x7d' => s.flowEnd? .flowMappingEnd
    | ',' => s.flowEntry?
    | '*' => s.name? .alias
    | '&' => s.name? .anchor
    | '!' => s.tag?
    | '\'' => s.quoted? true
    | '"' => s.quoted? false
    | '-' => if startsGap after then s.blockEntry? else s.plain?
    | '?' => if 0 < s.flow ∨ startsGap after then s.key? else s.plain?
    | ':' => if 0 < s.flow ∨ startsGap after then s.value? else s.plain?
    | '|' => if s.flow = 0 then s.block? false else none
    | '>' => if s.flow = 0 then s.block? true else none
    | _ => if "#%@`".toList.contains c ∨ isGap c then none else s.plain?

def finish? (s : Scan) : Option (List Token) :=
  (s.unrollTo (-1)).dropKey?.map fun s => (s.emit .streamEnd).tokens

def run? : Nat → Scan → Option (List Token)
  | 0, _ => none
  | fuel + 1, s => do
    let s ← (s.skipGap (s.reader.rest.length + 1)).dropStaleKeys?
    let s := s.unrollTo s.reader.column
    match s.reader.rest with
    | [] => s.finish?
    | c :: r => run? fuel (← s.next? c r)

end Scan

def tokens? (text : String) : Option (List Token) :=
  let cs := text.toList
  if cs.all isAllowed then (Scan.start cs).run? (cs.length + 1) else none

end AdapterForge.Yaml

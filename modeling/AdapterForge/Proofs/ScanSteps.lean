import AdapterForge.Proofs.PlainLines
import AdapterForge.Proofs.ScalarCharacters
import AdapterForge.Proofs.ScanFrames

/-!
What one step of a scan adds to the tokens. Tokens that are out stay in place, except that keys may
be noted between them.
-/
namespace AdapterForge.Yaml

namespace Token

/-- The tokens that are put in front of a key once it is known to be one. -/
def notesKey : Token → Bool
  | .key | .blockMapping => true
  | _ => false

def isProperty : Token → Bool
  | .anchor _ | .tag .. => true
  | _ => false

def isScalar : Token → Bool
  | .scalar .. => true
  | _ => false

def unkeyed (ts : List Token) : List Token := ts.filter (!notesKey ·)

/-- The text of the node that the tokens start with, if it is a scalar. -/
def nodeText? : List Token → Option String
  | [] => none
  | .scalar text _ :: _ => some text
  | t :: r => if t.isProperty then nodeText? r else none

@[simp] theorem unkeyed_append (ts us : List Token) : unkeyed (ts ++ us) = unkeyed ts ++ unkeyed us :=
  List.filter_append ts us

theorem nodeText?_append {ts us : List Token} (h : ts.all isProperty = true) :
    nodeText? (ts ++ us) = nodeText? us := by
  induction ts with
  | nil => rfl
  | cons t ts ih =>
    simp only [List.all_cons, Bool.and_eq_true] at h
    cases t with
    | anchor name => simpa [nodeText?, isProperty] using ih h.2
    | tag handle suffix => simpa [nodeText?, isProperty] using ih h.2
    | _ => exact absurd h.1 Bool.false_ne_true

theorem nodeText?_eq_none {ts : List Token} (h : ts.all (!isScalar ·) = true) : nodeText? ts = none := by
  induction ts with
  | nil => rfl
  | cons t ts ih =>
    simp only [List.all_cons, Bool.and_eq_true] at h
    cases t with
    | anchor name => simpa [nodeText?, isProperty] using ih h.2
    | tag handle suffix => simpa [nodeText?, isProperty] using ih h.2
    | scalar text style => exact absurd h.1 Bool.false_ne_true
    | _ => rfl

theorem nodeText?_unkeyed {ts : List Token} {text : String} (h : nodeText? ts = some text) :
    nodeText? (unkeyed ts) = some text := by
  induction ts with
  | nil => cases h
  | cons t ts ih =>
    cases t with
    | anchor name => exact ih h
    | tag handle suffix => exact ih h
    | scalar own style => exact h
    | _ => cases h

theorem nodeText?_begins {ts us : List Token} (out : ts <+: us) (h : ts.all isProperty = false) :
    nodeText? us = nodeText? ts := by
  obtain ⟨vs, rfl⟩ := out
  induction ts with
  | nil => cases h
  | cons t ts ih =>
    simp only [List.all_cons] at h
    cases t with
    | anchor name => simpa [nodeText?, isProperty] using ih h
    | tag handle suffix => simpa [nodeText?, isProperty] using ih h
    | _ => rfl

/-- Once a token that is no property follows the properties, the text of the node is settled. -/
theorem nodeText?_settled {ts us vs : List Token} (before : ts.all isProperty = true)
    (ends : us.all isProperty = false) (out : ts ++ us <+: vs) : nodeText? vs = nodeText? us := by
  rw [nodeText?_begins out, nodeText?_append before]
  rw [List.all_append, ends, Bool.and_false]

end Token

open Token

namespace Scan

variable {s s' : Scan}

theorem unkeyed_emit {t : Token} (kept : t.notesKey = false) :
    unkeyed (s.emit t).tokens = unkeyed s.tokens ++ [t] := by
  simp [emit, unkeyed, kept]

theorem keys_of_dropKey? (h : s.dropKey? = some s') : ∃ keys, s' = { s with keys } := by
  rw [dropKey?] at h
  split at h
  · split at h
    · cases h
    · exact ⟨_, (Option.some.inj h).symm⟩
  · exact ⟨s.keys, (Option.some.inj h).symm⟩

theorem keys_of_saveKey? (h : s.saveKey? = some s') : ∃ keys, s' = { s with keys } := by
  rw [saveKey?] at h
  split at h
  · obtain ⟨s₁, drop, h⟩ := Option.bind_eq_some_iff.1 h
    obtain ⟨keys, rfl⟩ := keys_of_dropKey? drop
    exact ⟨_, (Option.some.inj h).symm⟩
  · exact ⟨s.keys, (Option.some.inj h).symm⟩

theorem keys_of_dropStaleKeys? (h : s.dropStaleKeys? = some s') : ∃ keys, s' = { s with keys } := by
  obtain ⟨keys, -, h⟩ := Option.bind_eq_some_iff.1 h
  exact ⟨keys, (Option.some.inj h).symm⟩

theorem unkeyed_insertAt {t : Token} (n : Nat) (h : t.notesKey = true) :
    unkeyed (s.insertAt n t).tokens = unkeyed s.tokens := by
  simp only [insertAt, unkeyed, List.filter_append, List.filter_cons, h, Bool.not_true,
    Bool.false_eq_true, if_false]
  rw [← List.filter_append, List.take_append_drop]

theorem unkeyed_rollTo {t : Token} (column n : Nat) (h : t.notesKey = true) :
    unkeyed (s.rollTo column n t).tokens = unkeyed s.tokens := by
  rw [rollTo]
  split
  · rfl
  · exact unkeyed_insertAt n h

theorem rollTo_reader (column n : Nat) (t : Token) : (s.rollTo column n t).reader = s.reader := by
  rw [rollTo]
  split <;> rfl

theorem rollHere_tokens (s : Scan) (t : Token) :
    ∃ us, (s.rollHere t).tokens = s.tokens ++ us ∧ (us = [] ∨ us = [t]) := by
  rw [rollHere, rollTo]
  split
  · exact ⟨[], by simp, .inl rfl⟩
  · exact ⟨[t], by simp [insertAt], .inr rfl⟩

theorem unroll_tokens (column : Int) (l : List Int) :
    ∃ k, (unroll column l s).tokens = s.tokens ++ List.replicate k .blockEnd ∧
      (unroll column l s).reader = s.reader := by
  induction l generalizing s with
  | nil => exact ⟨0, by simp [unroll]⟩
  | cons i l ih =>
    rw [unroll]
    split
    · exact ⟨0, by simp⟩
    · obtain ⟨k, tokens, reader⟩ := @ih { (s.emit .blockEnd) with indent := i, indents := l }
      refine ⟨k + 1, ?_, by rw [reader]; rfl⟩
      rw [tokens, List.replicate_succ]
      simp [emit]

theorem unrollTo_tokens (s : Scan) (column : Int) :
    ∃ k, (s.unrollTo column).tokens = s.tokens ++ List.replicate k .blockEnd ∧
      (s.unrollTo column).reader = s.reader := by
  rw [unrollTo]
  split
  · exact ⟨0, by simp⟩
  · exact unroll_tokens column _

theorem leaveBlocks?_tokens (h : s.leaveBlocks? = some s') :
    ∃ k, s'.tokens = s.tokens ++ List.replicate k .blockEnd ∧ s'.reader = s.reader := by
  obtain ⟨s₁, drop, rfl⟩ := Option.map_eq_some_iff.1 h
  obtain ⟨keys, rfl⟩ := keys_of_dropKey? drop
  exact unrollTo_tokens s (-1)

end Scan

/-- What is left is what was left, or a later part of the same line. -/
def Reader.Within (r' r : Reader) : Prop := ∃ l, r.rest = l ++ r'.rest ∧ '\n' ∉ l

namespace Reader.Within

variable {r r' r'' : Reader}

theorem refl (r : Reader) : r.Within r := ⟨[], rfl, List.not_mem_nil⟩

theorem trans (h : r''.Within r') (h' : r'.Within r) : r''.Within r := by
  obtain ⟨l, here, line⟩ := h
  obtain ⟨l', here', line'⟩ := h'
  refine ⟨l' ++ l, by rw [here', here, List.append_assoc], ?_⟩
  rw [List.mem_append, not_or]
  exact ⟨line', line⟩

theorem skip {c : Char} (h : r.rest.head? = some c) (line : c ≠ '\n') : (r.skip 1).Within r := by
  obtain ⟨l, index, n, column⟩ := r
  match l with
  | d :: l =>
    obtain rfl : d = c := Option.some.inj h
    exact ⟨[d], rfl, by simpa using line.symm⟩

theorem run (r : Reader) {p : Char → Bool} (line : p '\n' = false) : (r.run p).2.Within r := by
  refine ⟨(r.run p).1, (r.run_append p).symm, fun feed => ?_⟩
  have feed := List.all_eq_true.1 List.all_takeWhile _ feed
  rw [line] at feed
  cases feed

end Reader.Within

namespace Scan

variable {s s' : Scan} {r r' : Reader}

theorem within_of_uri? {brackets : Bool} {head : List Char} {t : Tag}
    (h : uri? brackets head r = some (t, r')) : r'.Within r := by
  simp only [uri?] at h
  split at h
  · cases h
  · obtain ⟨octets, -, h⟩ := Option.bind_eq_some_iff.1 h
    obtain ⟨-, rfl⟩ := Prod.mk.inj (Option.some.inj h)
    exact .run r (by cases brackets <;> decide)

theorem head?_of_looksAt {c : Char} (h : r.looksAt c = true) : r.rest.head? = some c := by
  simpa [Reader.looksAt, Reader.head?] using h

theorem within_of_handle? {l : List Char} (h : handle? r = some (l, r')) : r'.Within r := by
  simp only [handle?] at h
  split at h
  · next mark =>
    have first := (Reader.Within.run (r.skip 1) (p := isWord) rfl).trans
      (.skip (head?_of_looksAt mark) (by decide))
    split at h
    · next second =>
      obtain ⟨-, rfl⟩ := Prod.mk.inj (Option.some.inj h)
      exact (Reader.Within.skip (head?_of_looksAt second) (by decide)).trans first
    · obtain ⟨-, rfl⟩ := Prod.mk.inj (Option.some.inj h)
      exact first
  · cases h

theorem within_of_tagParts? {handle : String} {suffix : Tag} {c : Char} {l : List Char}
    (here : r.rest = c :: l) (line : c ≠ '\n')
    (h : tagParts? r = some (handle, suffix, r')) : r'.Within r := by
  simp only [tagParts?] at h
  split at h
  · next angle =>
    obtain ⟨⟨t, r₁⟩, uri, h⟩ := Option.bind_eq_some_iff.1 h
    have second : (r.skip 2).Within r := by
      cases l with
      | nil => simp [here] at angle
      | cons d l =>
        obtain rfl : d = '<' := by simpa [here] using angle
        exact ⟨[c, '<'], by simp [Reader.skip, here], by simp [line.symm]⟩
    simp only at h
    split at h
    · next close =>
      obtain ⟨-, -, rfl⟩ : _ ∧ _ ∧ _ := by simpa using h
      exact (Reader.Within.skip (head?_of_looksAt close) (by decide)).trans
        ((within_of_uri? uri).trans second)
    · cases h
  · obtain ⟨⟨t, r₁⟩, lead, h⟩ := Option.bind_eq_some_iff.1 h
    simp only at h
    split at h
    · obtain ⟨⟨t', r₂⟩, uri, h⟩ := Option.bind_eq_some_iff.1 h
      obtain ⟨-, -, rfl⟩ : _ ∧ _ ∧ _ := by simpa using h
      exact (within_of_uri? uri).trans (within_of_handle? lead)
    · obtain ⟨⟨t', r₂⟩, uri, h⟩ := Option.bind_eq_some_iff.1 h
      have left : r' = r₂ := by
        have same := Option.some.inj h
        simp only at same
        split at same <;> simp only [Prod.mk.injEq] at same <;> exact same.2.2.symm
      rw [left]
      exact (within_of_uri? uri).trans (within_of_handle? lead)

/-- What one step of a scan adds to the tokens, apart from notes of keys, and where it ends. -/
inductive Step (s s' : Scan) (c : Char) (after : List Char) : Prop
  /-- No text starts the tokens, whatever comes behind them. -/
  | other (us : List Token) (tokens : unkeyed s'.tokens = unkeyed s.tokens ++ us)
      (noText : nodeText? us = none) (ends : us.all isProperty = false)
  | key (sign : c = '?') (allowed : s.keyAllowed = true ∨ 0 < s.flow)
      (tokens : unkeyed s'.tokens = unkeyed s.tokens) (left : s'.reader = s.reader.skip 1)
  | property (sign : c = '&' ∨ c = '!') (t : Token) (isProperty : t.isProperty = true)
      (tokens : unkeyed s'.tokens = unkeyed s.tokens ++ [t]) (left : s'.reader.Within s.reader)
  | plain (starts : startsPlain (c :: after) = true) (text : List Char) (broken : Bool)
      (read : Yaml.plain? (0 < s.flow) (s.indent + 1) (s.reader.rest.length + 1) [] .none s.reader =
        some (text, broken, s'.reader))
      (tokens : unkeyed s'.tokens = unkeyed s.tokens ++ [.scalar (String.ofList text) .plain])
  | quoted (single : Bool) (sign : c = if single then '\'' else '"') (text : List Char) (fuel : Nat)
      (read : Yaml.quoted? single fuel [] (s.reader.skip 1) = some (text, s'.reader))
      (tokens : unkeyed s'.tokens = unkeyed s.tokens ++ [.scalar (String.ofList text) .quoted])
  | block (folded : Bool) (sign : c = if folded then '>' else '|') (text : List Char) (style : Style)
      (read : Yaml.block? folded s.indent (s.reader.skip 1) = some (text, s'.reader))
      (tokens : unkeyed s'.tokens = unkeyed s.tokens ++ [.scalar (String.ofList text) style])

variable {c : Char} {after : List Char}

theorem Step.of_mark {u : List Token} {t : Token}
    (tokens : unkeyed s'.tokens = unkeyed s.tokens ++ (u ++ [t]))
    (before : u.all (!isScalar ·) = true) (noText : t.isScalar = false) (ends : t.isProperty = false) :
    Step s s' c after := by
  refine .other (u ++ [t]) tokens (nodeText?_eq_none ?_) ?_
  · rw [List.all_append, before]
    simp [noText]
  · rw [List.all_append]
    simp [ends]

section Marks

variable {t : Token} (noText : t.isScalar = false) (ends : t.isProperty = false)
  (kept : t.notesKey = false)

include noText ends kept

theorem step_of_flowStart? (h : s.flowStart? t = some s') : Step s s' c after := by
  obtain ⟨s₁, save, h⟩ := Option.bind_eq_some_iff.1 h
  obtain ⟨keys, rfl⟩ := keys_of_saveKey? save
  obtain rfl := Option.some.inj h
  exact .of_mark (u := []) (unkeyed_emit kept) rfl noText ends

theorem step_of_flowEnd? (h : s.flowEnd? t = some s') : Step s s' c after := by
  obtain ⟨s₁, drop, h⟩ := Option.bind_eq_some_iff.1 h
  obtain ⟨keys, rfl⟩ := keys_of_dropKey? drop
  obtain rfl := Option.some.inj h
  refine .of_mark (u := []) ((unkeyed_emit kept).trans ?_) rfl noText ends
  by_cases inFlow : 0 < s.flow <;> simp [skip, allowKey, inFlow]

theorem step_of_documentMarker? (h : s.documentMarker? t = some s') : Step s s' c after := by
  obtain ⟨s₁, leave, h⟩ := Option.bind_eq_some_iff.1 h
  obtain ⟨k, tokens, -⟩ := leaveBlocks?_tokens leave
  obtain rfl := Option.some.inj h
  refine .of_mark (u := List.replicate k .blockEnd) ((unkeyed_emit kept).trans ?_) ?_ noText ends
  · simp [skip, tokens, unkeyed, notesKey]
  · simp [isScalar]

end Marks

theorem step_of_flowEntry? (h : flowEntry? s = some s') : Step s s' c after := by
  obtain ⟨s₁, drop, h⟩ := Option.bind_eq_some_iff.1 h
  obtain ⟨keys, rfl⟩ := keys_of_dropKey? drop
  obtain rfl := Option.some.inj h
  exact .of_mark (u := []) (unkeyed_emit rfl) rfl rfl rfl

theorem step_of_blockEntry? (h : blockEntry? s = some s') : Step s s' c after := by
  simp only [ blockEntry?] at h
  split at h
  · cases h
  obtain ⟨s₁, drop, h⟩ := Option.bind_eq_some_iff.1 h
  obtain ⟨keys, rfl⟩ := keys_of_dropKey? drop
  obtain rfl := Option.some.inj h
  obtain ⟨us, tokens, opened⟩ := rollHere_tokens s .blockSequence
  refine .of_mark (u := us) (t := .blockEntry) ((unkeyed_emit rfl).trans ?_) ?_ rfl rfl
  · simp only [allowKey, skip, tokens, unkeyed_append, List.append_assoc]
    obtain rfl | rfl := opened <;> rfl
  · obtain rfl | rfl := opened <;> rfl

theorem step_of_key? (sign : c = '?') (h : s.key? = some s') : Step s s' c after := by
  simp only [key?] at h
  split at h
  · cases h
  next allowed =>
  obtain ⟨s₁, drop, h⟩ := Option.bind_eq_some_iff.1 h
  obtain ⟨keys, rfl⟩ := keys_of_dropKey? drop
  obtain rfl := Option.some.inj h
  refine .key sign ?_ ?_ ?_
  · by_cases inFlow : s.flow = 0
    · left
      simpa [inFlow] using allowed
    · right
      omega
  · simp [emit, unkeyed, notesKey]
    exact unkeyed_rollTo _ _ rfl
  · exact congrArg (·.skip 1) (rollTo_reader ..)

theorem step_of_value? (h : s.value? = some s') : Step s s' c after := by
  rw [value?] at h
  split at h
  · obtain rfl := Option.some.inj h
    refine .of_mark (u := []) (t := .value) ((unkeyed_emit rfl).trans ?_) rfl rfl rfl
    exact congrArg (· ++ _) ((unkeyed_rollTo _ _ rfl).trans (unkeyed_insertAt _ rfl))
  · split at h
    · cases h
    obtain rfl := Option.some.inj h
    refine .of_mark (u := []) (t := .value) ((unkeyed_emit rfl).trans ?_) rfl rfl rfl
    exact congrArg (· ++ _) (unkeyed_rollTo _ _ rfl)

theorem directiveParts?_token {t : Token} (h : directiveParts? r = some (t, r')) :
    t.isScalar = false ∧ t.isProperty = false ∧ t.notesKey = false := by
  simp only [directiveParts?] at h
  split at h
  · cases h
  split at h
  · obtain ⟨p, -, h⟩ := Option.bind_eq_some_iff.1 h
    simp only at h
    split at h
    · cases h
    obtain ⟨q, -, h⟩ := Option.bind_eq_some_iff.1 h
    obtain ⟨rfl, -⟩ := Prod.mk.inj (Option.some.inj h)
    exact ⟨rfl, rfl, rfl⟩
  split at h
  · obtain ⟨p, -, h⟩ := Option.bind_eq_some_iff.1 h
    simp only at h
    split at h
    · cases h
    split at h
    · cases h
    obtain ⟨q, -, h⟩ := Option.bind_eq_some_iff.1 h
    split at h
    · obtain ⟨rfl, -⟩ := Prod.mk.inj (Option.some.inj h)
      exact ⟨rfl, rfl, rfl⟩
    · cases h
  · cases h

theorem step_of_directive? (h : s.directive? = some s') : Step s s' c after := by
  obtain ⟨s₁, leave, h⟩ := Option.bind_eq_some_iff.1 h
  obtain ⟨k, tokens, -⟩ := leaveBlocks?_tokens leave
  obtain ⟨⟨t, r⟩, parts, h⟩ := Option.bind_eq_some_iff.1 h
  simp only at h
  split at h
  · obtain rfl := Option.some.inj h
    obtain ⟨noText, ends, kept⟩ := directiveParts?_token parts
    refine .of_mark (u := List.replicate k .blockEnd) ((unkeyed_emit kept).trans ?_) ?_ noText ends
    · simp [tokens, unkeyed, notesKey]
    · simp [isScalar]
  · cases h

theorem name?_tokens {make : String → Token} (here : s.reader.rest = c :: after) (line : c ≠ '\n')
    (kept : ∀ name, (make name).notesKey = false) (h : s.name? make = some s') :
    (∃ name, unkeyed s'.tokens = unkeyed s.tokens ++ [make name]) ∧ s'.reader.Within s.reader := by
  obtain ⟨s₁, save, h⟩ := Option.bind_eq_some_iff.1 h
  obtain ⟨keys, rfl⟩ := keys_of_saveKey? save
  simp only at h
  split at h
  · cases h
  split at h
  · obtain rfl := Option.some.inj h
    exact ⟨⟨_, unkeyed_emit (kept _)⟩,
      (Reader.Within.run _ rfl).trans (.skip (by rw [allowKey, here]; rfl) line)⟩
  · cases h

theorem step_of_tag? (sign : c = '!') (here : s.reader.rest = c :: after)
    (h : s.tag? = some s') : Step s s' c after := by
  obtain ⟨s₁, save, h⟩ := Option.bind_eq_some_iff.1 ((tag?_eq s).symm.trans h)
  obtain ⟨keys, rfl⟩ := keys_of_saveKey? save
  obtain ⟨⟨handle, suffix, r⟩, parts, h⟩ := Option.bind_eq_some_iff.1 h
  simp only at h
  split at h
  · obtain rfl := Option.some.inj h
    refine .property (.inr sign) (.tag handle suffix) rfl (unkeyed_emit rfl) ?_
    exact within_of_tagParts? here (by rw [sign]; decide) parts
  · cases h

theorem step_of_plain? (starts : startsPlain (c :: after) = true) (h : s.plain? = some s') :
    Step s s' c after := by
  rw [plain?_eq] at h
  obtain ⟨s₁, save, h⟩ := Option.bind_eq_some_iff.1 h
  obtain ⟨keys, rfl⟩ := keys_of_saveKey? save
  obtain ⟨⟨text, broken, r⟩, read, rfl⟩ := Option.map_eq_some_iff.1 h
  exact .plain starts text broken read (unkeyed_emit rfl)

theorem step_of_quoted? {single : Bool} (sign : c = if single then '\'' else '"')
    (h : s.quoted? single = some s') : Step s s' c after := by
  rw [quoted?_eq] at h
  obtain ⟨s₁, save, h⟩ := Option.bind_eq_some_iff.1 h
  obtain ⟨keys, rfl⟩ := keys_of_saveKey? save
  obtain ⟨⟨text, r⟩, read, rfl⟩ := Option.map_eq_some_iff.1 h
  exact .quoted single sign text _ read (unkeyed_emit rfl)

theorem step_of_block? {folded : Bool} (sign : c = if folded then '>' else '|')
    (h : s.block? folded = some s') : Step s s' c after := by
  rw [block?_eq] at h
  obtain ⟨s₁, drop, h⟩ := Option.bind_eq_some_iff.1 h
  obtain ⟨keys, rfl⟩ := keys_of_dropKey? drop
  obtain ⟨⟨text, r⟩, read, rfl⟩ := Option.map_eq_some_iff.1 h
  exact .block folded sign text _ read (unkeyed_emit rfl)

theorem step_of_next? (here : s.reader.rest = c :: after) (h : s.next? c after = some s') :
    Step s s' c after := by
  -- in the order in which the step tells its tokens apart
  simp only [next?] at h
  split at h
  · exact step_of_directive? h
  split at h
  · split at h <;> exact step_of_documentMarker? rfl rfl rfl h
  split at h
  · exact step_of_flowStart? rfl rfl rfl h
  · exact step_of_flowStart? rfl rfl rfl h
  · exact step_of_flowEnd? rfl rfl rfl h
  · exact step_of_flowEnd? rfl rfl rfl h
  · exact step_of_flowEntry? h
  · obtain ⟨⟨name, tokens⟩, -⟩ := name?_tokens here (by decide) (fun _ => rfl) h
    exact .of_mark (u := []) tokens rfl rfl rfl
  · obtain ⟨⟨name, tokens⟩, left⟩ := name?_tokens here (by decide) (fun _ => rfl) h
    exact .property (.inl rfl) (.anchor name) rfl tokens left
  · exact step_of_tag? rfl here h
  · exact step_of_quoted? rfl h
  · exact step_of_quoted? rfl h
  · split at h
    · exact step_of_blockEntry? h
    · next solid => exact step_of_plain? (by simp [startsPlain, isGap, isBlank, isBreak, solid]) h
  · split at h
    · exact step_of_key? rfl h
    · next solid => exact step_of_plain? (by simp_all [startsPlain, isGap, isBlank, isBreak]) h
  · split at h
    · exact step_of_value? h
    · next solid => exact step_of_plain? (by simp_all [startsPlain, isGap, isBlank, isBreak]) h
  · split at h
    · exact step_of_block? rfl h
    · cases h
  · split at h
    · exact step_of_block? rfl h
    · cases h
  · split at h
    · cases h
    · next plain =>
      exact step_of_plain? (by simp_all [startsPlain]) h

theorem Step.tokens_kept (h : Step s s' c after) : unkeyed s.tokens <+: unkeyed s'.tokens := by
  obtain ⟨us, tokens, -, -⟩ | ⟨-, -, tokens, -⟩ | ⟨-, t, -, tokens, -⟩ | ⟨-, text, _, -, tokens⟩ |
    ⟨_, -, text, _, -, tokens⟩ | ⟨_, -, text, _, -, tokens⟩ := h
  case key => exact ⟨[], by rw [tokens, List.append_nil]⟩
  all_goals exact ⟨_, tokens.symm⟩

theorem skipGap_rest (fuel : Nat) (s : Scan) :
    ∃ r allowed, s.skipGap fuel = { s with reader := r, keyAllowed := allowed } := by
  induction fuel generalizing s with
  | zero => exact ⟨s.reader, s.keyAllowed, rfl⟩
  | succ fuel ih =>
    simp only [skipGap]
    split
    · obtain ⟨r, allowed, same⟩ := ih _
      exact ⟨r, allowed, same⟩
    · exact ⟨_, s.keyAllowed, rfl⟩

variable {fuel : Nat} {ts : List Token}

/-- A scan at its next character, with the blocks closed that end there. -/
def arrived (s : Scan) (keys : List (Option KeyPlace)) : Scan :=
  { s.skipGap (s.reader.rest.length + 1) with keys }.unrollTo
    (s.skipGap (s.reader.rest.length + 1)).reader.column

theorem arrived_tokens (s : Scan) (keys : List (Option KeyPlace)) :
    ∃ k, (s.arrived keys).tokens = s.tokens ++ List.replicate k .blockEnd := by
  obtain ⟨k, tokens, -⟩ := unrollTo_tokens { s.skipGap (s.reader.rest.length + 1) with keys }
    (s.skipGap (s.reader.rest.length + 1)).reader.column
  obtain ⟨r, allowed, same⟩ := skipGap_rest (s.reader.rest.length + 1) s
  exact ⟨k, by rw [arrived, tokens, same]⟩

theorem arrived_reader (s : Scan) (keys : List (Option KeyPlace)) :
    (s.arrived keys).reader = (s.skipGap (s.reader.rest.length + 1)).reader := by
  obtain ⟨k, -, reader⟩ := unrollTo_tokens { s.skipGap (s.reader.rest.length + 1) with keys }
    (s.skipGap (s.reader.rest.length + 1)).reader.column
  exact reader

/-- A scan that goes well ends at its next character or takes a step from there. -/
theorem turn_of_run? (h : s.run? (fuel + 1) = some ts) :
    ∃ keys, (s.arrived keys).reader.rest = [] ∧ (s.arrived keys).finish? = some ts ∨
      ∃ c after s', (s.arrived keys).reader.rest = c :: after ∧
        Step (s.arrived keys) s' c after ∧ s'.run? fuel = some ts := by
  rw [run?] at h
  obtain ⟨s₀, fresh, h⟩ := Option.bind_eq_some_iff.1 h
  obtain ⟨keys, rfl⟩ := keys_of_dropStaleKeys? fresh
  refine ⟨keys, ?_⟩
  simp only at h
  split at h
  · next done => exact .inl ⟨done, h⟩
  · next c after here =>
    obtain ⟨s', step, h⟩ := Option.bind_eq_some_iff.1 h
    exact .inr ⟨c, after, s', here, step_of_next? here step, h⟩

theorem finish?_tokens (h : s.finish? = some ts) : unkeyed s.tokens <+: unkeyed ts := by
  obtain ⟨s₁, drop, rfl⟩ := Option.map_eq_some_iff.1 h
  obtain ⟨keys, rfl⟩ := keys_of_dropKey? drop
  obtain ⟨k, tokens, -⟩ := unrollTo_tokens s (-1)
  simp only [emit, tokens, unkeyed_append, List.append_assoc]
  exact List.prefix_append _ _

/-- Tokens that are out stay in place. -/
theorem run?_tokens (h : s.run? fuel = some ts) : unkeyed s.tokens <+: unkeyed ts := by
  induction fuel generalizing s with
  | zero => cases h
  | succ fuel ih =>
    obtain ⟨keys, turn⟩ := turn_of_run? h
    have start : unkeyed s.tokens <+: unkeyed (s.arrived keys).tokens := by
      obtain ⟨k, tokens⟩ := s.arrived_tokens keys
      rw [tokens, unkeyed_append]
      exact List.prefix_append _ _
    obtain ⟨-, finish⟩ | ⟨c, after, s', -, step, rest⟩ := turn
    · exact start.trans (finish?_tokens finish)
    · exact (start.trans step.tokens_kept).trans (ih rest)

theorem run?_mono {n : Nat} (h : s.run? fuel = some ts) (le : fuel ≤ n) : s.run? n = some ts := by
  induction fuel generalizing s n with
  | zero => cases h
  | succ fuel ih =>
    obtain ⟨n, rfl⟩ := Nat.exists_eq_add_of_le' (Nat.le_trans (Nat.succ_le_succ (Nat.zero_le _)) le)
    rw [run?] at h ⊢
    obtain ⟨s₀, fresh, h⟩ := Option.bind_eq_some_iff.1 h
    refine Option.bind_eq_some_iff.2 ⟨s₀, fresh, ?_⟩
    simp only at h ⊢
    split at h
    · exact h
    · obtain ⟨s', step, h⟩ := Option.bind_eq_some_iff.1 h
      exact Option.bind_eq_some_iff.2 ⟨s', step, ih h (Nat.le_of_succ_le_succ le)⟩

end Scan

end AdapterForge.Yaml

import AdapterForge.Yaml.Token

/-!
Where a text stands does not matter to its tokens: a scan with tokens and octets in front of it makes
the same tokens behind those in front.
-/
namespace AdapterForge.Yaml

namespace Reader

variable (n : Nat) (r : Reader)

/-- A reader with `n` more octets in front of it. -/
def after : Reader := { r with index := n + r.index }

@[simp] theorem after_rest : (r.after n).rest = r.rest := rfl

@[simp] theorem after_index : (r.after n).index = n + r.index := rfl

@[simp] theorem after_line : (r.after n).line = r.line := rfl

@[simp] theorem after_column : (r.after n).column = r.column := rfl

@[simp] theorem head?_after : (r.after n).head? = r.head? := rfl

@[simp] theorem looksAt_after (c : Char) : (r.after n).looksAt c = r.looksAt c := rfl

@[simp] theorem atGap_after : (r.after n).atGap = r.atGap := rfl

@[simp] theorem atBreak_after : (r.after n).atBreak = r.atBreak := rfl

@[simp] theorem atEnd_after : (r.after n).atEnd = r.atEnd := rfl

@[simp] theorem breakText_after : (r.after n).breakText = r.breakText := rfl

@[simp] theorem atDocumentMarker_after : (r.after n).atDocumentMarker = r.atDocumentMarker := rfl

@[simp] theorem skip_after (k : Nat) : (r.after n).skip k = (r.skip k).after n := by
  simp [skip, after, Nat.add_assoc]

@[simp] theorem run_after (p : Char → Bool) :
    (r.after n).run p = ((r.run p).1, (r.run p).2.after n) := by
  simp [run]

@[simp] theorem skipMark_after : (r.after n).skipMark = r.skipMark.after n := by
  simp only [skipMark, after_column, looksAt_after, skip_after]
  split <;> rfl

@[simp] theorem skipBreak_after : (r.after n).skipBreak = r.skipBreak.after n := by
  simp only [skipBreak, after_rest]
  split
  · simp [after, Nat.add_assoc]
  · split
    · simp [after, Nat.add_assoc]
    · rfl
  · rfl

@[simp] theorem skipComment_after : (r.after n).skipComment = r.skipComment.after n := by
  simp only [skipComment, looksAt_after, run_after]
  split <;> rfl

end Reader

section Scalars

variable (n : Nat)

def afterRead {α : Type} (p : α × Reader) : α × Reader := (p.1, p.2.after n)

@[simp] theorem afterRead_mk {α : Type} (a : α) (r : Reader) : afterRead n (a, r) = (a, r.after n) := rfl

theorem Gap.read?_after (indent : Int) (fuel : Nat) (g : Gap) (r : Reader) :
    Gap.read? indent fuel g (r.after n) = (Gap.read? indent fuel g r).map (afterRead n) := by
  fun_induction Gap.read? indent fuel g r <;> simp_all [Gap.read?]

theorem plain?_after (inFlow : Bool) (indent : Int) (fuel : Nat) (text : List Char) (g : Gap)
    (r : Reader) :
    plain? inFlow indent fuel text g (r.after n) =
      (plain? inFlow indent fuel text g r).map fun p => (p.1, afterRead n p.2) := by
  induction fuel generalizing text g r with
  | zero => rfl
  | succ fuel ih =>
    simp only [plain?, Reader.atDocumentMarker_after, Reader.looksAt_after, Reader.after_rest,
      Reader.skip_after, Gap.read?_after]
    split
    · rfl
    cases plainRun inFlow r.rest with
    | none => rfl
    | some p =>
      obtain ⟨run, rest⟩ := p
      simp only
      split
      · cases Gap.read? indent (r.skip run.length).rest.length
          (if run.isEmpty then g else .none) (r.skip run.length) with
        | none => rfl
        | some q =>
          simp only [Option.map_some, afterRead, Reader.after_column, ih, apply_ite (Option.map _)]
          rfl
      · rfl

theorem quotedRun?_after (single : Bool) (fuel : Nat) (r : Reader) :
    quotedRun? single fuel (r.after n) =
      (quotedRun? single fuel r).map fun p => (p.1, afterRead n p.2) := by
  induction fuel generalizing r with
  | zero => rfl
  | succ fuel ih =>
    simp only [quotedRun?, Reader.after_rest, Reader.skip_after, Reader.skipBreak_after, ih]
    repeat' split
    all_goals simp [afterRead, Function.comp_def]

theorem quoted?_after (single : Bool) (fuel : Nat) (text : List Char) (r : Reader) :
    quoted? single fuel text (r.after n) = (quoted? single fuel text r).map (afterRead n) := by
  induction fuel generalizing text r with
  | zero => rfl
  | succ fuel ih =>
    simp only [quoted?, Reader.atDocumentMarker_after, Reader.after_rest, quotedRun?_after]
    split
    · rfl
    cases quotedRun? single r.rest.length r with
    | none => rfl
    | some p =>
      obtain ⟨run, e, r⟩ := p
      cases e with
      | quote => simp
      | stop => rfl
      | gap =>
        simp only [Option.map_some, afterRead, Reader.after_rest, Gap.read?_after]
        cases Gap.read? 0 r.rest.length .none r with
        | none => rfl
        | some q => exact ih _ _
      | escapedBreak =>
        simp only [Option.map_some, afterRead, Reader.after_rest, Gap.read?_after]
        cases Gap.read? 0 r.rest.length ⟨[], true, [], []⟩ r with
        | none => rfl
        | some q => exact ih _ _

theorem blockBreaks?_after (indent fuel : Nat) (breaks : List Char) (widest : Nat) (r : Reader) :
    blockBreaks? indent fuel breaks widest (r.after n) =
      (blockBreaks? indent fuel breaks widest r).map fun p => (p.1, afterRead n p.2) := by
  induction fuel generalizing breaks widest r with
  | zero => rfl
  | succ fuel ih =>
    simp only [blockBreaks?, Reader.after_rest, Reader.after_column, Reader.skip_after,
      Reader.looksAt_after, Reader.atBreak_after, Reader.breakText_after, Reader.skipBreak_after, ih]
    repeat' split
    all_goals rfl

theorem blockLines?_after (folded : Bool) (indent fuel : Nat) (text lead trail : List Char)
    (wasBlank : Bool) (r : Reader) :
    blockLines? folded indent fuel text lead trail wasBlank (r.after n) =
      (blockLines? folded indent fuel text lead trail wasBlank r).map
        fun p => (p.1, p.2.1, afterRead n p.2.2) := by
  induction fuel generalizing text lead trail wasBlank r with
  | zero => rfl
  | succ fuel ih =>
    simp only [blockLines?, Reader.after_rest, Reader.after_column, Reader.atEnd_after,
      Reader.run_after, Reader.breakText_after, Reader.skipBreak_after, blockBreaks?_after]
    split
    · cases blockBreaks? indent (r.run (!isBreak ·)).2.rest.length [] 0
          (r.run (!isBreak ·)).2.skipBreak with
      | none => rfl
      | some q => exact ih _ _ _ _ _
    · rfl

theorem blockHeader?_after (r : Reader) :
    blockHeader? (r.after n) = (blockHeader? r).map fun p => (p.1, afterRead n p.2) := by
  simp only [blockHeader?, Reader.looksAt_after, Reader.skip_after, Reader.head?_after]
  cases r.looksAt '+' <;> cases r.looksAt '-' <;>
    simp only [Bool.false_eq_true, if_true, if_false, Reader.head?_after]
  case false.false =>
    cases r.head?.filter Char.isDigit with
    | none => rfl
    | some d =>
      cases (r.skip 1).looksAt '+' <;> cases (r.skip 1).looksAt '-' <;>
        simp [apply_ite (Option.map _)]
  all_goals
    cases (r.skip 1).head?.filter Char.isDigit with
    | none => rfl
    | some d => simp [apply_ite (Option.map _)]

theorem block?_after (folded : Bool) (parent : Int) (r : Reader) :
    block? folded parent (r.after n) = (block? folded parent r).map (afterRead n) := by
  simp only [block?, blockHeader?_after]
  cases blockHeader? r with
  | none => rfl
  | some p =>
    obtain ⟨chomp, width, r⟩ := p
    simp only [Option.map_some, afterRead_mk, Option.bind_eq_bind, Option.bind_some,
      Reader.run_after, Reader.skipComment_after, Reader.atBreak_after, Reader.atEnd_after,
      Reader.skipBreak_after, Reader.after_rest, blockBreaks?_after]
    generalize (r.run isBlank).2.skipComment = r
    split
    · rfl
    generalize (if width = 0 then 0 else if 0 ≤ parent then parent.toNat + width else width) = given
    cases blockBreaks? given r.skipBreak.rest.length [] 0 r.skipBreak with
    | none => rfl
    | some q =>
      obtain ⟨breaks, widest, r'⟩ := q
      simp only [Option.map_some, afterRead_mk, Option.bind_some, blockLines?_after, Reader.after_rest]
      cases blockLines? folded (if given = 0 then max (max widest (parent + 1).toNat) 1 else given)
          (r'.rest.length + 1) [] [] breaks false r' <;> rfl

end Scalars

/-- A possible key with `k` more tokens and `n` more octets in front of it. -/
def KeyPlace.behind (k n : Nat) (p : KeyPlace) : KeyPlace :=
  { p with token := k + p.token, index := n + p.index }

namespace Scan

variable (ts : List Token) (n : Nat) (s : Scan)

def behind : Scan :=
  { s with
    reader := s.reader.after n
    tokens := ts ++ s.tokens
    keys := s.keys.map (Option.map (KeyPlace.behind ts.length n)) }

@[simp] theorem behind_reader : (s.behind ts n).reader = s.reader.after n := rfl

@[simp] theorem behind_tokens : (s.behind ts n).tokens = ts ++ s.tokens := rfl

@[simp] theorem behind_flow : (s.behind ts n).flow = s.flow := rfl

@[simp] theorem behind_indent : (s.behind ts n).indent = s.indent := rfl

@[simp] theorem behind_indents : (s.behind ts n).indents = s.indents := rfl

@[simp] theorem behind_keyAllowed : (s.behind ts n).keyAllowed = s.keyAllowed := rfl

@[simp] theorem behind_keys :
    (s.behind ts n).keys = s.keys.map (Option.map (KeyPlace.behind ts.length n)) := rfl

@[simp] theorem emit_behind (t : Token) : (s.behind ts n).emit t = (s.emit t).behind ts n := by
  simp [emit, behind]

@[simp] theorem insertAt_behind (k : Nat) (t : Token) :
    (s.behind ts n).insertAt (ts.length + k) t = (s.insertAt k t).behind ts n := by
  simp [insertAt, behind, List.take_append, List.drop_append, List.take_of_length_le]

@[simp] theorem skip_behind (k : Nat) : (s.behind ts n).skip k = (s.skip k).behind ts n := by
  simp [skip, behind]

@[simp] theorem allowKey_behind (b : Bool) :
    (s.behind ts n).allowKey b = (s.allowKey b).behind ts n := rfl

theorem skipGap_behind (fuel : Nat) : (s.behind ts n).skipGap fuel = (s.skipGap fuel).behind ts n := by
  induction fuel generalizing s with
  | zero => rfl
  | succ fuel ih =>
    simp only [skipGap, behind_reader, behind_flow, behind_keyAllowed, Reader.skipMark_after,
      Reader.run_after, Reader.skipComment_after, Reader.atBreak_after, Reader.skipBreak_after,
      apply_ite (behind ts n), ← ih]
    rfl

private theorem mapM_natural {α β : Type} {f g : α → Option β} {a : α → α} {b : β → β}
    (h : ∀ x, g (a x) = (f x).map b) (l : List α) :
    (l.map a).mapM g = (l.mapM f).map (List.map b) := by
  induction l with
  | nil => rfl
  | cons x l ih =>
    rw [List.map_cons, List.mapM_cons, List.mapM_cons, ih, h]
    cases f x with
    | none => rfl
    | some y => cases l.mapM f <;> rfl

/-- What becomes of a possible key once the text is read up to `r`. -/
private def aged? (r : Reader) : Option KeyPlace → Option (Option KeyPlace)
  | some k =>
    if k.line < r.line ∨ k.index + 1024 < r.index then if k.required then none else some none
    else some (some k)
  | none => some none

private theorem aged?_after (r : Reader) (m : Nat) (k : Option KeyPlace) :
    aged? (r.after n) (k.map (KeyPlace.behind m n)) =
      (aged? r k).map (Option.map (KeyPlace.behind m n)) := by
  cases k with
  | none => rfl
  | some k =>
    simp only [aged?, Option.map_some, KeyPlace.behind, Reader.after_line, Reader.after_index,
      Nat.add_assoc, Nat.add_lt_add_iff_left, apply_ite (Option.map _)]
    rfl

private theorem dropStaleKeys?_eq :
    s.dropStaleKeys? = (s.keys.mapM (aged? s.reader)).map fun keys => { s with keys } := by
  rw [Option.map_eq_bind]
  rfl

theorem dropStaleKeys?_behind :
    (s.behind ts n).dropStaleKeys? = s.dropStaleKeys?.map (behind ts n) := by
  rw [dropStaleKeys?_eq, dropStaleKeys?_eq, behind_keys, behind_reader,
    mapM_natural (aged?_after n s.reader ts.length)]
  cases s.keys.mapM (aged? s.reader) <;> rfl

theorem dropKey?_behind : (s.behind ts n).dropKey? = s.dropKey?.map (behind ts n) := by
  obtain ⟨r, us, flow, indent, indents, keyAllowed, keys⟩ := s
  match keys with
  | [] => rfl
  | none :: keys => rfl
  | some k :: keys =>
    simp only [dropKey?, behind, List.map_cons, Option.map_some, KeyPlace.behind,
      apply_ite (Option.map _), Option.map_none]

theorem saveKey?_behind : (s.behind ts n).saveKey? = s.saveKey?.map (behind ts n) := by
  simp only [saveKey?, behind_keyAllowed, behind_reader, behind_flow, behind_indent, dropKey?_behind]
  split
  · cases s.dropKey? with
    | none => rfl
    | some s => simp [behind, KeyPlace.behind]
  · rfl

theorem unroll_behind (column : Int) (l : List Int) :
    unroll column l (s.behind ts n) = (unroll column l s).behind ts n := by
  induction l generalizing s with
  | nil => rfl
  | cons i l ih =>
    simp only [unroll, behind_indent, emit_behind, apply_ite (behind ts n), ← ih]
    rfl

theorem unrollTo_behind (column : Int) :
    (s.behind ts n).unrollTo column = (s.unrollTo column).behind ts n := by
  simp only [unrollTo, behind_flow, behind_indents, unroll_behind, apply_ite (behind ts n)]

theorem rollTo_behind (column k : Nat) (t : Token) :
    (s.behind ts n).rollTo column (ts.length + k) t = (s.rollTo column k t).behind ts n := by
  simp only [rollTo, behind_flow, behind_indent, behind_indents, insertAt_behind, apply_ite (behind ts n)]
  rfl

theorem rollHere_behind (t : Token) :
    (s.behind ts n).rollHere t = (s.rollHere t).behind ts n := by
  simp only [rollHere, behind_reader, behind_tokens, List.length_append, Reader.after_column,
    rollTo_behind]

theorem leaveBlocks?_behind : (s.behind ts n).leaveBlocks? = s.leaveBlocks?.map (behind ts n) := by
  simp only [leaveBlocks?, unrollTo_behind, dropKey?_behind, Option.map_map]
  rfl

theorem flowStart?_behind (t : Token) :
    (s.behind ts n).flowStart? t = (s.flowStart? t).map (behind ts n) := by
  simp only [flowStart?, saveKey?_behind]
  cases s.saveKey? with
  | none => rfl
  | some s => simp [behind, skip, emit, allowKey]

theorem flowEnd?_behind (t : Token) :
    (s.behind ts n).flowEnd? t = (s.flowEnd? t).map (behind ts n) := by
  simp only [flowEnd?, dropKey?_behind]
  cases s.dropKey? with
  | none => rfl
  | some s => by_cases h : 0 < s.flow <;> simp [h, behind, skip, emit, allowKey]

theorem flowEntry?_behind : flowEntry? (s.behind ts n) = s.flowEntry?.map (behind ts n) := by
  simp only [ flowEntry?, dropKey?_behind]
  cases s.dropKey? <;> simp

theorem blockEntry?_behind : blockEntry? (s.behind ts n) = s.blockEntry?.map (behind ts n) := by
  simp only [ blockEntry?, behind_flow, behind_keyAllowed, rollHere_behind, dropKey?_behind]
  split
  · rfl
  · cases (s.rollHere .blockSequence).dropKey? <;> simp

theorem key?_behind : (s.behind ts n).key? = s.key?.map (behind ts n) := by
  simp only [key?, behind_flow, behind_keyAllowed, rollHere_behind, dropKey?_behind]
  split
  · rfl
  · cases (s.rollHere .blockMapping).dropKey? <;> simp

theorem value?_behind : (s.behind ts n).value? = s.value?.map (behind ts n) := by
  rw [value?, value?, behind_keys]
  match s.keys with
  | some k :: keys =>
    simp only [List.map_cons, Option.map_some, KeyPlace.behind, insertAt_behind, rollTo_behind]
    rw [← emit_behind, ← skip_behind]
    rfl
  | [] | none :: keys =>
    simp [rollHere_behind, apply_ite (Option.map _)]

theorem name?_behind (make : String → Token) :
    (s.behind ts n).name? make = (s.name? make).map (behind ts n) := by
  simp only [name?, saveKey?_behind]
  cases s.saveKey? with
  | none => rfl
  | some s =>
    simp only [Option.map_some, Option.bind_eq_bind, Option.bind_some, allowKey_behind, behind_reader,
      Reader.skip_after, Reader.run_after, Reader.atGap_after, Reader.head?_after]
    split
    · rfl
    split
    · exact congrArg some (emit_behind ts n { s.allowKey false with reader := _ } _)
    · rfl

theorem uri?_after (brackets : Bool) (head : List Char) (r : Reader) :
    uri? brackets head (r.after n) = (uri? brackets head r).map (afterRead n) := by
  simp only [uri?, Reader.run_after]
  split
  · rfl
  · cases tagOctets? 0 (r.run (isTagChar brackets)).1 <;> simp

theorem handle?_after (r : Reader) : handle? (r.after n) = (handle? r).map (afterRead n) := by
  simp only [handle?, Reader.looksAt_after, Reader.skip_after, Reader.run_after, apply_ite (Option.map _)]
  rfl

theorem tag?_eq :
    s.tag? = s.saveKey?.bind fun s => (tagParts? s.reader).bind fun (handle, suffix, r) =>
      if r.atGap || (0 < s.flow && r.looksAt ',') then
        some ({ s with reader := r, keyAllowed := false }.emit (.tag handle suffix))
      else none := rfl

theorem tagParts?_after (r : Reader) :
    tagParts? (r.after n) = (tagParts? r).map fun p => (p.1, afterRead n p.2) := by
  simp only [tagParts?, Reader.after_rest, Reader.skip_after, uri?_after, handle?_after]
  split
  · cases uri? true [] (r.skip 2) with
    | none => rfl
    | some p => simp [afterRead, apply_ite (Option.map _)]
  cases handle? r with
  | none => rfl
  | some p =>
    simp only [Option.map_some, afterRead, Option.bind_eq_bind, Option.bind_some, uri?_after]
    split
    · cases uri? false [] p.2 <;> rfl
    cases uri? false p.1 p.2 with
    | none => rfl
    | some q =>
      simp only [Option.map_some, Option.bind_some, afterRead]
      split <;> rfl

theorem tag?_behind : (s.behind ts n).tag? = s.tag?.map (behind ts n) := by
  rw [tag?_eq, tag?_eq, saveKey?_behind]
  cases s.saveKey? with
  | none => rfl
  | some s =>
    simp only [Option.map_some, Option.bind_some]
    rw [behind_reader, tagParts?_after]
    cases tagParts? s.reader with
    | none => rfl
    | some p =>
      simp only [Option.map_some, Option.bind_some, afterRead, Reader.atGap_after, behind_flow,
        Reader.looksAt_after, apply_ite (Option.map _)]
      congr 1
      exact congrArg some (emit_behind ts n { s with reader := p.2.2, keyAllowed := false } _)

theorem plain?_eq :
    s.plain? = s.saveKey?.bind fun s =>
      (Yaml.plain? (0 < s.flow) (s.indent + 1) (s.reader.rest.length + 1) [] .none s.reader).map
        fun (text, broken, r) =>
          { s with reader := r, keyAllowed := broken }.emit (.scalar (String.ofList text) .plain) := by
  simp only [Option.map_eq_bind]
  rfl

theorem quoted?_eq (single : Bool) :
    s.quoted? single = s.saveKey?.bind fun s =>
      (Yaml.quoted? single (s.reader.rest.length + 1) [] (s.reader.skip 1)).map fun (text, r) =>
        { s with reader := r, keyAllowed := false }.emit (.scalar (String.ofList text) .quoted) := by
  simp only [Option.map_eq_bind]
  rfl

theorem block?_eq (folded : Bool) :
    s.block? folded = s.dropKey?.bind fun s =>
      (Yaml.block? folded s.indent (s.reader.skip 1)).map fun (text, r) =>
        { s with reader := r, keyAllowed := true }.emit
          (.scalar (String.ofList text) (if folded then .quoted else .literal)) := by
  simp only [Option.map_eq_bind]
  rfl

theorem plain?_behind : (s.behind ts n).plain? = s.plain?.map (behind ts n) := by
  rw [plain?_eq, plain?_eq, saveKey?_behind]
  cases s.saveKey? with
  | none => rfl
  | some s =>
    simp only [Option.map_some, Option.bind_some]
    rw [behind_reader, behind_flow, behind_indent, Reader.after_rest, plain?_after]
    cases Yaml.plain? (0 < s.flow) (s.indent + 1) (s.reader.rest.length + 1) [] .none s.reader with
    | none => rfl
    | some p =>
      exact congrArg some (emit_behind ts n { s with reader := p.2.2, keyAllowed := p.2.1 } _)

theorem quoted?_behind (single : Bool) :
    (s.behind ts n).quoted? single = (s.quoted? single).map (behind ts n) := by
  rw [quoted?_eq, quoted?_eq, saveKey?_behind]
  cases s.saveKey? with
  | none => rfl
  | some s =>
    simp only [Option.map_some, Option.bind_some]
    rw [behind_reader, Reader.after_rest, Reader.skip_after, quoted?_after]
    cases Yaml.quoted? single (s.reader.rest.length + 1) [] (s.reader.skip 1) with
    | none => rfl
    | some p =>
      exact congrArg some (emit_behind ts n { s with reader := p.2, keyAllowed := false } _)

theorem block?_behind (folded : Bool) :
    (s.behind ts n).block? folded = (s.block? folded).map (behind ts n) := by
  rw [block?_eq, block?_eq, dropKey?_behind]
  cases s.dropKey? with
  | none => rfl
  | some s =>
    simp only [Option.map_some, Option.bind_some]
    rw [behind_reader, behind_indent, Reader.skip_after, block?_after]
    cases Yaml.block? folded s.indent (s.reader.skip 1) with
    | none => rfl
    | some p =>
      exact congrArg some (emit_behind ts n { s with reader := p.2, keyAllowed := true } _)

theorem versionNumber?_after (r : Reader) :
    versionNumber? (r.after n) = (versionNumber? r).map (afterRead n) := by
  simp only [versionNumber?, Reader.run_after, apply_ite (Option.map _)]
  rfl

theorem version?_after (r : Reader) :
    version? (r.after n) = (version? r).map (afterRead n) := by
  simp only [version?, versionNumber?_after]
  cases versionNumber? r with
  | none => rfl
  | some p =>
    simp only [Option.map_some, Option.bind_eq_bind, Option.bind_some, afterRead,
      Reader.looksAt_after, Reader.skip_after, versionNumber?_after]
    split
    · rfl
    cases versionNumber? (p.2.skip 1) <;> rfl

theorem handleLead?_after (r : Reader) :
    handleLead? (r.after n) = (handleLead? r).map (afterRead n) := by
  simp only [handleLead?, handle?_after]
  cases handle? r with
  | none => rfl
  | some p =>
    simp only [Option.map_some, Option.bind_eq_bind, Option.bind_some, afterRead, Reader.after_rest,
      Reader.run_after, uri?_after]
    split
    · rfl
    split
    · rfl
    cases uri? true [] (p.2.run isBlank).2 with
    | none => rfl
    | some q =>
      simp only [Option.map_some, Option.bind_some, afterRead, Reader.atGap_after,
        apply_ite (Option.map _)]
      rfl

theorem directiveParts?_after (r : Reader) :
    directiveParts? (r.after n) = (directiveParts? r).map (afterRead n) := by
  simp only [directiveParts?, Reader.skip_after, Reader.run_after, Reader.atGap_after,
    version?_after, handleLead?_after]
  repeat' split
  all_goals rfl

theorem directive?_behind : (s.behind ts n).directive? = s.directive?.map (behind ts n) := by
  simp only [directive?, leaveBlocks?_behind]
  cases s.leaveBlocks? with
  | none => rfl
  | some s =>
    simp only [Option.map_some, Option.bind_eq_bind, Option.bind_some, behind_reader,
      directiveParts?_after]
    cases directiveParts? s.reader with
    | none => rfl
    | some p =>
      simp only [Option.map_some, Option.bind_some, afterRead, Reader.run_after,
        Reader.skipComment_after, Reader.atBreak_after, Reader.atEnd_after, Reader.skipBreak_after]
      split
      · exact congrArg some (emit_behind ts n { s with reader := _ } _)
      · rfl

theorem documentMarker?_behind (t : Token) :
    (s.behind ts n).documentMarker? t = (s.documentMarker? t).map (behind ts n) := by
  simp only [documentMarker?, leaveBlocks?_behind]
  cases s.leaveBlocks? <;> simp

theorem next?_behind (c : Char) (after : List Char) :
    (s.behind ts n).next? c after = (s.next? c after).map (behind ts n) := by
  simp only [next?, behind_reader, Reader.after_column, Reader.atDocumentMarker_after,
    behind_flow, directive?_behind, documentMarker?_behind, flowStart?_behind, flowEnd?_behind,
    flowEntry?_behind, blockEntry?_behind, key?_behind, value?_behind, name?_behind, tag?_behind,
    quoted?_behind, block?_behind, plain?_behind]
  split
  · rfl
  split
  · rfl
  split <;> first | rfl | (split <;> rfl)

theorem finish?_behind : (s.behind ts n).finish? = s.finish?.map (ts ++ ·) := by
  simp only [finish?, unrollTo_behind, dropKey?_behind]
  cases (s.unrollTo (-1)).dropKey? <;> simp

theorem run?_behind (fuel : Nat) : (s.behind ts n).run? fuel = (s.run? fuel).map (ts ++ ·) := by
  induction fuel generalizing s with
  | zero => rfl
  | succ fuel ih =>
    simp only [run?, behind_reader, Reader.after_rest, skipGap_behind, dropStaleKeys?_behind]
    cases (s.skipGap (s.reader.rest.length + 1)).dropStaleKeys? with
    | none => rfl
    | some s =>
      simp only [Option.map_some, Option.bind_eq_bind, Option.bind_some, behind_reader,
        Reader.after_column, unrollTo_behind, Reader.after_rest]
      cases (s.unrollTo s.reader.column).reader.rest with
      | nil => exact finish?_behind ..
      | cons c r =>
        simp only [next?_behind]
        cases (s.unrollTo s.reader.column).next? c r with
        | none => rfl
        | some s => exact ih s

end Scan

end AdapterForge.Yaml

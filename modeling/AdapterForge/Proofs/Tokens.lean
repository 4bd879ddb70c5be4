import AdapterForge.Proofs.Identifiers
import AdapterForge.Proofs.Numerals
import AdapterForge.Proofs.StringLiterals

/-!
Tokens of Java source. Texts are put together from pieces, and as long as no two words touch, the
tokens of a text are those of its pieces.
-/
namespace AdapterForge.Java

/-- What a text is read as, but for blanks. What a string literal denotes does not matter here. -/
inductive Token where
  | word (text : String)
  | number
  | literal
  | symbol (c : Char)
  deriving DecidableEq

/-- What the next character may go on with. The sign of an exponent belongs to its number. -/
inductive Mode where
  | blank
  | word (letters : List Char)
  | number (exponent : Bool)
  | literal
  | escape
  deriving DecidableEq

def isBlank (c : Char) : Bool := c = ' ' || c = '\t' || c = '\n'

def startToken (c : Char) : List Token × Mode :=
  if c.isDigit then ([], .number false)
  else if FieldPath.isNameChar c then ([], .word [c])
  else if c = '"' then ([], .literal)
  else if isBlank c then ([], .blank)
  else ([.symbol c], .blank)

def isExponentSign (c : Char) : Bool := c = '+' || c = '-'

/-- The tokens that end before a character or with it, and how it goes on. -/
def readChar : Mode → Char → List Token × Mode
  | .blank, c => startToken c
  | .word w, c =>
    if FieldPath.isNameChar c then ([], .word (w ++ [c]))
    else (.word (String.ofList w) :: (startToken c).1, (startToken c).2)
  | .number exponent, c =>
    if FieldPath.isNameChar c || c = '.' then ([], .number (c = 'e' || c = 'E'))
    else if exponent && isExponentSign c then ([], .number false)
    else (.number :: (startToken c).1, (startToken c).2)
  | .literal, c =>
    if c = '\\' then ([], .escape) else if c = '"' then ([.literal], .blank) else ([], .literal)
  | .escape, _ => ([], .literal)

def modeAfter (m : Mode) (s : List Char) : Mode := s.foldl (fun m c => (readChar m c).2) m

def lex : Mode → List Char → List Token
  | .blank, [] | .literal, [] | .escape, [] => []
  | .word w, [] => [.word (String.ofList w)]
  | .number _, [] => [.number]
  | m, c :: r => (readChar m c).1 ++ lex (readChar m c).2 r

def tokens (s : String) : List Token := lex .blank s.toList

example : tokens "site.page(\"a (b\", -1.5e+20);" = [.word "site", .symbol '.', .word "page",
    .symbol '(', .literal, .symbol ',', .symbol '-', .number, .symbol ')', .symbol ';'] := by
  decide +kernel

def Mode.isOutside : Mode → Bool
  | .blank | .word _ | .number _ => true
  | .literal | .escape => false

/-- Whether a character cannot go on with what is being read. -/
def Mode.endsBefore : Mode → Char → Bool
  | .blank, _ => true
  | .word _, c => !FieldPath.isNameChar c
  | .number _, c => !(FieldPath.isNameChar c || c = '.' || isExponentSign c)
  | .literal, _ | .escape, _ => false

def Mode.EndsBefore (m : Mode) (s : List Char) : Prop :=
  m.isOutside = true ∧ ∀ c r, s = c :: r → m.endsBefore c = true

theorem lex_cons (m : Mode) (c : Char) (r : List Char) :
    lex m (c :: r) = (readChar m c).1 ++ lex (readChar m c).2 r := by
  cases m <;> rfl

theorem modeAfter_append (m : Mode) (s t : List Char) :
    modeAfter m (s ++ t) = modeAfter (modeAfter m s) t := List.foldl_append

theorem readChar_of_endsBefore {m : Mode} {c : Char} (h : m.endsBefore c = true) :
    readChar m c = (lex m [] ++ (startToken c).1, (startToken c).2) := by
  cases m with
  | blank => rfl
  | word w =>
    simp only [Mode.endsBefore, Bool.not_eq_true'] at h
    simp [readChar, h, lex]
  | number e =>
    simp only [Mode.endsBefore, Bool.not_eq_true', Bool.or_eq_false_iff] at h
    simp [readChar, h.1, h.2, lex]
  | literal => cases h
  | escape => cases h

/-- What is being read is complete when the text ends or nothing goes on with it. -/
theorem lex_of_endsBefore {m : Mode} {s : List Char} (h : m.EndsBefore s) :
    lex m s = lex m [] ++ lex .blank s := by
  cases s with
  | nil => exact (List.append_nil _).symm
  | cons c r =>
    rw [lex_cons, readChar_of_endsBefore (h.2 c r rfl), List.append_assoc, lex_cons .blank]
    rfl

theorem lex_append_of_eq {m : Mode} {s t : List Char} {ts : List Token}
    (h : lex (modeAfter m s) t = lex (modeAfter m s) [] ++ ts) : lex m (s ++ t) = lex m s ++ ts := by
  induction s generalizing m with
  | nil => exact h
  | cons c s ih => rw [List.cons_append, lex_cons, lex_cons, List.append_assoc, ih h]

theorem lex_append {m : Mode} {s t : List Char} (h : (modeAfter m s).EndsBefore t) :
    lex m (s ++ t) = lex m s ++ lex .blank t := lex_append_of_eq (lex_of_endsBefore h)

theorem modeAfter_of_endsBefore {m : Mode} {s : List Char} (h : m.EndsBefore s) (hs : s ≠ []) :
    modeAfter m s = modeAfter .blank s := by
  obtain ⟨c, r, rfl⟩ := List.exists_cons_of_ne_nil hs
  simp only [modeAfter, List.foldl_cons, readChar_of_endsBefore (h.2 c r rfl)]
  rfl

/-- A text on one line that starts with no blank and ends outside of literals. -/
structure Whole (s : List Char) : Prop where
  start : ∃ c r, s = c :: r ∧ isBlank c = false
  outside : (modeAfter .blank s).isOutside = true
  oneLine : '\n' ∉ s

/-- A part of a text: some fixed code, a name, a string literal, or a whole expression. -/
inductive Piece where
  | code (text : String)
  | name (text : String)
  | quoted (text : String)
  | expr (text : String)

namespace Piece

def text : Piece → String
  | code s | name s | expr s => s
  | quoted s => quote s

def tokens : Piece → List Token
  | code s | expr s => Java.tokens s
  | name s => [.word s]
  | quoted _ => [.literal]

def Sound : Piece → Prop
  | code _ | quoted _ => True
  | name s => IsName s
  | expr s => Whole s.toList

def mode : Piece → Mode
  | code s => modeAfter .blank s.toList
  | name _ => .word []
  | quoted _ => .blank
  | expr _ => .number true

/-- Whether the piece is apart from what stands before it. -/
def follows (m : Mode) : Piece → Bool
  | code s => s.toList.head?.any m.endsBefore
  | quoted _ => m.endsBefore '"'
  | name _ | expr _ => m = .blank

def isOneLine : Piece → Bool
  | code s => !s.toList.contains '\n'
  | name _ | quoted _ | expr _ => true

end Piece

def pieceText (l : List Piece) : String := l.foldr (fun p s => p.text ++ s) ""

def fit : Mode → List Piece → Bool
  | m, [] => m.isOutside
  | m, p :: r => p.follows m && p.isOneLine && fit p.mode r

def startsPlain : List Piece → Bool
  | .code s :: _ => s.toList.head?.any fun c => !isBlank c
  | [] => false
  | _ => true

theorem isDigit_eq_false_of_isNameStart {c : Char} (h : FieldPath.isNameStart c = true) :
    c.isDigit = false := by
  unfold FieldPath.isNameStart at h
  simp only [Bool.or_eq_true, beq_iff_eq] at h
  obtain (halpha | rfl) | rfl := h
  · have halphanum : c.isAlphanum = true := by simp [Char.isAlphanum, halpha]
    have hdigit := (IsWord.digit_eq halphanum).1
    simp only [FieldPath.isNameStart, halpha, Bool.true_or] at hdigit
    simpa using hdigit.symm
  · rfl
  · rfl

theorem isBlank_eq_false_of_isNameStart {c : Char} (h : FieldPath.isNameStart c = true) :
    isBlank c = false := by
  by_contra hblank
  simp only [isBlank, Bool.not_eq_false, Bool.or_eq_true, decide_eq_true_eq] at hblank
  obtain (rfl | rfl) | rfl := hblank <;> exact absurd h (by decide)

theorem modeAfter_word {w r : List Char} (h : ∀ c ∈ r, FieldPath.isNameChar c = true) :
    modeAfter (.word w) r = .word (w ++ r) ∧ lex (.word w) r = [.word (String.ofList (w ++ r))] := by
  induction r generalizing w with
  | nil => simp [modeAfter, lex]
  | cons c r ih =>
    obtain ⟨hc, hr⟩ := List.forall_mem_cons.1 h
    have hstep : readChar (.word w) c = ([], .word (w ++ [c])) := by simp [readChar, hc]
    have hw : w ++ c :: r = w ++ [c] ++ r := by simp
    rw [lex_cons, hstep, hw]
    obtain ⟨hmode, hlex⟩ := ih (w := w ++ [c]) hr
    refine ⟨?_, hlex⟩
    rw [← hmode]
    simp [modeAfter, hstep]

theorem lex_name {s : String} (h : IsName s) :
    modeAfter .blank s.toList = .word s.toList ∧ lex .blank s.toList = [.word s] := by
  obtain ⟨c, r, hs, hc, hr⟩ := h.exists_toList
  have hstep : readChar .blank c = ([], .word [c]) := by
    simp [readChar, startToken, isDigit_eq_false_of_isNameStart hc, isNameChar_of_isNameStart hc]
  obtain ⟨hmode, hlex⟩ := modeAfter_word (w := [c]) hr
  rw [hs, lex_cons, hstep]
  refine ⟨?_, ?_⟩
  · simpa [modeAfter, hstep] using hmode
  · rw [List.nil_append, hlex, List.singleton_append, ← hs, String.ofList_toList]

theorem modeAfter_escaped (s rest : List Char) :
    modeAfter .literal (s.flatMap escapeChar ++ rest) = modeAfter .literal rest ∧
      lex .literal (s.flatMap escapeChar ++ rest) = lex .literal rest := by
  induction s with
  | nil => exact ⟨rfl, rfl⟩
  | cons c s ih =>
    rw [List.flatMap_cons, List.append_assoc]
    rcases escapeChar_cases c with ⟨e, hc, -, -⟩ | ⟨hc, hplain⟩
    · rw [hc]
      exact ih
    · have hstep : readChar .literal c = ([], .literal) := by
        simp only [List.mem_cons, not_or] at hplain
        simp [readChar, hplain.1, hplain.2.1]
      rw [hc, List.singleton_append, lex_cons, hstep]
      refine ⟨?_, ih.2⟩
      rw [← ih.1]
      simp [modeAfter, hstep]

theorem lex_quote (s : String) :
    modeAfter .blank (quote s).toList = .blank ∧ lex .blank (quote s).toList = [.literal] := by
  obtain ⟨hmode, hlex⟩ := modeAfter_escaped s.toList ['"']
  rw [quote, String.toList_ofList]
  exact ⟨hmode, hlex⟩

namespace Piece

variable {p : Piece}

structure Reads (p : Piece) : Prop where
  start : ∃ c r, p.text.toList = c :: r
  outside : (modeAfter .blank p.text.toList).isOutside = true
  apart : ∀ c, p.mode.endsBefore c = true → (modeAfter .blank p.text.toList).endsBefore c = true
  oneLine : '\n' ∉ p.text.toList
  lex_eq : lex .blank p.text.toList = p.tokens

theorem outside_of_endsBefore {m : Mode} {c : Char} (h : m.endsBefore c = true) :
    m.isOutside = true := by
  cases m <;> first | rfl | cases h

theorem endsBefore_of_number {m : Mode} (hm : m.isOutside = true) {e : Bool} {c : Char}
    (h : (Mode.number e).endsBefore c = true) : m.endsBefore c = true := by
  cases m with
  | blank => rfl
  | word w =>
    simp only [Mode.endsBefore, Bool.not_eq_true', Bool.or_eq_false_iff] at h ⊢
    exact h.1.1
  | number e => exact h
  | literal => cases hm
  | escape => cases hm

theorem isOutside_of_follows {m : Mode} (h : p.follows m = true) : m.isOutside = true := by
  cases p with
  | code s =>
    cases hs : s.toList with
    | nil => simp [follows, hs] at h
    | cons c r =>
      simp only [follows, hs, List.head?_cons, Option.any_some] at h
      exact outside_of_endsBefore h
  | quoted s => exact outside_of_endsBefore h
  | name s =>
    obtain rfl := of_decide_eq_true h
    rfl
  | expr s =>
    obtain rfl := of_decide_eq_true h
    rfl

theorem isOutside_of_fit {m : Mode} {l : List Piece} (h : fit m l = true) : m.isOutside = true := by
  cases l with
  | nil => exact h
  | cons p r =>
    simp only [fit, Bool.and_eq_true] at h
    exact isOutside_of_follows h.1.1

theorem endsBefore_of_follows {m m' : Mode} (hm : m'.isOutside = true)
    (hmm : ∀ c, m.endsBefore c = true → m'.endsBefore c = true) (h : p.follows m = true) :
    m'.EndsBefore p.text.toList := by
  refine ⟨hm, fun c r hs => hmm c ?_⟩
  cases p with
  | code s =>
    have hs : s.toList = c :: r := hs
    simpa only [follows, hs, List.head?_cons, Option.any_some] using h
  | quoted s =>
    rw [text, quote, String.toList_ofList] at hs
    obtain ⟨rfl, -⟩ := List.cons.inj hs
    exact h
  | name s =>
    obtain rfl := of_decide_eq_true h
    rfl
  | expr s =>
    obtain rfl := of_decide_eq_true h
    rfl

theorem reads (hsound : p.Sound) (hline : p.isOneLine = true) {m : Mode}
    (hfollows : p.follows m = true) (hmode : p.mode.isOutside = true) : p.Reads := by
  cases p with
  | code s =>
    cases hs : s.toList with
    | nil => simp [follows, hs] at hfollows
    | cons c r =>
      refine ⟨⟨c, r, hs⟩, hmode, fun d hd => hd, fun hbreak => ?_, rfl⟩
      have hmem : s.toList.contains '\n' = true := List.contains_iff_mem.2 hbreak
      simp only [isOneLine, hmem] at hline
      cases hline
  | name s =>
    obtain ⟨c, r, hs, hc, hr⟩ := IsName.exists_toList hsound
    obtain ⟨hmode, hlex⟩ := lex_name hsound
    refine ⟨⟨c, r, hs⟩, by rw [text, hmode]; rfl, fun d hd => ?_, fun hbreak => ?_, hlex⟩
    · rw [text, hmode]
      exact hd
    · exact absurd (IsName.isNameChar hsound _ hbreak) (by decide)
  | quoted s =>
    obtain ⟨hmode, hlex⟩ := lex_quote s
    refine ⟨⟨_, _, String.toList_ofList⟩, by rw [text, hmode]; rfl, fun d hd => ?_, ?_, hlex⟩
    · rw [text, hmode]
      rfl
    · rw [text, quote, String.toList_ofList]
      simpa using fun h => (lineBreak_not_mem_escaped s.toList _ h).1 rfl
  | expr s =>
    obtain ⟨⟨c, r, hs, -⟩, houtside, honeLine⟩ := hsound
    exact ⟨⟨c, r, hs⟩, houtside, fun d hd => endsBefore_of_number houtside hd, honeLine, rfl⟩

end Piece

theorem toList_pieceText_cons (p : Piece) (r : List Piece) :
    (pieceText (p :: r)).toList = p.text.toList ++ (pieceText r).toList := String.toList_append

theorem lex_pieceText {l : List Piece} {m m' : Mode} (hm : m'.isOutside = true)
    (hmm : ∀ c, m.endsBefore c = true → m'.endsBefore c = true) (hfit : fit m l = true)
    (hsound : ∀ p ∈ l, p.Sound) :
    lex m' (pieceText l).toList = lex m' [] ++ l.flatMap Piece.tokens ∧
      (modeAfter m' (pieceText l).toList).isOutside = true ∧ '\n' ∉ (pieceText l).toList := by
  induction l generalizing m m' with
  | nil => exact ⟨(List.append_nil _).symm, hm, List.not_mem_nil⟩
  | cons p r ih =>
    obtain ⟨hp, hr⟩ := List.forall_mem_cons.1 hsound
    simp only [fit, Bool.and_eq_true] at hfit
    obtain ⟨⟨hfollows, honeLine⟩, hfit⟩ := hfit
    have hreads := Piece.reads hp honeLine hfollows (Piece.isOutside_of_fit hfit)
    have hends := Piece.endsBefore_of_follows hm hmm hfollows
    obtain ⟨c, s, hs⟩ := hreads.start
    have hmode : modeAfter m' p.text.toList = modeAfter .blank p.text.toList :=
      modeAfter_of_endsBefore hends (by simp [hs])
    obtain ⟨hlex, houtside, hbreak⟩ := ih hreads.outside hreads.apart hfit hr
    rw [toList_pieceText_cons, modeAfter_append, hmode]
    refine ⟨?_, houtside, ?_⟩
    · rw [← hmode] at hlex
      rw [lex_append_of_eq hlex, lex_of_endsBefore hends, hreads.lex_eq, List.flatMap_cons,
        List.append_assoc]
    · rw [List.mem_append, not_or]
      exact ⟨hreads.oneLine, hbreak⟩

/-- Pieces that are apart from each other make a text of their tokens. -/
theorem tokens_pieceText {l : List Piece} (hfit : fit .blank l = true) (hsound : ∀ p ∈ l, p.Sound) :
    tokens (pieceText l) = l.flatMap Piece.tokens :=
  (lex_pieceText rfl (fun _ h => h) hfit hsound).1

theorem whole_pieceText {l : List Piece} (hplain : startsPlain l = true) (hfit : fit .blank l = true)
    (hsound : ∀ p ∈ l, p.Sound) : Whole (pieceText l).toList := by
  obtain ⟨-, houtside, honeLine⟩ := lex_pieceText rfl (fun _ h => h) hfit hsound
  refine ⟨?_, houtside, honeLine⟩
  cases l with
  | nil => cases hplain
  | cons p r =>
    suffices ∃ c s, p.text.toList = c :: s ∧ isBlank c = false by
      obtain ⟨c, s, hs, hc⟩ := this
      exact ⟨c, s ++ (pieceText r).toList, by rw [toList_pieceText_cons, hs, List.cons_append], hc⟩
    have hp := hsound p List.mem_cons_self
    cases p with
    | code s =>
      cases hs : s.toList with
      | nil => simp [startsPlain, hs] at hplain
      | cons c s => exact ⟨c, s, hs, by simpa [startsPlain, hs] using hplain⟩
    | name s =>
      obtain ⟨c, s, hs, hc, -⟩ := IsName.exists_toList hp
      exact ⟨c, s, hs, isBlank_eq_false_of_isNameStart hc⟩
    | quoted s => exact ⟨'"', _, String.toList_ofList, rfl⟩
    | expr s => exact hp.start

/-- A text that goes on a number without an end. -/
structure GoesOn (s : List Char) : Prop where
  mode : modeAfter (.number false) s = .number false
  lex_eq : ∀ rest, lex (.number false) (s ++ rest) = lex (.number false) rest
  oneLine : '\n' ∉ s

theorem goesOn_nil : GoesOn [] := ⟨rfl, fun _ => rfl, List.not_mem_nil⟩

theorem GoesOn.append {s t : List Char} (hs : GoesOn s) (ht : GoesOn t) : GoesOn (s ++ t) where
  mode := by rw [modeAfter_append, hs.mode, ht.mode]
  lex_eq rest := by rw [List.append_assoc, hs.lex_eq, ht.lex_eq]
  oneLine := by
    rw [List.mem_append, not_or]
    exact ⟨hs.oneLine, ht.oneLine⟩

theorem readChar_digit {c : Char} (h : c.isDigit = true) :
    readChar (.number false) c = ([], .number false) ∧ readChar .blank c = ([], .number false) := by
  have hname : FieldPath.isNameChar c = true := by
    simp [FieldPath.isNameChar, Char.isAlphanum, h]
  have hexponent : c ≠ 'e' ∧ c ≠ 'E' := by
    constructor <;> (rintro rfl; cases h)
  simp [readChar, startToken, hname, h, hexponent]

theorem goesOn_digit {c : Char} (h : c.isDigit = true) : GoesOn [c] where
  mode := by simp [modeAfter, (readChar_digit h).1]
  lex_eq rest := by rw [List.singleton_append, lex_cons, (readChar_digit h).1, List.nil_append]
  oneLine := by
    rw [List.mem_singleton]
    rintro rfl
    cases h

theorem goesOn_digits {ds : List Char} (h : ∀ c ∈ ds, c.isDigit = true) : GoesOn ds := by
  induction ds with
  | nil => exact goesOn_nil
  | cons c ds ih =>
    obtain ⟨hc, hds⟩ := List.forall_mem_cons.1 h
    exact (goesOn_digit hc).append (ih hds)

theorem goesOn_fractionText {fraction : Option (List Char)}
    (h : ∀ ds, fraction = some ds → IsDigits ds) : GoesOn (Numeral.fractionText fraction) := by
  cases fraction with
  | none => exact goesOn_nil
  | some ds =>
    have hpoint : GoesOn ['.'] := ⟨rfl, fun _ => rfl, by decide⟩
    exact hpoint.append (goesOn_digits (h ds rfl).2)

theorem goesOn_exponentText (exponent : Option Int) : GoesOn (Numeral.exponentText exponent) := by
  cases exponent with
  | none => exact goesOn_nil
  | some e =>
    have hdigits : GoesOn (digitsOf e.natAbs) := goesOn_digits fun _ => isDigit_of_mem_digitsOf
    have hplus : GoesOn ['e', '+'] := ⟨rfl, fun _ => rfl, by decide⟩
    have hminus : GoesOn ['e', '-'] := ⟨rfl, fun _ => rfl, by decide⟩
    by_cases he : 0 ≤ e
    · simpa [Numeral.exponentText, he] using hplus.append hdigits
    · simpa [Numeral.exponentText, he] using hminus.append hdigits

theorem lex_digit_cons {c : Char} {s : List Char} (hc : c.isDigit = true) (hs : GoesOn s) :
    Whole (c :: s) ∧ lex .blank (c :: s) = [.number] := by
  have hmode : modeAfter .blank (c :: s) = .number false := by
    rw [← hs.mode]
    simp only [modeAfter, List.foldl_cons, (readChar_digit hc).2]
  refine ⟨⟨⟨c, s, rfl, ?_⟩, by rw [hmode]; rfl, ?_⟩, ?_⟩
  · by_contra hblank
    simp only [isBlank, Bool.not_eq_false, Bool.or_eq_true, decide_eq_true_eq] at hblank
    obtain (rfl | rfl) | rfl := hblank <;> cases hc
  · exact ((goesOn_digit hc).append hs).oneLine
  · have hlex := hs.lex_eq []
    rw [List.append_nil] at hlex
    rw [lex_cons, (readChar_digit hc).2, hlex]
    rfl

theorem lex_numeral {n : Numeral} (h : n.WellFormed) : Whole n.text ∧
    lex .blank n.text = (if n.negative then [.symbol '-'] else []) ++ [.number] := by
  obtain ⟨c, ds, hwhole⟩ := List.exists_cons_of_ne_nil h.whole.1
  obtain ⟨hc, hds⟩ := List.forall_mem_cons.1 (hwhole ▸ h.whole.2)
  have hmagnitude : n.magnitudeText =
      c :: (ds ++ (Numeral.fractionText n.fraction ++ Numeral.exponentText n.exponent)) := by
    rw [Numeral.magnitudeText, hwhole, List.cons_append]
  obtain ⟨hw, hlex⟩ := lex_digit_cons hc ((goesOn_digits hds).append
    ((goesOn_fractionText h.fraction).append (goesOn_exponentText n.exponent)))
  rw [← hmagnitude] at hw hlex
  unfold Numeral.text
  cases n.negative with
  | false => exact ⟨hw, hlex⟩
  | true =>
    refine ⟨⟨⟨'-', _, rfl, rfl⟩, hw.outside, ?_⟩, ?_⟩
    · exact List.not_mem_cons_of_ne_of_not_mem (by decide) hw.oneLine
    · exact congrArg (.symbol '-' :: ·) hlex

theorem lex_number (n : Number) : Whole n.text.toList ∧
    ∃ sign, tokens n.text = sign ++ [.number] ∧ (sign = [] ∨ sign = [.symbol '-']) := by
  obtain ⟨m, htext, hm⟩ := n.exists_numeral
  obtain ⟨hwhole, hlex⟩ := lex_numeral hm
  rw [tokens, htext]
  refine ⟨hwhole, _, hlex, ?_⟩
  cases m.negative with
  | false => exact .inl rfl
  | true => exact .inr rfl

end AdapterForge.Java

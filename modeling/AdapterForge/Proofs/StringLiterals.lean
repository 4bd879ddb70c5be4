import Mathlib.Algebra.Ring.Parity
import Mathlib.Data.List.Induction
import AdapterForge.Java.Literal

/-!
String literals of Java. Quoting replaces five characters by escapes, and what stands between the
quotes reads back as the quoted string. A backslash is escaped itself, or no escape starts with it,
when an odd number of backslashes stands before it.
-/
namespace AdapterForge.Java

def replaceChar (c : Char) (t s : List Char) : List Char := s.flatMap fun d => if d = c then t else [d]

def escapes : List (Char × List Char) :=
  [('\\', ['\\', '\\']), ('"', ['\\', '"']), ('\n', ['\\', 'n']), ('\r', ['\\', 'r']),
    ('\t', ['\\', 't'])]

/-- All of the replacements, each in the text that the one before has left. -/
def replacedInTurn (replacements : List (Char × List Char)) (s : List Char) : List Char :=
  replacements.foldl (fun s r => replaceChar r.1 r.2 s) s

theorem replacedInTurn_flatMap (replacements : List (Char × List Char)) (s : List Char) :
    replacedInTurn replacements s = s.flatMap fun c => replacedInTurn replacements [c] := by
  induction replacements generalizing s with
  | nil => exact (List.flatMap_singleton' s).symm
  | cons r replacements ih =>
    change replacedInTurn replacements (replaceChar r.1 r.2 s) = _
    rw [ih, replaceChar, List.flatMap_assoc]
    congr 1
    funext c
    rw [← ih]
    change _ = replacedInTurn replacements (replaceChar r.1 r.2 [c])
    simp [replaceChar]

theorem replacedInTurn_singleton (c : Char) : replacedInTurn escapes [c] = escapeChar c := by
  by_cases hbackslash : c = '\\'
  · subst hbackslash; rfl
  by_cases hquote : c = '"'
  · subst hquote; rfl
  by_cases hfeed : c = '\n'
  · subst hfeed; rfl
  by_cases hreturn : c = '\r'
  · subst hreturn; rfl
  by_cases htab : c = '\t'
  · subst htab; rfl
  simp [replacedInTurn, escapes, replaceChar, escapeChar, hbackslash, hquote, hfeed, hreturn, htab]

/-- One escape for each character is what the replacements in turn come to: the backslashes that the
later ones put in are not doubled. -/
theorem replacedInTurn_escapes (s : List Char) : replacedInTurn escapes s = s.flatMap escapeChar := by
  rw [replacedInTurn_flatMap]
  congr 1
  funext c
  exact replacedInTurn_singleton c

def endingBackslashes (s : List Char) : Nat := (s.reverse.takeWhile (· = '\\')).length

theorem endingBackslashes_concat (s : List Char) (c : Char) :
    endingBackslashes (s ++ [c]) = if c = '\\' then endingBackslashes s + 1 else 0 := by
  by_cases h : c = '\\' <;> simp [endingBackslashes, h]

def escapeStep (escaped : Bool) (c : Char) : Bool := c = '\\' && !escaped

theorem odd_endingBackslashes_iff (s : List Char) :
    Odd (endingBackslashes s) ↔ s.foldl escapeStep false = true := by
  induction s using List.reverseRecOn with
  | nil => decide
  | append_singleton s c ih =>
    rw [endingBackslashes_concat, List.foldl_append, List.foldl_cons, List.foldl_nil, escapeStep]
    by_cases h : c = '\\'
    · simp [h, Nat.odd_add_one, ih]
    · simp [h]

/-- What may stand between the quotes of a literal: the literal stays on its line, the quotes inside
it are escaped and the last one is not, and no backslash starts the code of a character. -/
structure IsLiteralBody (body : List Char) : Prop where
  noLineFeed : '\n' ∉ body
  noCarriageReturn : '\r' ∉ body
  quotesEscaped : ∀ before after, body = before ++ '"' :: after → Odd (endingBackslashes before)
  closed : ¬ Odd (endingBackslashes body)
  noUnicodeEscape : ∀ before after, body = before ++ '\\' :: 'u' :: after →
    Odd (endingBackslashes before)

def escaped? : Char → Option Char
  | '\\' => some '\\'
  | '"' => some '"'
  | 'n' => some '\n'
  | 'r' => some '\r'
  | 't' => some '\t'
  | _ => none

/-- The string that the inside of a literal denotes. -/
def denoted? : List Char → Option (List Char)
  | [] => some []
  | ['\\'] => none
  | '\\' :: c :: r => do return (← escaped? c) :: (← denoted? r)
  | c :: r => if c = '"' ∨ c = '\n' ∨ c = '\r' then none else do return c :: (← denoted? r)

theorem escapeChar_cases (c : Char) :
    (∃ e, escapeChar c = ['\\', e] ∧ escaped? e = some c ∧ e ∉ ['\n', '\r', 'u']) ∨
      escapeChar c = [c] ∧ c ∉ ['\\', '"', '\n', '\r'] := by
  by_cases hbackslash : c = '\\'
  · subst hbackslash; exact .inl ⟨'\\', rfl, rfl, by decide⟩
  by_cases hquote : c = '"'
  · subst hquote; exact .inl ⟨'"', rfl, rfl, by decide⟩
  by_cases hfeed : c = '\n'
  · subst hfeed; exact .inl ⟨'n', rfl, rfl, by decide⟩
  by_cases hreturn : c = '\r'
  · subst hreturn; exact .inl ⟨'r', rfl, rfl, by decide⟩
  by_cases htab : c = '\t'
  · subst htab; exact .inl ⟨'t', rfl, rfl, by decide⟩
  right
  simp [escapeChar, hbackslash, hquote, hfeed, hreturn]

theorem lineBreak_not_mem_escaped (s : List Char) :
    ∀ c ∈ s.flatMap escapeChar, c ≠ '\n' ∧ c ≠ '\r' := by
  intro c hc
  obtain ⟨d, -, hc⟩ := List.mem_flatMap.1 hc
  rcases escapeChar_cases d with ⟨e, hd, -, he⟩ | ⟨hd, hplain⟩
  · rw [hd] at hc
    simp only [List.mem_cons, List.not_mem_nil, or_false, not_or] at hc he
    rcases hc with rfl | rfl
    · decide
    · exact ⟨he.1, he.2.1⟩
  · rw [hd, List.mem_singleton] at hc
    subst hc
    simp only [List.mem_cons, List.not_mem_nil, or_false, not_or] at hplain
    exact ⟨hplain.2.2.1, hplain.2.2.2⟩

theorem foldl_escapeStep_escaped (s : List Char) :
    (s.flatMap escapeChar).foldl escapeStep false = false := by
  induction s with
  | nil => rfl
  | cons c s ih =>
    rw [List.flatMap_cons, List.foldl_append]
    rcases escapeChar_cases c with ⟨e, hc, -, -⟩ | ⟨hc, hplain⟩
    · simpa [hc, escapeStep] using ih
    · simp only [List.mem_cons, not_or] at hplain
      simpa [hc, escapeStep, hplain.1] using ih

/-- Only the second character of an escape is escaped: a quote always is, and a backslash that is not
starts one of the five escapes. -/
theorem escaped_split {s before after : List Char} {c : Char}
    (h : s.flatMap escapeChar = before ++ c :: after) :
    before.foldl escapeStep false = true ∨
      c ≠ '"' ∧ (c = '\\' → ∃ e rest, after = e :: rest ∧ e ≠ 'u') := by
  induction s generalizing before with
  | nil => cases before <;> cases h
  | cons d s ih =>
    rw [List.flatMap_cons] at h
    rcases escapeChar_cases d with ⟨e, hd, -, he⟩ | ⟨hd, hplain⟩
    · rw [hd] at h
      rcases before with - | ⟨x, - | ⟨y, before⟩⟩
      · obtain ⟨rfl, rfl⟩ := List.cons.inj h
        simp only [List.mem_cons, not_or] at he
        exact .inr ⟨by decide, fun _ => ⟨e, _, rfl, he.2.2.1⟩⟩
      · obtain ⟨rfl, -⟩ := List.cons.inj h
        exact .inl (by decide)
      · simp only [List.cons_append, List.nil_append, List.cons.injEq] at h
        obtain ⟨rfl, rfl, h⟩ := h
        simpa [escapeStep] using ih h
    · rw [hd] at h
      simp only [List.mem_cons, List.not_mem_nil, or_false, not_or] at hplain
      rcases before with - | ⟨x, before⟩
      · obtain ⟨rfl, -⟩ := List.cons.inj h
        exact .inr ⟨hplain.2.1, fun hc => absurd hc hplain.1⟩
      · simp only [List.cons_append, List.nil_append, List.cons.injEq] at h
        obtain ⟨rfl, h⟩ := h
        simpa [escapeStep, hplain.1] using ih h

theorem isLiteralBody_escaped (s : List Char) : IsLiteralBody (s.flatMap escapeChar) where
  noLineFeed := fun h => (lineBreak_not_mem_escaped s _ h).1 rfl
  noCarriageReturn := fun h => (lineBreak_not_mem_escaped s _ h).2 rfl
  quotesEscaped := by
    intro before after h
    rw [odd_endingBackslashes_iff]
    exact (escaped_split h).resolve_right fun hquote => hquote.1 rfl
  closed := by
    rw [odd_endingBackslashes_iff, foldl_escapeStep_escaped]
    decide
  noUnicodeEscape := by
    intro before after h
    rw [odd_endingBackslashes_iff]
    refine (escaped_split h).resolve_right fun hbackslash => ?_
    obtain ⟨e, rest, hafter, he⟩ := hbackslash.2 rfl
    exact he (List.cons.inj hafter).1.symm

theorem denoted?_escaped (s : List Char) : denoted? (s.flatMap escapeChar) = some s := by
  induction s with
  | nil => rfl
  | cons c s ih =>
    rw [List.flatMap_cons]
    rcases escapeChar_cases c with ⟨e, hc, he, -⟩ | ⟨hc, hplain⟩
    · rw [hc, List.cons_append, List.singleton_append, denoted?, he, ih]
      rfl
    · simp only [List.mem_cons, List.not_mem_nil, or_false, not_or] at hplain
      rw [hc, List.singleton_append, denoted?, if_neg (by tauto), ih]
      · rfl
      · exact fun hbackslash => absurd hbackslash hplain.1
      · exact fun d r hbackslash => absurd hbackslash hplain.1

/-- A quoted string is a literal that denotes it. -/
theorem quote_denotes (s : String) :
    ∃ body, (quote s).toList = '"' :: (body ++ ['"']) ∧ IsLiteralBody body ∧
      denoted? body = some s.toList ∧ body = replacedInTurn escapes s.toList := by
  refine ⟨s.toList.flatMap escapeChar, ?_, isLiteralBody_escaped _, denoted?_escaped _, ?_⟩
  · rw [quote, String.toList_ofList]
  · exact (replacedInTurn_escapes _).symm

end AdapterForge.Java

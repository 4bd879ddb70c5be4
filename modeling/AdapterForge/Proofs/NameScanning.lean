import AdapterForge.Proofs.ScanSteps

/-!
A value on the line of its key, with settings behind it: a plain line is scanned as it stands, and no
other text is the text of the node that the scan finds there.
-/
namespace AdapterForge.Yaml

open Token

variable {r r' : Reader} {w rest : List Char}

theorem startsPlain_brokenOff (some_ : w ≠ []) : startsPlain (w ++ brokenOff rest) = startsPlain w := by
  match w with
  | c :: w => rw [List.cons_append, startsPlain, startsGap_brokenOff, startsPlain]

/-- Text of a line is left in front of what follows the line, as long as the line is not left. -/
theorem Reader.Within.suffix (h : r'.Within r) (here : r.rest = w ++ brokenOff rest) :
    ∃ w', w' <:+ w ∧ r'.rest = w' ++ brokenOff rest := by
  obtain ⟨l, parts, line⟩ := h
  rw [here] at parts
  obtain ⟨m, rfl, same⟩ | ⟨m, rfl, same⟩ := List.append_eq_append_iff.1 parts
  · match m with
    | [] => exact ⟨[], List.nil_suffix, by simpa using same.symm⟩
    | c :: m =>
      obtain rfl : '\n' = c := (List.cons.inj same).1
      exact absurd (List.mem_append_right w (List.mem_cons_self ..)) line
  · exact ⟨m, List.suffix_append l m, same⟩

section Plain

variable {inFlow broken : Bool} {indent : Int} {fuel : Nat} {text t run : List Char} {g : Gap}
  {c : Char}

theorem plainRun_head {l : List Char} (h : plainRun inFlow (c :: l) = some (run, rest)) :
    run = [] ∨ run.head? = some c := by
  rw [plainRun] at h
  split at h
  · exact .inl (Prod.mk.inj (Option.some.inj h)).1.symm
  split at h
  · cases h
  split at h
  · exact .inl (Prod.mk.inj (Option.some.inj h)).1.symm
  · obtain ⟨p, -, same⟩ := Option.map_eq_some_iff.1 h
    rw [← (Prod.mk.inj same).1]
    exact .inr rfl

theorem plain?_begins (h : plain? inFlow indent fuel text g r = some (t, broken, r')) : text <+: t := by
  induction fuel generalizing text g r with
  | zero =>
    obtain ⟨rfl, -⟩ := Prod.mk.inj (Option.some.inj h)
    exact List.prefix_refl _
  | succ fuel ih =>
    rw [plain?] at h
    split at h
    · obtain ⟨rfl, -⟩ := Prod.mk.inj (Option.some.inj h)
      exact List.prefix_refl _
    split at h
    · cases h
    next run _ _ =>
    have longer : text <+: if run.isEmpty then text else text ++ g.text ++ run := by
      split
      · exact List.prefix_refl _
      · rw [List.append_assoc]
        exact List.prefix_append _ _
    simp only at h
    split at h
    · split at h
      · cases h
      split at h
      · obtain ⟨rfl, -⟩ := Prod.mk.inj (Option.some.inj h)
        exact longer
      · exact longer.trans (ih h)
    · obtain ⟨rfl, -⟩ := Prod.mk.inj (Option.some.inj h)
      exact longer

/-- A plain scalar that is not empty starts with the character that it is found at. -/
theorem plain?_head (h : plain? inFlow indent fuel [] .none r = some (t, broken, r'))
    (here : r.rest = c :: rest) (solid : isGap c = false) : t = [] ∨ t.head? = some c := by
  cases fuel with
  | zero => exact .inl (Prod.mk.inj (Option.some.inj h)).1.symm
  | succ fuel =>
    rw [plain?] at h
    split at h
    · exact .inl (Prod.mk.inj (Option.some.inj h)).1.symm
    split at h
    · cases h
    next run left read =>
    rw [here] at read
    obtain rfl | first := plainRun_head read
    · have stop : ¬(r.skip 0).rest.head?.any isGap := by
        simp [Reader.skip, here, solid]
      simp only [List.isEmpty_nil, if_true, List.length_nil, stop] at h
      exact .inl (Prod.mk.inj (Option.some.inj h)).1.symm
    · right
      cases run with
      | nil => cases first
      | cons d run =>
        obtain rfl : d = c := Option.some.inj first
        have starts : d :: run <+: t := by
          simp only [List.isEmpty_cons, Bool.false_eq_true, if_false, List.nil_append] at h
          split at h
          · split at h
            · cases h
            split at h
            · obtain ⟨rfl, -⟩ := Prod.mk.inj (Option.some.inj h)
              exact List.prefix_refl _
            · exact plain?_begins h
          · obtain ⟨rfl, -⟩ := Prod.mk.inj (Option.some.inj h)
            exact List.prefix_refl _
        obtain ⟨more, rfl⟩ := starts
        rfl

end Plain

namespace Scan

variable {fuel : Nat} {s s' : Scan}

section Gaps

/-- What follows a line: an empty line, a comment and a line that starts with a letter. -/
def settingsBehind (comment more : List Char) : List Char :=
  brokenOff (comment ++ '\n' :: 'o' :: more)

theorem length_settingsBehind (comment more : List Char) : 5 ≤ (settingsBehind comment more).length := by
  simp only [settingsBehind, brokenOff, List.length_cons, List.length_append]
  omega

def passed (s : Scan) : Reader :=
  (s.reader.skipMark.run fun c => c = ' ' || ((0 < s.flow || !s.keyAllowed) && c = '\t')).2.skipComment

theorem skipGap_succ (fuel : Nat) (s : Scan) :
    s.skipGap (fuel + 1) =
      if s.passed.atBreak then
        skipGap fuel { s with reader := s.passed.skipBreak, keyAllowed := s.keyAllowed || s.flow == 0 }
      else { s with reader := s.passed } := rfl

theorem passed_within (s : Scan) : s.passed.Within s.reader := by
  have mark : s.reader.skipMark.Within s.reader := by
    rw [Reader.skipMark]
    split
    · next lead => exact .skip (head?_of_looksAt lead.2) (by decide)
    · exact .refl _
  have blanks := (Reader.Within.run s.reader.skipMark
    (p := fun c => c = ' ' || ((0 < s.flow || !s.keyAllowed) && c = '\t')) (by simp)).trans mark
  rw [passed, Reader.skipComment]
  split
  · exact (Reader.Within.run _ rfl).trans blanks
  · exact blanks

/-- Nothing is passed over in front of a character that neither is a blank nor starts a comment. -/
theorem passed_solid {c : Char} (here : s.reader.rest = c :: rest) (solid : isBlank c = false)
    (mark : c ≠ '\ufeff') (comment : c ≠ '#') : s.passed.rest = c :: rest := by
  simp only [isBlank, Bool.or_eq_false_iff, decide_eq_false_iff_not] at solid
  have lead : s.reader.skipMark = s.reader := by
    simp [Reader.skipMark, Reader.looksAt, Reader.head?, here, mark]
  simp [passed, lead, Reader.run, here, solid, Reader.skip, Reader.skipComment, Reader.looksAt,
    Reader.head?, comment]

theorem passed_comment {comment : List Char} {c : Char} (line : comment.all (!isBreak ·) = true)
    (ends : isBreak c = true) (here : s.reader.rest = '#' :: (comment ++ c :: rest)) :
    s.passed.rest = c :: rest := by
  have lead : s.reader.skipMark = s.reader := by
    simp [Reader.skipMark, Reader.looksAt, Reader.head?, here]
  have whole : ('#' :: (comment ++ c :: rest)).takeWhile (!isBreak ·) = '#' :: comment := by
    rw [← List.cons_append, List.takeWhile_append_of_pos, List.takeWhile_cons_of_neg, List.append_nil]
    · simp [ends]
    · exact List.all_eq_true.1 line
  simp [passed, lead, Reader.run, here, Reader.skip, Reader.skipComment, Reader.looksAt, Reader.head?,
    whole]

theorem skipGap_break (fuel : Nat) (ends : s.passed.rest = '\n' :: rest) :
    ∃ s' : Scan, s'.reader.rest = rest ∧ s.skipGap (fuel + 1) = s'.skipGap fuel := by
  refine ⟨{ s with reader := s.passed.skipBreak, keyAllowed := s.keyAllowed || s.flow == 0 }, ?_, ?_⟩
  · simp [Reader.skipBreak, ends, isBreak]
  · rw [skipGap_succ, if_pos]
    simp [Reader.atBreak, ends, isBreak]

variable {comment more : List Char} (line : comment.all (!isBreak ·) = true)

include line

theorem skipGap_off (here : s.reader.rest = '\n' :: '#' :: (comment ++ '\n' :: 'o' :: more)) :
    (s.skipGap (fuel + 3)).reader.rest = 'o' :: more := by
  have first := passed_solid here rfl (by decide) (by decide)
  obtain ⟨s₁, here₁, same₁⟩ := skipGap_break (fuel + 2) first
  have second := passed_comment line rfl here₁
  obtain ⟨s₂, here₂, same₂⟩ := skipGap_break (fuel + 1) second
  have third := passed_solid here₂ rfl (by decide) (by decide)
  rw [same₁, same₂, skipGap_succ, if_neg (by simp [Reader.atBreak, third, isBreak])]
  exact third

/-- White space ends within the line, or the next character is the first of the settings. -/
theorem skipGap_inside (here : s.reader.rest = w ++ settingsBehind comment more)
    (fits : s.reader.rest.length ≤ fuel) :
    (s.skipGap fuel).reader.rest = 'o' :: more ∨
      ∃ w', w' ≠ [] ∧ w' <:+ w ∧ (s.skipGap fuel).reader.rest = w' ++ settingsBehind comment more := by
  induction fuel generalizing s w with
  | zero => simp [here, settingsBehind, brokenOff] at fits
  | succ fuel ih =>
    obtain ⟨w₁, inside, left⟩ := s.passed_within.suffix here
    rw [skipGap_succ]
    cases ends : s.passed.atBreak with
    | false =>
      refine .inr ⟨w₁, ?_, inside, left⟩
      rintro rfl
      simp [Reader.atBreak, left, brokenOff, isBreak] at ends
    | true =>
      rw [if_pos rfl]
      have long : 5 ≤ s.reader.rest.length := by
        rw [here, List.length_append]
        exact Nat.le_add_left_of_le (length_settingsBehind comment more)
      -- an empty line, the comment and the settings are still to be passed over
      obtain ⟨fuel, rfl⟩ := Nat.exists_eq_add_of_le' (show 3 ≤ fuel by omega)
      cases w₁ with
      | nil =>
        refine .inl (skipGap_off line ?_)
        simp [Reader.skipBreak, left, brokenOff, isBreak]
      | cons c w₁ =>
        have gap : isBreak c = true := by
          simpa [Reader.atBreak, left] using ends
        obtain off | ⟨t, w₂, parts, some_, left₂⟩ := skipBreak_brokenOff gap left
        · exact .inl (skipGap_off line off)
        have inside₂ : w₂ <:+ w := (parts ▸ List.suffix_append t w₂).trans inside
        have fits₂ : s.passed.skipBreak.rest.length ≤ fuel + 3 := by
          have total := congrArg List.length parts
          have shorter := inside.length_le
          simp only [left₂, here, settingsBehind, List.length_append, List.length_cons]
            at total shorter fits ⊢
          omega
        obtain off | ⟨w', some', inside', left'⟩ := ih (w := w₂) (s :=
          { s with reader := s.passed.skipBreak, keyAllowed := s.keyAllowed || s.flow == 0 }) left₂ fits₂
        · exact .inl off
        · exact .inr ⟨w', some', inside'.trans inside₂, left'⟩

end Gaps

section Values

variable {ts us : List Token} {name : List Char} {c : Char}

/-- The signs that scalars of other styles start with, and the one that escapes start with. -/
def isSign (c : Char) : Bool := "'\\|>".toList.contains c

theorem nodeText?_of_tokens (before : (unkeyed s.tokens).all isProperty = true)
    (tokens : unkeyed s'.tokens = unkeyed s.tokens ++ us) (ends : us.all isProperty = false)
    (out : s'.run? fuel = some ts) : nodeText? (unkeyed ts) = nodeText? us :=
  nodeText?_settled before ends (tokens ▸ run?_tokens out)

/-- A text with fewer characters of a kind than a part of the value is not the value. -/
theorem ne_of_fewer {p : Char → Bool} {text : List Char} (blank : p ' ' = false)
    (inside : w <:+ ' ' :: name) (fewer : text.countP p < w.countP p) : text ≠ name := by
  rintro rfl
  have part := inside.sublist.countP_le (p := p)
  rw [List.countP_cons, blank] at part
  simp only [Bool.false_eq_true, if_false] at part
  omega

theorem ne_of_quoted {single : Bool} {n : Nat} {text : List Char}
    (unsigned : rest.all (!isSign ·) = true) (sign : c = if single then '\'' else '"')
    (here : r.rest = c :: w ++ brokenOff rest) (inside : c :: w <:+ ' ' :: name)
    (read : Yaml.quoted? single n [] (r.skip 1) = some (text, r')) : text ≠ name := by
  have marks := quoted?_marks read
  have behind : (brokenOff rest).countP (isEscape single) = 0 := by
    rw [List.countP_eq_zero]
    intro d hd escape
    have sign : isSign d = true := by
      cases single <;>
        simp only [isEscape, Bool.false_eq_true, if_true, if_false, decide_eq_true_eq] at escape <;>
        subst escape <;> rfl
    simp only [brokenOff, List.mem_cons] at hd
    obtain rfl | rfl | rfl | hd := hd
    · cases sign
    · cases sign
    · cases sign
    · have none_ := List.all_eq_true.1 unsigned d hd
      rw [sign] at none_
      cases none_
  -- the opening sign is lost, and what is left can spell no more marks than it has escapes
  have escapes : w.countP (isEscape single) ≤ w.countP (isMark single) := by
    apply List.countP_mono_left
    intro d _ escape
    cases single <;> simp_all [isEscape, isMark]
  have first : isMark single c = true := by
    cases single <;> simp [isMark, sign]
  refine ne_of_fewer (p := isMark single) (isMark_of_isGap single ' ' rfl) inside ?_
  simp only [Reader.skip, here, List.cons_append, List.drop_succ_cons, List.drop_zero,
    List.countP_append, behind, List.countP_nil] at marks
  rw [List.countP_cons_of_pos first]
  omega

theorem ne_of_block {folded : Bool} {parent : Int} {text : List Char}
    (unsigned : rest.all (!isSign ·) = true) (sign : c = if folded then '>' else '|')
    (here : r.rest = c :: w ++ brokenOff rest) (inside : c :: w <:+ ' ' :: name)
    (read : Yaml.block? folded parent (r.skip 1) = some (text, r')) : text ≠ name := by
  have isOne : isSign c = true ∧ isGap c = false ∧ c ≠ ' ' ∧ c ≠ '\n' ∧ c ≠ '#' := by
    cases folded <;> subst sign <;> decide
  obtain ⟨isOne, solid, blank, feed, hash⟩ := isOne
  -- the opening sign is lost, and the settings have no other to make up for it
  have count := block?_count (p := (· == c)) (fun d gap => by
    rw [beq_eq_false_iff_ne]
    rintro rfl
    rw [solid] at gap
    cases gap) read
  have behind : (brokenOff rest).countP (· == c) = 0 := by
    rw [List.countP_eq_zero]
    intro d hd same
    obtain rfl := eq_of_beq same
    simp only [brokenOff, List.mem_cons, feed, hash, false_or] at hd
    have none_ := List.all_eq_true.1 unsigned d hd
    rw [isOne] at none_
    cases none_
  refine ne_of_fewer (p := (· == c)) (beq_eq_false_iff_ne.2 blank.symm) inside ?_
  simp only [Reader.skip, here, List.cons_append, List.drop_succ_cons, List.drop_zero,
    List.countP_append, behind] at count
  rw [List.countP_cons_of_pos (p := (· == c)) (beq_self_eq_true c)]
  omega

/-- What a scan does inside the value when the node there has the value as its text: it reads a plain
scalar, or it goes on with nothing but properties behind it. -/
theorem Step.value (step : Step s s' c (w ++ brokenOff rest)) (out : s'.run? fuel = some ts)
    (own : nodeText? (unkeyed ts) = some (String.ofList name))
    (before : (unkeyed s.tokens).all isProperty = true)
    (unsigned : rest.all (!isSign ·) = true) (here : s.reader.rest = c :: w ++ brokenOff rest)
    (inside : c :: w <:+ ' ' :: name) :
    (startsPlain (c :: w) = true ∧ ∃ broken, Yaml.plain? (0 < s.flow) (s.indent + 1)
        (s.reader.rest.length + 1) [] .none s.reader = some (name, broken, s'.reader)) ∨
      (c = '?' ∧ (s.keyAllowed = true ∨ 0 < s.flow) ∨ c = '&' ∨ c = '!') ∧
        (unkeyed s'.tokens).all isProperty = true ∧ s'.reader.Within s.reader := by
  have text {text : List Char} {style : Style}
      (tokens : unkeyed s'.tokens = unkeyed s.tokens ++ [.scalar (String.ofList text) style]) :
      text = name := by
    rw [nodeText?_of_tokens before tokens rfl out] at own
    exact String.ofList_injective (Option.some.inj own)
  obtain ⟨us, tokens, noText, ends⟩ | ⟨sign, allowed, tokens, left⟩ |
    ⟨sign, t, isProperty, tokens, left⟩ | ⟨starts, own', broken, read, tokens⟩ |
    ⟨single, sign, own', n, read, tokens⟩ | ⟨folded, sign, own', style, read, tokens⟩ := step
  case other =>
    rw [nodeText?_of_tokens before tokens ends out, noText] at own
    cases own
  case key =>
    refine .inr ⟨.inl ⟨sign, allowed⟩, by rw [tokens, before], ?_⟩
    rw [left]
    exact .skip (by rw [here]; rfl) (by rw [sign]; decide)
  case property =>
    refine .inr ⟨.inr sign, ?_, left⟩
    rw [tokens, List.all_append, before]
    simpa using isProperty
  case plain =>
    refine .inl ⟨?_, broken, text tokens ▸ read⟩
    rwa [← List.cons_append, startsPlain_brokenOff (List.cons_ne_nil c w)] at starts
  case quoted => exact absurd (text tokens) (ne_of_quoted unsigned sign here inside read)
  case block => exact absurd (text tokens) (ne_of_block unsigned sign here inside read)

/-- No block ends in front of a text. -/
theorem properties_of_arrived {keys : List (Option KeyPlace)} {text : String}
    (before : (unkeyed s.tokens).all isProperty = true) (own : nodeText? (unkeyed ts) = some text)
    (out : unkeyed (s.arrived keys).tokens <+: unkeyed ts) :
    (unkeyed (s.arrived keys).tokens).all isProperty = true := by
  obtain ⟨k, tokens⟩ := s.arrived_tokens keys
  rw [tokens, unkeyed_append] at out ⊢
  cases k with
  | zero => simpa [unkeyed] using before
  | succ k =>
    have ends : (unkeyed (List.replicate (k + 1) blockEnd)).all isProperty = false := rfl
    rw [nodeText?_settled before ends out] at own
    cases own

/-- The characters that a value may start with although no scalar starts there. -/
def leadsOff (c : Char) : Bool := isGap c || "#&!".toList.contains c

theorem not_leadsOff_of_startsPlain (h : startsPlain (c :: w) = true) : leadsOff c = false := by
  simp only [startsPlain, Bool.and_eq_true, Bool.not_eq_true'] at h
  obtain ⟨⟨solid, signs⟩, -⟩ := h
  rw [leadsOff, solid, Bool.false_or]
  simp only [List.contains_eq_mem, decide_eq_false_iff_not] at signs ⊢
  intro sign
  apply signs
  simp at sign ⊢
  grind

theorem isGap_of_startsPlain (h : startsPlain (c :: w) = true) : isGap c = false :=
  (Bool.or_eq_false_iff.1 (not_leadsOff_of_startsPlain h)).1

variable {comment more : List Char}

/-- The settings behind the value do not start with it. -/
theorem Step.settings (step : Step s s' 'o' more) (out : s'.run? fuel = some ts)
    (own : nodeText? (unkeyed ts) = some (String.ofList name))
    (before : (unkeyed s.tokens).all isProperty = true) (here : s.reader.rest = 'o' :: more) :
    name = [] ∨ name.head? = some 'o' := by
  obtain ⟨us, tokens, noText, ends⟩ | ⟨sign, -⟩ | ⟨sign, -⟩ | ⟨-, text, broken, read, tokens⟩ |
    ⟨single, sign, -⟩ | ⟨folded, sign, -⟩ := step
  case other =>
    rw [nodeText?_of_tokens before tokens ends out, noText] at own
    cases own
  case key => cases sign
  case property => obtain sign | sign := sign <;> cases sign
  case plain =>
    rw [nodeText?_of_tokens before tokens rfl out] at own
    obtain rfl := String.ofList_injective (Option.some.inj own)
    exact plain?_head read here rfl
  case quoted => cases single <;> cases sign
  case block => cases folded <;> cases sign

/-- No node has a text that starts where no scalar does. -/
theorem ne_of_leadsOff (line : comment.all (!isBreak ·) = true)
    (unsigned : (comment ++ '\n' :: 'o' :: more).all (!isSign ·) = true) (start : leadsOff c = true)
    (h : s.run? fuel = some ts) (before : (unkeyed s.tokens).all isProperty = true)
    (here : s.reader.rest = w ++ settingsBehind comment more) (inside : w <:+ ' ' :: c :: name) :
    nodeText? (unkeyed ts) ≠ some (String.ofList (c :: name)) := by
  -- while only properties are out, the scan is still within the value
  induction fuel generalizing s w with
  | zero => cases h
  | succ fuel ih =>
    intro own
    obtain ⟨keys, turn⟩ := turn_of_run? h
    have next := skipGap_inside line here (Nat.le_succ _)
    rw [← s.arrived_reader keys] at next
    obtain ⟨done, -⟩ | ⟨d, after, s', left, step, out⟩ := turn
    · rw [done] at next
      obtain off | ⟨w', -, -, off⟩ := next
      · cases off
      · simp [settingsBehind, brokenOff] at off
    have before' := properties_of_arrived before own (step.tokens_kept.trans (run?_tokens out))
    rw [left] at next
    obtain off | ⟨w', some', inside', off⟩ := next
    -- the first scalar is that of the settings, which start with another letter
    · obtain ⟨rfl, rfl⟩ := List.cons.inj off
      obtain none_ | first := step.settings out own before' left
      · cases none_
      · obtain rfl : c = 'o' := Option.some.inj first
        cases start
    · cases w' with
      | nil => exact absurd rfl some'
      | cons d' w' =>
        obtain ⟨rfl, rfl⟩ := List.cons.inj off
        obtain ⟨starts, broken, read⟩ | ⟨-, before'', within⟩ :=
          step.value out own before' unsigned left (inside'.trans inside)
        · obtain none_ | first := plain?_head read left (isGap_of_startsPlain starts)
          · cases none_
          · obtain rfl : c = d := Option.some.inj first
            rw [not_leadsOff_of_startsPlain starts] at start
            cases start
        · obtain ⟨w'', inside'', left'⟩ := within.suffix (w := d :: w') left
          exact ih out before'' left' (inside''.trans (inside'.trans inside)) own

def valueStart (rest : List Char) : Scan := ⟨⟨' ' :: rest, 0, 1, 5⟩, [], 0, 0, [-1], false, [none]⟩

def valueHere (rest : List Char) : Scan := ⟨⟨rest, 1, 1, 6⟩, [], 0, 0, [-1], false, [none]⟩

def settingsStart (rest : List Char) : Scan := ⟨⟨'#' :: rest, 0, 3, 0⟩, [], 0, 0, [-1], true, [none]⟩

theorem skipGap_valueStart (start : leadsOff c = false) (fuel : Nat) (l : List Char) :
    (valueStart (c :: l)).skipGap (fuel + 1) =
      valueHere (c :: l) := by
  simp only [leadsOff, isGap, Bool.or_eq_false_iff, List.contains_eq_mem] at start
  obtain ⟨⟨blank, ends⟩, signs⟩ := start
  have comment : c ≠ '#' := by
    rintro rfl
    simp at signs
  simp only [isBlank, Bool.or_eq_false_iff, decide_eq_false_iff_not] at blank
  have one : ' '.utf8Size = 1 := rfl
  have left : (valueStart (c :: l)).passed = ⟨c :: l, 1, 1, 6⟩ := by
    simp [passed, valueStart, Reader.skipMark, Reader.run, blank, Reader.skip, octetLength, one,
      Reader.skipComment, Reader.looksAt, Reader.head?, comment]
  rw [skipGap_succ, left, if_neg (by simp [Reader.atBreak, ends])]
  rfl

theorem arrived_valueStart (start : leadsOff c = false) (l : List Char) (keys : List (Option KeyPlace)) :
    (valueStart (c :: l)).arrived keys = { valueHere (c :: l) with keys } := by
  rw [arrived, skipGap_valueStart start]
  rfl

theorem next?_of_startsPlain {after : List Char} (starts : startsPlain (c :: after) = true)
    (column : s.reader.column ≠ 0) (flow : s.flow = 0) : s.next? c after = s.plain? := by
  have solid := isGap_of_startsPlain starts
  have marker : s.reader.atDocumentMarker = false := by
    simp [Reader.atDocumentMarker, column]
  simp only [startsPlain, Bool.and_eq_true, Bool.not_eq_true'] at starts
  obtain ⟨⟨-, signs⟩, alone⟩ := starts
  simp only [next?, column, false_and, if_false, marker, Bool.false_eq_true, flow, Nat.lt_irrefl,
    false_or]
  split
  case h_11 | h_12 | h_13 => rw [if_neg (by simpa using alone)]
  case h_16 =>
    refine if_neg ?_
    rw [solid]
    simp only [List.contains_eq_mem, decide_eq_false_iff_not, decide_eq_true_eq] at signs ⊢
    simp at signs ⊢
    grind
  all_goals cases signs

/-- A plain line is the text of its own token, and the scan goes on behind it. -/
theorem run?_plainLine (plain : isPlainLine name = true) (fuel : Nat) (rest : List Char) :
    (valueStart (name ++ brokenOff rest)).run? (fuel + 1) =
      ((settingsStart rest).run? fuel).map ([.scalar (String.ofList name) .plain] ++ ·) := by
  simp only [isPlainLine, Bool.and_eq_true] at plain
  obtain ⟨⟨-, starts⟩, stays⟩ := plain
  match name with
  | c :: w =>
    have start := not_leadsOff_of_startsPlain starts
    have comment : (c :: w).head? ≠ some '#' := by
      intro first
      obtain rfl : c = '#' := Option.some.inj first
      cases start
    rw [← staysPlain_true_eq (List.cons_ne_nil c w) comment] at stays
    replace starts : startsPlain (c :: w ++ brokenOff rest) = true :=
      (startsPlain_brokenOff (List.cons_ne_nil c w)).trans starts
    obtain ⟨index, read⟩ : ∃ index, Yaml.plain? false 1 ((c :: w ++ brokenOff rest).length + 1) [] .none
        ⟨c :: w ++ brokenOff rest, 1, 1, 6⟩ = some (c :: w, true, ⟨'#' :: rest, index, 3, 0⟩) :=
      plain?_line stays (isGap_of_startsPlain starts) rfl (by simp) (Nat.lt_succ_self _)
    have step : (valueHere (c :: w ++ brokenOff rest)).next? c (w ++ brokenOff rest) =
        some ((settingsStart rest).behind [.scalar (String.ofList (c :: w)) .plain] index) := by
      have turn : (valueHere (c :: w ++ brokenOff rest)).next? c (w ++ brokenOff rest) =
          (valueHere (c :: w ++ brokenOff rest)).plain? :=
        next?_of_startsPlain starts (by simp [valueHere]) rfl
      rw [turn]
      change (Yaml.plain? false 1 ((c :: w ++ brokenOff rest).length + 1) [] .none
        ⟨c :: w ++ brokenOff rest, 1, 1, 6⟩).bind _ = _
      rw [read]
      rfl
    calc (valueStart (c :: w ++ brokenOff rest)).run? (fuel + 1)
        = ((valueHere (c :: w ++ brokenOff rest)).next? c (w ++ brokenOff rest)).bind (run? fuel) := by
          rw [run?, List.cons_append, skipGap_valueStart start]
          rfl
      _ = _ := by
          rw [step, Option.bind_some, run?_behind]

/-- Only a plain line is the text of the node that a scan finds there. -/
theorem isPlainLine_of_value (line : comment.all (!isBreak ·) = true)
    (unsigned : (comment ++ '\n' :: 'o' :: more).all (!isSign ·) = true)
    (allowed : name.all isAllowed = true)
    (h : (valueStart (name ++ settingsBehind comment more)).run? fuel = some ts)
    (own : nodeText? (unkeyed ts) = some (String.ofList name)) :
    name = [] ∨ isPlainLine name = true := by
  match name, fuel with
  | [], _ => exact .inl rfl
  | _, 0 => cases h
  | c :: name, fuel + 1 =>
    right
    cases start : leadsOff c with
    | true =>
      refine absurd own (ne_of_leadsOff line unsigned start h rfl (w := ' ' :: c :: name) rfl ?_)
      exact List.suffix_refl _
    | false =>
      obtain ⟨keys, turn⟩ := turn_of_run? h
      rw [List.cons_append, arrived_valueStart start] at turn
      obtain ⟨done, -⟩ | ⟨d, after, s', next, step, out⟩ := turn
      · cases done
      obtain ⟨rfl, rfl⟩ := List.cons.inj next
      obtain ⟨starts, broken, read⟩ | ⟨⟨-, allowed | inFlow⟩ | sign, -⟩ :=
        step.value out own rfl unsigned rfl (List.suffix_cons ' ' (c :: name))
      · simp only [isPlainLine, Bool.and_eq_true]
        refine ⟨⟨allowed, starts⟩, ?_⟩
        rw [← staysPlain_true_eq (List.cons_ne_nil c name) ?_]
        · cases stays : staysPlain true (c :: name) with
          | true => rfl
          | false =>
            have less := plain?_shorter read stays (isGap_of_startsPlain starts) rfl (Nat.lt_succ_self _)
            simp [Gap.text, Gap.none] at less
        · intro comment
          obtain rfl : c = '#' := Option.some.inj comment
          cases start
      · cases allowed
      · cases inFlow
      · obtain rfl | rfl := sign <;> cases start

end Values

end Scan

end AdapterForge.Yaml

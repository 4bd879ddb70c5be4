import AdapterForge.Yaml.Scalar

/-!
The characters of scalars come from the text: quoted scalars have no more quotation marks than there
are escapes for them, and block scalars no more characters of a kind than their lines.
-/
namespace AdapterForge.Yaml

variable {r r' : Reader}

theorem Reader.skip_suffix (r : Reader) (n : Nat) : (r.skip n).rest <:+ r.rest := List.drop_suffix n _

theorem Reader.run_suffix (r : Reader) (p : Char → Bool) : (r.run p).2.rest <:+ r.rest :=
  r.skip_suffix _

theorem Reader.run_append (r : Reader) (p : Char → Bool) : (r.run p).1 ++ (r.run p).2.rest = r.rest := by
  have lead := List.prefix_iff_eq_take.1 (List.takeWhile_prefix p (l := r.rest))
  calc (r.run p).1 ++ (r.run p).2.rest
      = r.rest.take (r.rest.takeWhile p).length ++ r.rest.drop (r.rest.takeWhile p).length := by
        rw [← lead]
        rfl
    _ = r.rest := List.take_append_drop ..

theorem Reader.skipBreak_suffix (r : Reader) : r.skipBreak.rest <:+ r.rest := by
  rw [skipBreak]
  split
  · next t h => rw [h]; exact List.suffix_append ['\r', '\n'] t
  · next c t _ h =>
    split
    · rw [h]; exact List.suffix_cons c t
    · exact List.suffix_refl _
  · exact List.suffix_refl _

theorem Reader.skipComment_suffix (r : Reader) : r.skipComment.rest <:+ r.rest := by
  rw [skipComment]
  split
  · exact r.run_suffix _
  · exact List.suffix_refl _

theorem breakText_all (r : Reader) : r.breakText.all isGap = true := by
  rw [Reader.breakText]
  split
  · next c _ _ =>
    split
    · next h => obtain rfl | rfl := h <;> rfl
    · split <;> rfl
  · rfl

namespace Gap

/-- White space that contributes white space only. -/
def IsWhite (g : Gap) : Prop :=
  g.blanks.all isGap = true ∧ g.first.all isGap = true ∧ g.more.all isGap = true

theorem isWhite_none : Gap.none.IsWhite := ⟨rfl, rfl, rfl⟩

theorem IsWhite.text {g : Gap} (h : g.IsWhite) : g.text.all isGap = true := by
  simp only [Gap.text]
  split
  · split
    · split
      · rfl
      · exact h.2.2
    · rw [List.all_append, h.2.1, h.2.2]
      rfl
  · exact h.1

theorem IsWhite.read? {indent : Int} {fuel : Nat} {g g' : Gap} (white : g.IsWhite)
    (h : Gap.read? indent fuel g r = some (g', r')) : g'.IsWhite ∧ r'.rest <:+ r.rest := by
  induction fuel generalizing g r with
  | zero =>
    obtain ⟨rfl, rfl⟩ := Prod.mk.inj (Option.some.inj h)
    exact ⟨white, List.suffix_refl _⟩
  | succ fuel ih =>
    have blank {g₁ : Gap} (h : Gap.read? indent fuel g₁ (r.skip 1) = some (g', r'))
        (white₁ : g₁.IsWhite) : g'.IsWhite ∧ r'.rest <:+ r.rest :=
      (ih white₁ h).imp_right fun left => left.trans (r.skip_suffix 1)
    have ends {g₁ : Gap} (h : Gap.read? indent fuel g₁ r.skipBreak = some (g', r'))
        (white₁ : g₁.IsWhite) : g'.IsWhite ∧ r'.rest <:+ r.rest :=
      (ih white₁ h).imp_right fun left => left.trans r.skipBreak_suffix
    simp only [Gap.read?] at h
    split at h
    · obtain ⟨rfl, rfl⟩ := Prod.mk.inj (Option.some.inj h)
      exact ⟨white, List.suffix_refl _⟩
    split at h
    · next isBlank =>
      split at h
      · split at h
        · cases h
        · exact blank h white
      · refine blank h ⟨?_, white.2⟩
        simpa [isGap, isBlank] using white.1
    split at h
    · split at h
      · refine ends h ⟨white.1, white.2.1, ?_⟩
        rw [List.all_append, white.2.2, breakText_all]
        rfl
      · exact ends h ⟨rfl, breakText_all r, white.2.2⟩
    · obtain ⟨rfl, rfl⟩ := Prod.mk.inj (Option.some.inj h)
      exact ⟨white, List.suffix_refl _⟩

end Gap

theorem countP_eq_zero_of_gaps {p : Char → Bool} (solid : ∀ c, isGap c = true → p c = false)
    {l : List Char} (h : l.all isGap = true) : l.countP p = 0 := by
  rw [List.countP_eq_zero]
  intro c hc
  rw [solid c (List.all_eq_true.1 h c hc)]
  exact Bool.false_ne_true

section Quoted

/-- The characters that a quoted scalar can spell by an escape only. -/
def isMark (single : Bool) (c : Char) : Bool :=
  if single then c = '\'' else c = '"' || c = '\\'

def isEscape (single : Bool) (c : Char) : Bool := if single then c = '\'' else c = '\\'

variable {single : Bool} {fuel : Nat} {text t : List Char} {e : RunEnd}

theorem isMark_of_isGap (single : Bool) (c : Char) (h : isGap c = true) : isMark single c = false := by
  cases single with
  | true =>
    simp only [isMark, if_true, decide_eq_false_iff_not]
    rintro rfl
    cases h
  | false =>
    simp only [isMark, Bool.false_eq_true, if_false, Bool.or_eq_false_iff, decide_eq_false_iff_not]
    constructor <;> rintro rfl <;> cases h

/-- A run of a quoted scalar stops, or it goes on behind a character that costs an escape if it is a
mark. -/
theorem quotedRun?_step (h : quotedRun? single (fuel + 1) r = some (t, e, r')) :
    (t = [] ∧ r'.rest <:+ r.rest) ∨
      ∃ c k s, t = c :: s ∧ quotedRun? single fuel (r.skip k) = some (s, e, r') ∧
        (r.skip k).rest.countP (isEscape single) + (if isMark single c then 1 else 0) ≤
          r.rest.countP (isEscape single) := by
  have stops {e' : RunEnd} {r₁ : Reader} (left : r₁.rest <:+ r.rest)
      (h : some (([] : List Char), e', r₁) = some (t, e, r')) : t = [] ∧ r'.rest <:+ r.rest := by
    simp only [Option.some.injEq, Prod.mk.injEq] at h
    exact ⟨h.1.symm, h.2.2 ▸ left⟩
  have goesOn {c : Char} {k : Nat}
      (h : (quotedRun? single fuel (r.skip k)).map (fun p => (c :: p.1, p.2)) = some (t, e, r')) :
      ∃ s, t = c :: s ∧ quotedRun? single fuel (r.skip k) = some (s, e, r') := by
    obtain ⟨⟨s, e', r₁⟩, read, same⟩ := Option.map_eq_some_iff.1 h
    simp only [Prod.mk.injEq] at same
    obtain ⟨rfl, rfl, rfl⟩ := same
    exact ⟨s, rfl, read⟩
  simp only [quotedRun?] at h
  split at h
  · exact .inl (stops (List.suffix_refl _) h)
  next c l here =>
  split at h
  · exact .inl (stops (List.suffix_refl _) h)
  split at h
  · next quote =>
    split at h
    · next second =>
      simp only [Bool.and_eq_true, decide_eq_true_eq] at quote
      obtain ⟨rfl, rfl⟩ := quote
      obtain ⟨d, l, rfl⟩ := List.exists_cons_of_ne_nil (l := l) (by rintro rfl; cases second)
      obtain rfl : d = '\'' := Option.some.inj second
      obtain ⟨s, rfl, read⟩ := goesOn h
      exact .inr ⟨_, _, s, rfl, read, by simp [Reader.skip, here, isEscape, isMark]⟩
    · exact .inl (stops (List.suffix_refl _) h)
  split at h
  · exact .inl (stops (List.suffix_refl _) h)
  split at h
  · next escape =>
    simp only [Bool.and_eq_true, Bool.not_eq_true', decide_eq_true_eq] at escape
    obtain ⟨rfl, rfl⟩ := escape
    split at h
    · exact .inl (stops ((r.skip 1).skipBreak_suffix.trans (r.skip_suffix 1)) h)
    split at h
    · next n _ =>
      obtain ⟨s, rfl, read⟩ := goesOn h
      refine .inr ⟨_, _, s, rfl, read, ?_⟩
      have left := (List.drop_suffix n l).sublist.countP_le (p := isEscape false)
      simp only [Reader.skip, here, List.drop_succ_cons, List.countP_cons, isEscape,
        Bool.false_eq_true, if_false, decide_true, if_true] at left ⊢
      split <;> omega
    · cases h
  · have unmarked : isMark single c = false := by
      cases single <;> simp_all [isMark]
    obtain ⟨s, rfl, read⟩ := goesOn h
    exact .inr ⟨_, _, s, rfl, read, by simp [Reader.skip, here, unmarked, List.countP_cons]⟩

theorem quotedRun?_marks (h : quotedRun? single fuel r = some (t, e, r')) :
    t.countP (isMark single) + r'.rest.countP (isEscape single) ≤
      r.rest.countP (isEscape single) := by
  induction fuel generalizing r t with
  | zero =>
    simp only [quotedRun?, Option.some.injEq, Prod.mk.injEq] at h
    simp [← h.1, ← h.2.2]
  | succ fuel ih =>
    obtain ⟨rfl, left⟩ | ⟨c, k, s, rfl, read, paid⟩ := quotedRun?_step h
    · rw [List.countP_nil, Nat.zero_add]
      exact left.sublist.countP_le
    · have rest := ih read
      rw [List.countP_cons]
      omega

theorem quoted?_marks (h : quoted? single fuel text r = some (t, r')) :
    t.countP (isMark single) + r'.rest.countP (isEscape single) ≤
      text.countP (isMark single) + r.rest.countP (isEscape single) := by
  induction fuel generalizing text r with
  | zero => cases h
  | succ fuel ih =>
    -- the white space behind a run has no marks
    have next_run {run : List Char} {e : RunEnd} {g g₁ : Gap} {r₁ r₂ : Reader} (white : g.IsWhite)
        (read : quotedRun? single r.rest.length r = some (run, e, r₁))
        (gap : Gap.read? 0 r₁.rest.length g r₁ = some (g₁, r₂))
        (h : quoted? single fuel (text ++ run ++ g₁.text) r₂ = some (t, r')) :
        t.countP (isMark single) + r'.rest.countP (isEscape single) ≤
          text.countP (isMark single) + r.rest.countP (isEscape single) := by
      obtain ⟨white₁, left⟩ := white.read? gap
      have marks := quotedRun?_marks read
      have fewer := left.sublist.countP_le (p := isEscape single)
      have rest := ih h
      have none_ := countP_eq_zero_of_gaps (isMark_of_isGap single) white₁.text
      rw [List.countP_append, List.countP_append] at rest
      omega
    simp only [quoted?] at h
    split at h
    · cases h
    split at h
    · cases h
    · cases h
    · next run r₁ read =>
      obtain ⟨rfl, rfl⟩ := Prod.mk.inj (Option.some.inj h)
      have marks := quotedRun?_marks read
      have left := (r₁.skip_suffix 1).sublist.countP_le (p := isEscape single)
      rw [List.countP_append]
      omega
    · next run r₁ read =>
      split at h
      · next gap => exact next_run Gap.isWhite_none read gap h
      · cases h
    · next run r₁ read =>
      split at h
      · next gap => exact next_run ⟨rfl, rfl, rfl⟩ read gap h
      · cases h

end Quoted

section Block

variable {p : Char → Bool} {indent fuel : Nat} {text lead trail breaks t lead' trail' : List Char}
  {widest : Nat} {folded blank : Bool}

theorem blockBreaks?_white {w : Nat}
    (h : blockBreaks? indent fuel breaks widest r = some (lead, w, r'))
    (white : breaks.all isGap = true) :
    lead.all isGap = true ∧ r'.rest <:+ r.rest := by
  induction fuel generalizing breaks widest r with
  | zero =>
    simp only [blockBreaks?, Option.some.injEq, Prod.mk.injEq] at h
    exact ⟨h.1 ▸ white, h.2.2 ▸ List.suffix_refl _⟩
  | succ fuel ih =>
    rw [blockBreaks?] at h
    generalize (if indent = 0 then _ else _ : Nat) = n at h
    split at h
    · cases h
    split at h
    · obtain ⟨white', left⟩ := ih h (by rw [List.all_append, white, breakText_all]; rfl)
      exact ⟨white', left.trans ((Reader.skipBreak_suffix _).trans (r.skip_suffix _))⟩
    · simp only [Option.some.injEq, Prod.mk.injEq] at h
      exact ⟨h.1 ▸ white, h.2.2 ▸ r.skip_suffix _⟩

/-- The lines of a block scalar hold what the text holds, and white space. -/
theorem blockLines?_count (solid : ∀ c, isGap c = true → p c = false)
    (h : blockLines? folded indent fuel text lead trail blank r = some (t, lead', trail', r'))
    (whiteLead : lead.all isGap = true) (whiteTrail : trail.all isGap = true) :
    t.countP p + r'.rest.countP p ≤ text.countP p + r.rest.countP p ∧
      lead'.all isGap = true ∧ trail'.all isGap = true := by
  induction fuel generalizing text lead trail blank r with
  | zero =>
    simp only [blockLines?, Option.some.injEq, Prod.mk.injEq] at h
    obtain ⟨rfl, rfl, rfl, rfl⟩ := h
    exact ⟨Nat.le_refl _, whiteLead, whiteTrail⟩
  | succ fuel ih =>
    simp only [blockLines?] at h
    split at h
    · split at h
      · next breaks w r₁ read =>
        obtain ⟨whiteBreaks, left⟩ := blockBreaks?_white read rfl
        have bound := ih h (breakText_all _) whiteBreaks
        refine ⟨?_, bound.2⟩
        have fewer := (left.trans (Reader.skipBreak_suffix _)).sublist.countP_le (p := p)
        have line : ((r.run (!isBreak ·)).1).countP p + (r.run (!isBreak ·)).2.rest.countP p =
            r.rest.countP p := by
          rw [← List.countP_append, r.run_append]
        have joint : ((if (folded && lead.head? == some '\n' && !blank &&
            !r.rest.head?.any isBlank) = true then if trail.isEmpty then [' '] else [] else lead) :
            List Char).countP p = 0 := by
          apply countP_eq_zero_of_gaps solid
          split
          · split <;> rfl
          · exact whiteLead
        have bound₁ := bound.1
        simp only [List.countP_append] at bound₁
        rw [joint, countP_eq_zero_of_gaps solid whiteTrail] at bound₁
        omega
      · cases h
    · simp only [Option.some.injEq, Prod.mk.injEq] at h
      obtain ⟨rfl, rfl, rfl, rfl⟩ := h
      exact ⟨Nat.le_refl _, whiteLead, whiteTrail⟩

theorem blockHeader?_suffix {chomp : Chomp} {width : Nat}
    (h : blockHeader? r = some (chomp, width, r')) : r'.rest <:+ r.rest := by
  have one := r.skip_suffix 1
  have two := ((r.skip 1).skip_suffix 1).trans one
  simp only [blockHeader?] at h
  cases plus : r.looksAt '+' <;> cases minus : r.looksAt '-' <;>
    simp only [plus, minus, Bool.false_eq_true, if_true, if_false] at h
  case false.false =>
    split at h
    · next d _ =>
      split at h
      · cases h
      have ends : ∀ c : Chomp, ∀ n : Nat, ∀ r₁ : Reader, r₁.rest <:+ r.rest →
          some (c, n, r₁) = some (chomp, width, r') → r'.rest <:+ r.rest := by
        intro c n r₁ left same
        simp only [Option.some.injEq, Prod.mk.injEq] at same
        exact same.2.2 ▸ left
      cases plus' : (r.skip 1).looksAt '+' <;> cases minus' : (r.skip 1).looksAt '-' <;>
        simp only [plus', minus', Bool.false_eq_true, if_true, if_false] at h
      case false.false => exact ends _ _ _ one h
      all_goals exact ends _ _ _ two h
    · simp only [Option.some.injEq, Prod.mk.injEq] at h
      exact h.2.2 ▸ List.suffix_refl _
  all_goals
    split at h
    · split at h
      · cases h
      · simp only [Option.some.injEq, Prod.mk.injEq] at h
        exact h.2.2 ▸ two
    · simp only [Option.some.injEq, Prod.mk.injEq] at h
      exact h.2.2 ▸ one

theorem block?_count (solid : ∀ c, isGap c = true → p c = false) {parent : Int}
    (h : block? folded parent r = some (t, r')) :
    t.countP p + r'.rest.countP p ≤ r.rest.countP p := by
  simp only [block?, Option.bind_eq_bind, Option.bind_eq_some_iff] at h
  obtain ⟨⟨chomp, width, r₁⟩, header, h⟩ := h
  simp only at h
  split at h
  · cases h
  obtain ⟨⟨breaks, widest, r₂⟩, lead, h⟩ := Option.bind_eq_some_iff.1 h
  obtain ⟨⟨text, last, trail, r₃⟩, lines, h⟩ := Option.bind_eq_some_iff.1 h
  obtain ⟨white, left⟩ := blockBreaks?_white lead rfl
  obtain ⟨count, whiteLast, whiteTrail⟩ := blockLines?_count solid lines rfl white
  obtain ⟨rfl, rfl⟩ := Prod.mk.inj (Option.some.inj h)
  have fewer := (left.trans ((Reader.skipBreak_suffix _).trans ((Reader.skipComment_suffix _).trans
    ((Reader.run_suffix _ _).trans (blockHeader?_suffix header))))).sublist.countP_le (p := p)
  have last_ : (if chomp = .strip then [] else last).countP p = 0 := by
    split
    · rfl
    · exact countP_eq_zero_of_gaps solid whiteLast
  have trail_ : (if chomp = .keep then trail else []).countP p = 0 := by
    split
    · exact countP_eq_zero_of_gaps solid whiteTrail
    · rfl
  rw [List.countP_append, List.countP_append, last_, trail_]
  simp only [List.countP_nil] at count ⊢
  omega

end Block

end AdapterForge.Yaml

import AdapterForge.Yaml.Scalar

/-!
Plain lines: the texts that a plain scalar spells out as they stand. Of any other text a plain scalar
gives less than the whole, whatever line breaks it runs over.
-/
namespace AdapterForge.Yaml

def startsPlain : List Char → Bool
  | [] => false
  | c :: r =>
    !isGap c && !"[]\x7b\x7d,*&!'\"|>%@`#".toList.contains c && !("-?:".toList.contains c && startsGap r)

/-- Whether a text stays a plain scalar up to its end. No comment may start, which takes a blank in
front of it, no colon may end a key, and neither a blank nor a line break may be lost. -/
def staysPlain : (blank : Bool) → List Char → Bool
  | blank, [] => !blank
  | blank, c :: r =>
    !(blank && c = '#') && !(c = ':' && startsGap r) && !isBreak c && staysPlain (isBlank c) r

/-- A text that may stand for itself as a plain scalar. -/
def isPlainLine (l : List Char) : Bool := l.all isAllowed && startsPlain l && staysPlain false l

/-- What follows a line when an empty line and then a comment without indentation come behind it. -/
def brokenOff (rest : List Char) : List Char := '\n' :: '\n' :: '#' :: rest

variable {w rest : List Char}

theorem isBreak_of_isBlank {c : Char} (h : isBlank c = true) : isBreak c = false := by
  simp only [isBlank, Bool.or_eq_true, decide_eq_true_eq] at h
  obtain rfl | rfl := h <;> rfl

theorem startsGap_brokenOff : startsGap (w ++ brokenOff rest) = startsGap w := by
  cases w <;> rfl

section Runs

/-- A run ends at white space or at a colon in front of it, so it lies within the line. -/
theorem plainRun_brokenOff (w rest : List Char) :
    ∃ run w', plainRun false (w ++ brokenOff rest) = some (run, w' ++ brokenOff rest) ∧
      w = run ++ w' ∧
      (startsGap w' ∧ staysPlain false w = staysPlain false w' ∨
        staysPlain false w = false ∧ ∃ v, w' = ':' :: v ∧ startsGap v) := by
  induction w with
  | nil => exact ⟨[], [], rfl, rfl, .inl ⟨rfl, rfl⟩⟩
  | cons c w ih =>
    by_cases gap : isGap c = true
    · exact ⟨[], c :: w, by simp [plainRun, gap], rfl, .inl ⟨gap, rfl⟩⟩
    by_cases colon : (c = ':' && startsGap w) = true
    · simp only [Bool.and_eq_true, decide_eq_true_eq] at colon
      refine ⟨[], c :: w, ?_, rfl, .inr ⟨by simp [staysPlain, colon], w, by rw [colon.1], colon.2⟩⟩
      simp [plainRun, colon, startsGap_brokenOff]
    obtain ⟨run, w', read, rfl, stop⟩ := ih
    have first : staysPlain false (c :: (run ++ w')) = staysPlain false (run ++ w') := by
      simp only [isGap, Bool.or_eq_true, not_or, Bool.not_eq_true] at gap
      simp [staysPlain, gap, colon]
    refine ⟨c :: run, w', ?_, rfl, ?_⟩
    · simp only [List.cons_append, plainRun, gap, startsGap_brokenOff, colon, read]
      simp
    · rw [first]
      exact stop

end Runs

section Gaps

variable {indent : Int} {fuel : Nat} {g g' : Gap} {r r' : Reader}

/-- At most, what white space that is read up to `r` may still contribute. A later line that goes on
has a blank that counts for nothing. -/
def Gap.size (g : Gap) (r : Reader) : Nat :=
  if g.broken then g.first.length + g.more.length + min r.column 1 else g.blanks.length

theorem length_breakText_le (r : Reader) : r.breakText.length ≤ 1 := by
  rw [Reader.breakText]
  split
  · split
    · exact Nat.le_refl 1
    · split <;> simp
  · exact Nat.zero_le 1

theorem read?_off (h : Gap.read? indent fuel g r = some (g', r')) (fits : 2 ≤ fuel)
    (off : r.rest = '\n' :: '#' :: rest) : g'.broken ∧ r'.column = 0 := by
  obtain ⟨fuel, rfl⟩ := Nat.exists_eq_add_of_le' fits
  obtain ⟨l, index, line, column⟩ := r
  obtain rfl : l = '\n' :: '#' :: rest := off
  cases broken : g.broken <;>
    simp [Gap.read?, broken, isBlank, isBreak, Reader.skipBreak] at h <;>
    simp [← h.1, ← h.2]

theorem read?_brokenOff (h : Gap.read? indent fuel g r = some (g', r')) (fits : 3 ≤ fuel)
    (off : r.rest = brokenOff rest) : g'.broken ∧ r'.column = 0 := by
  obtain ⟨fuel, rfl⟩ := Nat.exists_eq_add_of_le' fits
  obtain ⟨l, index, line, column⟩ := r
  obtain rfl : l = brokenOff rest := off
  cases broken : g.broken <;>
    simp [Gap.read?, brokenOff, broken, isBlank, isBreak, Reader.skipBreak] at h <;>
    simp [← h.1, ← h.2]

/-- White space is passed over by one blank or by one line break. -/
theorem read?_step {c : Char} {l : List Char} (h : Gap.read? indent (fuel + 1) g r = some (g', r'))
    (here : r.rest = c :: l) (gap : isGap c = true) (first : g.broken = false → g.more = []) :
    ∃ g₁ r₁, Gap.read? indent fuel g₁ r₁ = some (g', r') ∧
      (isBlank c ∧ r₁ = r.skip 1 ∨ isBreak c ∧ r₁ = r.skipBreak) ∧
      g₁.size r₁ ≤ g.size r + 1 ∧
      (g₁.broken = false →
        g.broken = false ∧ g₁.more = [] ∧ isBlank c ∧ g₁.blanks = g.blanks ++ [c]) := by
  simp only [Gap.read?, here] at h
  have width := length_breakText_le r
  by_cases blank : isBlank c = true
  · rw [if_pos blank] at h
    cases broken : g.broken with
    | true =>
      rw [broken, if_pos rfl] at h
      split at h
      · cases h
      refine ⟨g, r.skip 1, h, .inl ⟨blank, rfl⟩, ?_, fun flat => ?_⟩
      · simp only [Gap.size, broken, if_true, Reader.skip]
        omega
      · rw [broken] at flat
        cases flat
    | false =>
      rw [broken, if_neg Bool.false_ne_true] at h
      refine ⟨_, r.skip 1, h, .inl ⟨blank, rfl⟩, ?_, fun _ => ⟨rfl, first broken, blank, rfl⟩⟩
      simp [Gap.size, broken]
  · have ends : isBreak c = true := by
      simpa [isGap, blank] using gap
    -- the columns of a later line count, and behind a line break they start over
    have column : r.skipBreak.column = 0 := by
      simp only [Reader.skipBreak, here]
      split <;> simp_all
    rw [if_neg blank, if_pos ends] at h
    cases broken : g.broken with
    | true =>
      rw [broken, if_pos rfl] at h
      refine ⟨_, r.skipBreak, h, .inr ⟨ends, rfl⟩, ?_, fun flat => ?_⟩
      · simp only [Gap.size, broken, if_true, column, List.length_append]
        omega
      · exact absurd flat (by simp)
    | false =>
      rw [broken, if_neg Bool.false_ne_true] at h
      refine ⟨_, r.skipBreak, h, .inr ⟨ends, rfl⟩, ?_, fun flat => nomatch flat⟩
      simp only [Gap.size, if_true, column, first broken, List.length_nil]
      omega

/-- A carriage return takes the line feed behind it with it. -/
theorem skipBreak_brokenOff {c : Char} (ends : isBreak c = true)
    (here : r.rest = c :: w ++ brokenOff rest) :
    r.skipBreak.rest = '\n' :: '#' :: rest ∨
      ∃ s w', c :: w = s ++ w' ∧ 1 ≤ s.length ∧ r.skipBreak.rest = w' ++ brokenOff rest := by
  obtain ⟨l, index, line, column⟩ := r
  obtain rfl : l = c :: w ++ brokenOff rest := here
  by_cases ret : c = '\r'
  · subst ret
    match w with
    | [] => exact .inl rfl
    | d :: w =>
      by_cases feed : d = '\n'
      · subst feed
        exact .inr ⟨['\r', '\n'], w, rfl, by simp, rfl⟩
      · exact .inr ⟨['\r'], d :: w, rfl, by simp, by simp [Reader.skipBreak, feed, isBreak]⟩
  · exact .inr ⟨[c], w, rfl, by simp, by simp [Reader.skipBreak, ret, ends]⟩

/-- One step over white space stays within the line, or it comes to the comment behind it. -/
theorem gap_brokenOff {c : Char} {r₁ : Reader} (here : r.rest = c :: w ++ brokenOff rest)
    (step : isBlank c ∧ r₁ = r.skip 1 ∨ isBreak c ∧ r₁ = r.skipBreak) :
    r₁.rest = '\n' :: '#' :: rest ∨
      ∃ s w', c :: w = s ++ w' ∧ 1 ≤ s.length ∧ r₁.rest = w' ++ brokenOff rest ∧
        (isBlank c → s = [c]) := by
  obtain ⟨blank, rfl⟩ | ⟨ends, rfl⟩ := step
  · exact .inr ⟨[c], w, rfl, by simp, by simp [Reader.skip, here], fun _ => rfl⟩
  · obtain off | ⟨s, w', parts, some_, left⟩ := skipBreak_brokenOff ends here
    · exact .inl off
    · refine .inr ⟨s, w', parts, some_, left, fun blank => ?_⟩
      rw [isBreak_of_isBlank blank] at ends
      cases ends

/-- White space ends within the line, or it ends at the comment behind it. -/
theorem read?_inside (h : Gap.read? indent fuel g r = some (g', r')) (fits : r.rest.length ≤ fuel)
    (here : r.rest = w ++ brokenOff rest) (first : g.broken = false → g.more = []) :
    (g'.broken ∧ r'.column = 0) ∨
      ∃ s w', w = s ++ w' ∧ startsGap w' = false ∧ r'.rest = w' ++ brokenOff rest ∧
        g'.size r' ≤ g.size r + s.length ∧
        (g'.broken = false → g.broken = false ∧ g'.blanks = g.blanks ++ s ∧ s.all isBlank) := by
  induction fuel generalizing g r w with
  | zero => simp [here, brokenOff] at fits
  | succ fuel ih =>
    match w with
    | [] =>
      refine .inl (read?_brokenOff h ?_ here)
      simp only [here, List.nil_append, brokenOff, List.length_cons] at fits
      omega
    | c :: w =>
      cases gap : isGap c with
      | false =>
        have both : isBlank c = false ∧ isBreak c = false := by simpa [isGap] using gap
        simp only [Gap.read?, here, List.cons_append, both.1, both.2, Bool.false_eq_true, if_false] at h
        obtain ⟨rfl, rfl⟩ := Prod.mk.inj (Option.some.inj h)
        exact .inr ⟨[], c :: w, rfl, gap, here, by simp, fun flat => ⟨flat, by simp⟩⟩
      | true =>
        simp only [here, List.cons_append, List.length_cons] at fits
        obtain ⟨g₁, r₁, h₁, step, small₁, flat₁⟩ := read?_step h here gap first
        -- the step comes to the comment behind the line, or leaves less of the line
        obtain off | ⟨s₁, w₁, parts, some₁, here₁, flat⟩ := gap_brokenOff here step
        · refine .inl (read?_off h₁ ?_ off)
          simp only [List.length_append, brokenOff, List.length_cons] at fits
          omega
        · have fits₁ : r₁.rest.length ≤ fuel := by
            have total := congrArg List.length parts
            simp only [List.length_cons, List.length_append, here₁] at total fits ⊢
            omega
          obtain off | ⟨s, w', rfl, stop, left, small, verbatim⟩ :=
            ih h₁ fits₁ here₁ fun b => (flat₁ b).2.1
          · exact .inl off
          · refine .inr ⟨s₁ ++ s, w', by rw [parts, List.append_assoc], stop, left, ?_, fun b => ?_⟩
            · rw [List.length_append]
              omega
            · obtain ⟨b₁, blanks, all⟩ := verbatim b
              obtain ⟨b₀, _, blank, blanks₁⟩ := flat₁ b₁
              rw [flat blank, blanks, blanks₁]
              simp [b₀, blank, all]

theorem Gap.length_text_le (g : Gap) (r : Reader) : g.text.length ≤ g.size r := by
  simp only [Gap.text, Gap.size]
  split
  · split
    · next feed =>
      cases h : g.first with
      | nil => simp [h] at feed
      | cons c l =>
        split <;> simp <;> omega
    · rw [List.length_append]
      omega
  · exact Nat.le_refl _

theorem Gap.length_text_lt (broken : g.broken = true) (column : 1 ≤ r.column) :
    g.text.length < g.size r := by
  have bound := g.length_text_le { r with column := 0 }
  simp only [Gap.size, broken, if_true] at bound ⊢
  omega

theorem read?_blanks {s : List Char} (blanks : s.all isBlank) (stop : startsGap w = false)
    (here : r.rest = s ++ (w ++ rest)) (fits : s.length ≤ fuel) (flat : g.broken = false) :
    ∃ index, Gap.read? indent fuel g r =
      some ({ g with blanks := g.blanks ++ s }, ⟨w ++ rest, index, r.line, r.column + s.length⟩) := by
  induction s generalizing fuel g r with
  | nil =>
    obtain ⟨l, index, line, column⟩ := r
    obtain rfl : l = w ++ rest := here
    cases w with
    | nil => cases stop
    | cons c w =>
      have both : isBlank c = false ∧ isBreak c = false := by simpa [startsGap, isGap] using stop
      cases fuel with
      | zero => exact ⟨index, by simp [Gap.read?]⟩
      | succ fuel => exact ⟨index, by simp [Gap.read?, both]⟩
  | cons c s ih =>
    cases fuel with
    | zero => cases fits
    | succ fuel =>
      simp only [List.all_cons, Bool.and_eq_true] at blanks
      simp only [List.length_cons, Nat.add_le_add_iff_right] at fits
      have passed : (r.skip 1).rest = s ++ (w ++ rest) := by simp [Reader.skip, here]
      obtain ⟨index, read⟩ := ih (g := { g with blanks := g.blanks ++ [c] }) blanks.2 passed fits flat
      refine ⟨index, ?_⟩
      simp only [Gap.read?, here, List.cons_append, blanks.1, flat, if_true, Bool.false_eq_true,
        if_false]
      rw [flat] at read
      rw [read]
      simp [Reader.skip, Nat.add_comm 1, Nat.add_assoc]

end Gaps

section Lines

variable {fuel : Nat} {text t : List Char} {g : Gap} {r r' : Reader} {broken : Bool}

theorem staysPlain_blanks {s : List Char} (blanks : s.all isBlank) (some_ : s ≠ []) (blank : Bool) :
    staysPlain blank (s ++ w) = staysPlain true w := by
  induction s generalizing blank with
  | nil => exact absurd rfl some_
  | cons c s ih =>
    simp only [List.all_cons, Bool.and_eq_true] at blanks
    have none_ : c ≠ '#' ∧ c ≠ ':' := by
      constructor <;> rintro rfl <;> cases blanks.1
    rw [List.cons_append, staysPlain]
    simp only [none_, isBreak_of_isBlank blanks.1, blanks.1]
    match s with
    | [] => simp
    | d :: s => simpa using ih blanks.2 (by simp) true

theorem staysPlain_of_true (h : staysPlain true w = true) (blank : Bool) :
    staysPlain blank w = true := by
  cases blank with
  | true => exact h
  | false =>
    cases w with
    | nil => rfl
    | cons c w =>
      simp only [staysPlain, Bool.and_eq_true] at h ⊢
      exact ⟨⟨⟨by simp, h.1.1.2⟩, h.1.2⟩, h.2⟩

/-- White space that does not end a plain line is made of blanks, and more of the line follows. -/
theorem blanks_of_staysPlain (h : staysPlain false w = true) (gap : startsGap w = true)
    (some_ : w ≠ []) :
    ∃ s w', w = s ++ w' ∧ s.all isBlank ∧ startsGap w' = false ∧ staysPlain true w' = true := by
  refine ⟨w.takeWhile isBlank, w.dropWhile isBlank, List.takeWhile_append_dropWhile.symm,
    List.all_takeWhile, ?_⟩
  have lead : w.takeWhile isBlank ≠ [] := by
    match w with
    | c :: w =>
      simp only [staysPlain, Bool.and_eq_true] at h
      have blank : isBlank c = true := by
        have solid := h.1.2
        simp only [Bool.not_eq_true'] at solid
        simpa [startsGap, isGap, solid] using gap
      simp [blank]
  have stays : staysPlain true (w.dropWhile isBlank) = true := by
    rw [← staysPlain_blanks List.all_takeWhile lead false, List.takeWhile_append_dropWhile]
    exact h
  refine ⟨?_, stays⟩
  cases left : w.dropWhile isBlank with
  | nil => rw [left] at stays; cases stays
  | cons c l =>
    have solid : isBlank c = false := by
      simpa [left] using List.head?_dropWhile_not isBlank w
    rw [left] at stays
    simp only [staysPlain, Bool.and_eq_true] at stays
    simpa [startsGap, isGap, solid] using stays.1.2

/-- A run up to white space, and whether the scalar goes on behind it. -/
theorem plain?_run {run : List Char} (clear : (r.atDocumentMarker || r.looksAt '#') = false)
    (read : plainRun false r.rest = some (run, w ++ brokenOff rest))
    (here : r.rest = run ++ (w ++ brokenOff rest)) (some_ : run ≠ []) (gap : startsGap w = true) :
    plain? false 1 (fuel + 1) text g r =
      (Gap.read? 1 (w ++ brokenOff rest).length .none (r.skip run.length)).bind fun (g', r') =>
        if r'.column = 0 then some (text ++ g.text ++ run, g'.broken, r')
        else plain? false 1 fuel (text ++ g.text ++ run) g' r' := by
  have passed : (r.skip run.length).rest = w ++ brokenOff rest := by simp [Reader.skip, here]
  have ends : (w ++ brokenOff rest).head?.any isGap = true := by
    cases w with
    | nil => rfl
    | cons c w => exact gap
  have long : run.isEmpty = false := by simpa using some_
  simp only [plain?, clear, read, passed, ends, long, Bool.false_eq_true, if_false, if_true]
  cases Gap.read? 1 (w ++ brokenOff rest).length .none (r.skip run.length) with
  | none => rfl
  | some p =>
    have first : ((p.2.column : Int) < 1) = (p.2.column = 0) := by
      rw [eq_iff_iff]
      omega
    simp [first]

/-- A run up to a colon that ends a key ends the scalar as well. -/
theorem plain?_key {run v : List Char} (clear : (r.atDocumentMarker || r.looksAt '#') = false)
    (read : plainRun false r.rest = some (run, ':' :: v ++ brokenOff rest))
    (here : r.rest = run ++ (':' :: v ++ brokenOff rest)) :
    plain? false 1 (fuel + 1) text g r =
      some (if run.isEmpty then text else text ++ g.text ++ run,
        (if run.isEmpty then g else .none).broken, r.skip run.length) := by
  have passed : (r.skip run.length).rest = ':' :: v ++ brokenOff rest := by simp [Reader.skip, here]
  have solid : isGap ':' = false := rfl
  simp only [plain?, clear, read, passed, List.cons_append, List.head?_cons, Option.any_some, solid,
    Bool.false_eq_true, if_false]

/-- A scalar takes a run of the line at a time. Behind the last one stands a key's colon, and that
is no plain line. -/
theorem plain?_step (clear : (r.atDocumentMarker || r.looksAt '#') = false)
    (start : startsGap w = false) (here : r.rest = w ++ brokenOff rest) :
    (∃ run w', w = run ++ w' ∧ run ≠ [] ∧ startsGap w' ∧ staysPlain false w = staysPlain false w' ∧
      plain? false 1 (fuel + 1) text g r =
        (Gap.read? 1 (w' ++ brokenOff rest).length .none
          ⟨w' ++ brokenOff rest, r.index + octetLength run, r.line, r.column + run.length⟩).bind
          fun (g', r') =>
            if r'.column = 0 then some (text ++ g.text ++ run, g'.broken, r')
            else plain? false 1 fuel (text ++ g.text ++ run) g' r') ∨
    (staysPlain false w = false ∧ ∃ run v, w = run ++ ':' :: v ∧
      plain? false 1 (fuel + 1) text g r =
        some (if run.isEmpty then text else text ++ g.text ++ run,
          (if run.isEmpty then g else .none).broken, r.skip run.length)) := by
  obtain ⟨run, w', read, rfl, ⟨gap, after⟩ | ⟨ends, v, rfl, -⟩⟩ := plainRun_brokenOff w rest
  · have some_ : run ≠ [] := by
      rintro rfl
      rw [List.nil_append, gap] at start
      cases start
    have parts : r.rest = run ++ (w' ++ brokenOff rest) := by rw [here, List.append_assoc]
    have passed : r.skip run.length = ⟨w' ++ brokenOff rest,
        r.index + octetLength run, r.line, r.column + run.length⟩ := by
      simp [Reader.skip, parts]
    rw [← here] at read
    refine .inl ⟨run, w', rfl, some_, gap, after, ?_⟩
    rw [plain?_run clear read parts some_ gap, passed]
  · have parts : r.rest = run ++ (':' :: v ++ brokenOff rest) := by rw [here, List.append_assoc]
    rw [← here] at read
    exact .inr ⟨ends, run, v, rfl, plain?_key clear read parts⟩

theorem read?_next_line (fuel index line column : Nat) :
    Gap.read? 1 (fuel + 2) .none ⟨brokenOff rest, index, line, column⟩ =
      some (⟨[], true, ['\n'], ['\n']⟩, ⟨'#' :: rest, index + 1 + 1, line + 2, 0⟩) := by
  have feed : '\n'.utf8Size = 1 := rfl
  cases fuel <;>
    simp [Gap.read?, Gap.none, brokenOff, isBlank, isBreak, Reader.skipBreak, Reader.breakText, feed]

theorem plain?_line (stays : staysPlain true w = true) (start : startsGap w = false)
    (here : r.rest = w ++ brokenOff rest) (column : 1 ≤ r.column) (fits : r.rest.length < fuel) :
    ∃ index, plain? false 1 fuel text g r =
      some (text ++ g.text ++ w, true, ⟨'#' :: rest, index, r.line + 2, 0⟩) := by
  -- on the runs of the line: either the line ends behind one, or blanks and a shorter line follow
  induction fuel generalizing text g r w with
  | zero => cases fits
  | succ fuel ih =>
    have clear : (r.atDocumentMarker || r.looksAt '#') = false := by
      have inside : r.column ≠ 0 := by omega
      match w with
      | c :: w =>
        have plain : c ≠ '#' := by
          rintro rfl
          cases stays
        simp [Reader.atDocumentMarker, Reader.looksAt, Reader.head?, inside, here, plain]
    obtain ⟨run, w', rfl, some_, gap, after, read⟩ | ⟨ends, -⟩ := plain?_step clear start here
    · rw [read]
      by_cases done : w' = []
      · subst done
        rw [List.nil_append, brokenOff, List.length_cons, List.length_cons, ← brokenOff,
          read?_next_line]
        exact ⟨_, by rw [List.append_nil]; rfl⟩
      · obtain ⟨s, w'', rfl, blanks, start', stays'⟩ :=
          blanks_of_staysPlain (by rw [← after]; exact staysPlain_of_true stays false) gap done
        obtain ⟨index, white⟩ : ∃ index, Gap.read? 1 (s ++ w'' ++ brokenOff rest).length .none
            ⟨s ++ w'' ++ brokenOff rest, r.index + octetLength run, r.line, r.column + run.length⟩ =
            some (⟨s, false, [], []⟩,
              ⟨w'' ++ brokenOff rest, index, r.line, r.column + run.length + s.length⟩) :=
          read?_blanks blanks start' (List.append_assoc ..) (by simp) rfl
        have inside : r.column + run.length + s.length ≠ 0 := by omega
        have fits' : (w'' ++ brokenOff rest).length < fuel := by
          have long := List.length_pos_iff.2 some_
          simp only [here, List.length_append] at fits ⊢
          omega
        obtain ⟨index', whole⟩ : ∃ index', plain? false 1 fuel (text ++ g.text ++ run)
            ⟨s, false, [], []⟩
            ⟨w'' ++ brokenOff rest, index, r.line, r.column + run.length + s.length⟩ =
            some (text ++ g.text ++ run ++ s ++ w'', true, ⟨'#' :: rest, index', r.line + 2, 0⟩) :=
          ih stays' start' rfl (by simp only; omega) fits'
        rw [white, Option.bind_some]
        simp only
        rw [if_neg inside, whole]
        exact ⟨index', by simp only [List.append_assoc]⟩
    · rw [staysPlain_of_true stays] at ends
      cases ends

theorem staysPlain_true_eq (some_ : w ≠ []) (solid : w.head? ≠ some '#') :
    staysPlain true w = staysPlain false w := by
  match w with
  | c :: w => simp_all [staysPlain]

/-- White space behind which a text is no plain line any more contributes no more than its length,
and less than that when a plain line follows: it then holds a line break. -/
theorem read?_behind (white : Gap.read? 1 fuel .none r = some (g, r')) (fits : r.rest.length ≤ fuel)
    (here : r.rest = w ++ brokenOff rest) (inside : r'.column ≠ 0) (gap : startsGap w = true)
    (ends : staysPlain false w = false) :
    ∃ w', r'.rest = w' ++ brokenOff rest ∧ startsGap w' = false ∧
      g.text.length + w'.length ≤ w.length ∧
      (staysPlain true w' = true → g.text.length + w'.length < w.length) := by
  obtain off | ⟨s, w', rfl, start, left, small, verbatim⟩ := read?_inside white fits here fun _ => rfl
  · exact absurd off.2 inside
  have none_ : Gap.none.size r = 0 := rfl
  have joint := g.length_text_le r'
  refine ⟨w', left, start, ?_, fun stays => ?_⟩
  · rw [List.length_append]
    omega
  · cases flat : g.broken with
    | true =>
      have less := Gap.length_text_lt flat (Nat.pos_of_ne_zero inside)
      rw [List.length_append]
      omega
    | false =>
      have some_s : s ≠ [] := by
        rintro rfl
        rw [List.nil_append, start] at gap
        cases gap
      rw [staysPlain_blanks (verbatim flat).2.2 some_s, stays] at ends
      cases ends

/-- Any other text gives less than the whole: a scalar that goes on behind a line break loses more
there than it gains. -/
theorem plain?_shorter (h : plain? false 1 fuel text g r = some (t, broken, r'))
    (ends : staysPlain true w = false) (start : startsGap w = false)
    (here : r.rest = w ++ brokenOff rest) (fits : r.rest.length < fuel) :
    t.length < text.length + g.text.length + w.length := by
  -- on the runs of the scalar: the rest is either no plain line again or comes behind a line break
  induction fuel generalizing text g r w with
  | zero => cases fits
  | succ fuel ih =>
    have some_w : w ≠ [] := by
      rintro rfl
      cases start
    have long_w := List.length_pos_iff.2 some_w
    cases clear : r.atDocumentMarker || r.looksAt '#' with
    | true =>
      simp only [plain?, clear, if_true] at h
      obtain ⟨rfl, -⟩ := Prod.mk.inj (Option.some.inj h)
      omega
    | false =>
      have solid : w.head? ≠ some '#' := by
        have hash := (Bool.or_eq_false_iff.1 clear).2
        intro first
        simp [Reader.looksAt, Reader.head?, here, List.head?_append, first] at hash
      rw [staysPlain_true_eq some_w solid] at ends
      obtain ⟨run, w', rfl, some_, gap, after, read⟩ | ⟨-, run, v, rfl, read⟩ :=
        plain?_step clear start here
      · rw [read] at h
        obtain ⟨⟨g₁, r₁⟩, white, next⟩ := Option.bind_eq_some_iff.1 h
        rw [after] at ends
        by_cases first : r₁.column = 0
        · have more : w' ≠ [] := by
            rintro rfl
            cases ends
          have long_w' := List.length_pos_iff.2 more
          simp only [first, if_true] at next
          obtain ⟨rfl, -⟩ := Prod.mk.inj (Option.some.inj next)
          simp only [List.length_append]
          omega
        · simp only [first, if_false] at next
          obtain ⟨w'', left, start', joint, less⟩ :=
            read?_behind white (Nat.le_refl _) rfl first gap ends
          have fits' : r₁.rest.length < fuel := by
            have long := List.length_pos_iff.2 some_
            simp only [here, left, List.length_append] at fits ⊢
            omega
          cases stays : staysPlain true w'' with
          | false =>
            have shorter := ih next stays start' left fits'
            simp only [List.length_append] at shorter ⊢
            omega
          | true =>
            obtain ⟨index, whole⟩ := plain?_line stays start' left (Nat.pos_of_ne_zero first) fits'
            rw [whole] at next
            obtain ⟨rfl, -⟩ := Prod.mk.inj (Option.some.inj next)
            have shorter := less stays
            simp only [List.length_append]
            omega
      · rw [read] at h
        obtain ⟨rfl, -⟩ := Prod.mk.inj (Option.some.inj h)
        split <;> simp only [List.length_append, List.length_cons] <;> omega

end Lines

end AdapterForge.Yaml

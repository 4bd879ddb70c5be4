import AdapterForge.Proofs.ExpectedLines

/-!
The declaration of an expected request as a statement. Outside of string literals its parentheses are
balanced and it ends with its only semicolon, and its lines are indented deeper than the first one.
-/
namespace AdapterForge.Java

def indentation (line : List Char) : List Char := line.takeWhile isBlank

/-- A text that is one statement: outside of string literals its parentheses are balanced, it ends with
its only semicolon, and its lines are indented deeper than the first one. -/
structure IsStatement (text : List Char) : Prop where
  balanced : nesting? 0 (lex .blank text) = some 0
  ended : ∃ body, text = body ++ [';', '\n'] ∧ (modeAfter .blank body).isOutside = true ∧
    .symbol ';' ∉ lex .blank body
  indented : ∃ first rest, text = (first :: rest).flatMap (· ++ ['\n']) ∧
    (∀ line ∈ first :: rest, '\n' ∉ line) ∧
    ∀ line ∈ rest, indentation first <+: indentation line ∧
      (indentation first).length < (indentation line).length

section

variable {unit : String}

theorem indent_add (unit : String) (level more : Nat) :
    indent unit (level + more) = indent unit level ++ indent unit more := by
  rw [indent, ← List.replicate_append_replicate, List.flatten_append]
  rfl

theorem indentation_eq (hunit : ∀ c ∈ unit.toList, c = ' ' ∨ c = '\t') (level : Nat) {s : List Char}
    (h : Whole s) : indentation (indent unit level ++ s) = indent unit level := by
  obtain ⟨c, r, rfl, hc⟩ := h.start
  have hblank : ∀ d ∈ indent unit level, isBlank d = true := by
    intro d hd
    obtain rfl | rfl := blank_of_mem_indent hunit _ _ hd <;> rfl
  rw [indentation, List.takeWhile_append_of_pos hblank,
    List.takeWhile_cons_of_neg (Bool.eq_false_iff.1 hc), List.append_nil]

theorem newline_not_mem_laidOut (hunit : ∀ c ∈ unit.toList, c = ' ' ∨ c = '\t') {l : Line}
    (h : Whole l.text.toList) : '\n' ∉ laidOut unit l := by
  rw [laidOut, List.mem_append, not_or]
  refine ⟨fun hbreak => ?_, h.oneLine⟩
  obtain hspace | htab := blank_of_mem_indent hunit _ _ hbreak
  · exact absurd hspace (by decide)
  · exact absurd htab (by decide)

theorem indentation_lt (hunit : ∀ c ∈ unit.toList, c = ' ' ∨ c = '\t') (hne : unit ≠ "")
    {k l : Line} (hk : Whole k.text.toList) (hl : Whole l.text.toList) (hlevel : k.level < l.level) :
    indentation (laidOut unit k) <+: indentation (laidOut unit l) ∧
      (indentation (laidOut unit k)).length < (indentation (laidOut unit l)).length := by
  obtain ⟨more, hmore⟩ := Nat.exists_eq_add_of_lt hlevel
  have hunitLength : 0 < unit.toList.length :=
    List.length_pos_of_ne_nil (mt String.toList_eq_nil_iff.1 hne)
  rw [laidOut, laidOut, indentation_eq hunit _ hk, indentation_eq hunit _ hl, hmore, Nat.add_assoc,
    indent_add]
  refine ⟨List.prefix_append _ _, ?_⟩
  rw [List.length_append, indent, indent, List.replicate_succ, List.flatten_cons, List.length_append]
  omega

theorem closeLast_eq (ending : String) (first : Line) (lines : List Line) :
    ∃ init level text, first :: lines = init ++ [⟨level, text⟩] ∧
      closeLast ending first lines = init ++ [⟨level, text ++ ending⟩] := by
  induction lines generalizing first with
  | nil => exact ⟨[], first.level, first.text, rfl, rfl⟩
  | cons l lines ih =>
    obtain ⟨init, level, text, hlines, hclosed⟩ := ih l
    exact ⟨first :: init, level, text, by rw [hlines, List.cons_append],
      by rw [closeLast, hclosed, List.cons_append]⟩

/-- Only the last line changes, and it keeps its level. -/
theorem closeLast_lines {ending : String} (hending : IsEnding ending) (first : Line)
    (hfirst : Whole first.text.toList) {tail : List Line}
    (htail : ∀ l ∈ tail, 2 ≤ l.level ∧ Whole l.text.toList) :
    ∃ f r, closeLast ending first tail = f :: r ∧ f.level = first.level ∧ Whole f.text.toList ∧
      ∀ l ∈ r, 2 ≤ l.level ∧ Whole l.text.toList := by
  cases tail with
  | nil =>
    exact ⟨_, [], rfl, rfl, (hending.behind hfirst).1, List.forall_mem_nil _⟩
  | cons l tail => exact ⟨first, _, rfl, rfl, hfirst, (closeLast_spec hending htail).1⟩

def Line.shift (level : Nat) (l : Line) : Line := ⟨level + l.level, l.text⟩

theorem laidOut_append (unit ending : String) (level : Nat) (text : String) :
    laidOut unit ⟨level, text ++ ending⟩ = laidOut unit ⟨level, text⟩ ++ ending.toList := by
  rw [laidOut, laidOut, List.append_assoc, String.toList_append]

/-- Lines with a semicolon behind the last one: but for it, their tokens are those of the lines. -/
theorem layout_closeLast (hunit : ∀ c ∈ unit.toList, c = ' ' ∨ c = '\t') {first : Line}
    {tail : List Line} (hwhole : ∀ l ∈ first :: tail, Whole l.text.toList) (level : Nat) :
    ∃ body, (layout unit ((closeLast ";" first tail).map (.shift level))).toList =
        body ++ [';', '\n'] ∧
      lex .blank body = (first :: tail).flatMap (tokens ·.text) ∧
      (modeAfter .blank body).isOutside = true := by
  obtain ⟨init, last, text, hlines, hclosed⟩ := closeLast_eq ";" first tail
  rw [hlines, List.forall_mem_append, List.forall_mem_singleton] at hwhole
  have hinit : ∀ l ∈ init.map (Line.shift level), Whole l.text.toList := List.forall_mem_map.2 hwhole.1
  have hlast : Whole (text ++ ";").toList := (isEnding_semicolon.behind hwhole.2).1
  obtain ⟨hlex, hmode⟩ := lex_layout hunit (fun l hl => .inr (hinit l hl))
    (laidOut unit ⟨level + last, text⟩)
  obtain ⟨hlexLast, hmodeLast⟩ := lex_blanks (blank_of_mem_indent hunit (level + last)) text.toList
  refine ⟨(layout unit (init.map (.shift level))).toList ++ laidOut unit ⟨level + last, text⟩,
    ?_, ?_, ?_⟩
  · have hall : ∀ l ∈ (init ++ [(⟨last, text ++ ";"⟩ : Line)]).map (Line.shift level),
        Whole l.text.toList := by
      rw [List.map_append, List.forall_mem_append]
      exact ⟨hinit, List.forall_mem_singleton.2 hlast⟩
    rw [hclosed, toList_layout unit hall, List.map_append, List.map_append, List.flatMap_append,
      ← toList_layout unit hinit, List.map_singleton, List.map_singleton, List.flatMap_singleton,
      Line.shift, laidOut_append, List.append_assoc, List.append_assoc]
    rfl
  · rw [hlex, laidOut, hlexLast, List.flatMap_map, hlines, List.flatMap_append, List.flatMap_singleton]
    rfl
  · rw [hmode, laidOut, hmodeLast]
    exact hwhole.2.outside

theorem nesting?_semicolon {body : List Char} (houtside : (modeAfter .blank body).isOutside = true)
    (hmoves : Moves 0 0 (lex .blank body)) :
    nesting? 0 (lex .blank (body ++ [';', '\n'])) = some 0 := by
  have hends : (modeAfter .blank body).EndsBefore [';', '\n'] := by
    refine ⟨houtside, fun c r hc => ?_⟩
    obtain ⟨rfl, -⟩ := List.cons.inj hc
    exact Piece.endsBefore_of_number houtside (e := true) rfl
  rw [lex_append hends, nesting?, List.foldlM_append]
  change (nesting? 0 (lex .blank body)).bind _ = some 0
  rw [show nesting? 0 (lex .blank body) = some 0 from hmoves.depth 0]
  rfl

theorem indented_layout (hunit : ∀ c ∈ unit.toList, c = ' ' ∨ c = '\t') (hne : unit ≠ "")
    {first : Line} {rest : List Line} (hfirst : Whole first.text.toList)
    (hrest : ∀ l ∈ rest, first.level < l.level ∧ Whole l.text.toList) :
    ∃ line lines, (layout unit (first :: rest)).toList = (line :: lines).flatMap (· ++ ['\n']) ∧
      (∀ l ∈ line :: lines, '\n' ∉ l) ∧
      ∀ l ∈ lines, indentation line <+: indentation l ∧
        (indentation line).length < (indentation l).length := by
  have hall : ∀ l ∈ first :: rest, Whole l.text.toList :=
    List.forall_mem_cons.2 ⟨hfirst, fun l hl => (hrest l hl).2⟩
  refine ⟨laidOut unit first, rest.map (laidOut unit), toList_layout unit hall, ?_, ?_⟩
  · rw [← List.map_cons, List.forall_mem_map]
    exact fun l hl => newline_not_mem_laidOut hunit (hall l hl)
  · rw [List.forall_mem_map]
    exact fun l hl => indentation_lt hunit hne hfirst (hrest l hl).2 (hrest l hl).1

theorem isStatement_layout (hunit : ∀ c ∈ unit.toList, c = ' ' ∨ c = '\t') (hne : unit ≠ "")
    {P : NameUse → Prop} {first : String} {tail : List Line} (hfirst : Opens P 0 first)
    (htail : Block P tail) (level : Nat) :
    IsStatement (layout unit ((closeLast ";" ⟨0, first⟩ tail).map (.shift level))).toList := by
  have hwhole : ∀ l ∈ (⟨0, first⟩ : Line) :: tail, Whole l.text.toList :=
    List.forall_mem_cons.2 ⟨hfirst.whole, fun l hl => (htail.lines l hl).2⟩
  obtain ⟨body, htext, htokens, hmode⟩ := layout_closeLast hunit hwhole level
  have hmoves : Moves 0 0 (lex .blank body) := htokens ▸ hfirst.moves.append htail.moves
  refine ⟨?_, ⟨body, htext, hmode, ?_⟩, ?_⟩
  · rw [htext]
    exact nesting?_semicolon hmode hmoves
  · intro hmem
    have hany := List.any_eq_true.2 ⟨_, hmem, (rfl : isSemicolon (.symbol ';') = true)⟩
    rw [hmoves.noSemicolon] at hany
    cases hany
  · obtain ⟨f, r, hfr, hlevel, hf, hr⟩ := closeLast_lines isEnding_semicolon ⟨0, first⟩
      hfirst.whole htail.lines
    rw [hfr]
    refine indented_layout hunit hne hf (List.forall_mem_map.2 fun l hl => ⟨?_, (hr l hl).2⟩)
    have hdeeper := (hr l hl).1
    simp only at hlevel
    simp only [Line.shift, hlevel]
    omega

end

/-- The declaration of an expected request is one statement. -/
theorem expectedRequest_isStatement {imp request : Plan} {o : ExpectedObject}
    (ho : AdapterForge.expectedRequest imp request = .ok o)
    (hnames : ∀ a ∈ imp.assignments ++ request.assignments, a.Named) (ctx : RenderContext)
    (hunit : ∀ c ∈ ctx.indent.toList, c = ' ' ∨ c = '\t') (hne : ctx.indent ≠ "") (level : Nat) :
    IsStatement (expectedRequest o ctx level).toList := by
  obtain ⟨first, rest, hfirst, hrest, rfl⟩ := expectedRequest_eq_ok ho
  obtain ⟨himpNames, hrequestNames⟩ := List.forall_mem_append.1 hnames
  -- what is named does not matter here
  have huse := expectedUses_of_forall (fun _ => trivial) (expectationOf imp first rest)
  have htail := block_expectationOf ctx.params imp (Plan.overrides_placed hfirst)
    (Plan.overrides_placed hrest) (Plan.overrides_named hfirst himpNames)
    (Plan.overrides_named hrest hrequestNames) huse
  have hhead : Opens (fun _ => True) 0 "final BidRequest expectedRequest = bidRequest.toBuilder()" :=
    opens_code rfl rfl ⟨fun _ => rfl, rfl⟩ ⟨fun _ _ => trivial, rfl, rfl⟩
  exact isStatement_layout hunit hne hhead htail level

theorem expectedRequest_isStatement_sample :
    ∃ o, AdapterForge.expectedRequest ⟨.impression, repeatedGroups⟩ ⟨.request, []⟩ = .ok o ∧
      (∀ a ∈ repeatedGroups.flatMap (·.members), a.Named) ∧
      IsStatement (expectedRequest o ⟨" \t", "Void", []⟩ 2).toList := by
  have hnames : ∀ a ∈ repeatedGroups.flatMap (·.members), a.Named := by
    intro a ha
    simp only [repeatedGroups, List.flatMap_cons, List.flatMap_nil, List.append_nil,
      List.cons_append, List.nil_append, List.mem_cons, List.not_mem_nil, or_false] at ha
    obtain rfl | rfl := ha
    · exact ⟨by decide +kernel, nofun⟩
    · refine ⟨by decide +kernel, fun x hx => ?_⟩
      cases hx
      decide +kernel
  refine ⟨_, rfl, hnames, ?_⟩
  have hall : ∀ a ∈ (⟨.impression, repeatedGroups⟩ : Plan).assignments ++
      (⟨.request, []⟩ : Plan).assignments, a.Named :=
    List.forall_mem_append.2 ⟨hnames, fun a ha => absurd ha List.not_mem_nil⟩
  have hunit : ∀ c ∈ " \t".toList, c = ' ' ∨ c = '\t' := by
    intro c hc
    have hc : c ∈ [' ', '\t'] := hc
    simpa using hc
  exact expectedRequest_isStatement rfl hall ⟨" \t", "Void", []⟩ hunit (by decide) 2

end AdapterForge.Java

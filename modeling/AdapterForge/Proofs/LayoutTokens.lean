import AdapterForge.Java.Layout
import AdapterForge.Proofs.Tokens

/-!
The tokens of laid out lines.
-/
namespace AdapterForge.Java

section

variable {unit : String}

def indent (unit : String) (level : Nat) : List Char := (List.replicate level unit.toList).flatten

theorem toList_render (unit : String) {l : Line} (h : Whole l.text.toList) :
    (l.render unit).toList = indent unit l.level ++ l.text.toList ++ ['\n'] := by
  obtain ⟨c, r, hs, -⟩ := h.start
  have hne : l.text ≠ "" := by
    rw [Ne, ← String.toList_eq_nil_iff, hs]
    exact List.cons_ne_nil c r
  rw [Line.render, if_neg hne]
  rw [String.toList_append, String.toList_append, String.toList_join, List.flatMap_def,
    List.map_replicate]
  rfl

theorem blank_of_mem_indent (hunit : ∀ c ∈ unit.toList, c = ' ' ∨ c = '\t') (level : Nat) :
    ∀ c ∈ indent unit level, c = ' ' ∨ c = '\t' := by
  intro c h
  obtain ⟨s, hs, hc⟩ := List.mem_flatten.1 h
  rw [List.eq_of_mem_replicate hs] at hc
  exact hunit c hc

theorem lex_blanks {blanks : List Char} (h : ∀ c ∈ blanks, c = ' ' ∨ c = '\t') (s : List Char) :
    lex .blank (blanks ++ s) = lex .blank s ∧ modeAfter .blank (blanks ++ s) = modeAfter .blank s := by
  induction blanks with
  | nil => exact ⟨rfl, rfl⟩
  | cons c blanks ih =>
    obtain ⟨hc, hblanks⟩ := List.forall_mem_cons.1 h
    have hstep : readChar .blank c = ([], .blank) := by
      obtain rfl | rfl := hc <;> rfl
    rw [List.cons_append, lex_cons, hstep]
    refine ⟨(ih hblanks).1, ?_⟩
    rw [← (ih hblanks).2]
    simp only [modeAfter, List.foldl_cons, hstep]

theorem lex_render (hunit : ∀ c ∈ unit.toList, c = ' ' ∨ c = '\t') {l : Line}
    (h : l.text = "" ∨ Whole l.text.toList) (s : List Char) :
    lex .blank ((l.render unit).toList ++ s) = tokens l.text ++ lex .blank s ∧
      modeAfter .blank ((l.render unit).toList ++ s) = modeAfter .blank s := by
  obtain hempty | h := h
  · rw [Line.render, if_pos hempty, hempty]
    exact ⟨rfl, rfl⟩
  have hbreak : (modeAfter .blank l.text.toList).EndsBefore ('\n' :: s) := by
    refine ⟨h.outside, fun c r hc => ?_⟩
    obtain ⟨rfl, -⟩ := List.cons.inj hc
    exact Piece.endsBefore_of_number h.outside (e := true) rfl
  obtain ⟨hlex, hmode⟩ := lex_blanks (blank_of_mem_indent hunit l.level) (l.text.toList ++ '\n' :: s)
  rw [toList_render unit h, List.append_assoc, List.append_assoc, List.singleton_append, hlex, hmode,
    lex_append hbreak, modeAfter_append, modeAfter_of_endsBefore hbreak (List.cons_ne_nil _ _)]
  exact ⟨rfl, rfl⟩

/-- Laid out lines are read one by one, and empty ones not at all. -/
theorem lex_layout (hunit : ∀ c ∈ unit.toList, c = ' ' ∨ c = '\t') {lines : List Line}
    (h : ∀ l ∈ lines, l.text = "" ∨ Whole l.text.toList) (s : List Char) :
    lex .blank ((layout unit lines).toList ++ s) = lines.flatMap (tokens ·.text) ++ lex .blank s ∧
      modeAfter .blank ((layout unit lines).toList ++ s) = modeAfter .blank s := by
  induction lines with
  | nil => exact ⟨rfl, rfl⟩
  | cons l lines ih =>
    obtain ⟨hl, hlines⟩ := List.forall_mem_cons.1 h
    have hlayout : (layout unit (l :: lines)).toList =
        (l.render unit).toList ++ (layout unit lines).toList := by
      rw [layout, List.map_cons, String.join_cons, String.toList_append]
      rfl
    obtain ⟨hlex, hmode⟩ := lex_render hunit hl ((layout unit lines).toList ++ s)
    rw [hlayout, List.append_assoc, hlex, hmode, (ih hlines).1, (ih hlines).2, List.flatMap_cons,
      List.append_assoc]
    exact ⟨rfl, rfl⟩

def laidOut (unit : String) (l : Line) : List Char := indent unit l.level ++ l.text.toList

theorem toList_layout (unit : String) {lines : List Line} (h : ∀ l ∈ lines, Whole l.text.toList) :
    (layout unit lines).toList = (lines.map (laidOut unit)).flatMap (· ++ ['\n']) := by
  rw [layout, String.toList_join, List.flatMap_map, List.flatMap_map]
  apply List.flatMap_congr
  exact fun l hl => toList_render unit (h l hl)

end

end AdapterForge.Java

import AdapterForge.Java.TestClass

/-!
The fields that generated code sets by methods of their own names: those of model builders, in the
methods, in the expected request and in the fixture. Members of JSON nodes are named by string
literals instead.
-/
namespace AdapterForge

namespace Java

def Calls (name text : String) : Prop :=
  ∃ before after, text = before ++ "." ++ name ++ "(" ++ after

section

variable {name text : String} {line : Line} {lines : List Line}

theorem Calls.intro (before name after : String) :
    Calls name (before ++ "." ++ name ++ "(" ++ after) := ⟨before, after, rfl⟩

theorem Calls.append_left (h : Calls name text) (s : String) : Calls name (s ++ text) := by
  obtain ⟨before, after, rfl⟩ := h
  exact ⟨s ++ before, after, by simp only [String.append_assoc]⟩

theorem Calls.append_right (h : Calls name text) (s : String) : Calls name (text ++ s) := by
  obtain ⟨before, after, rfl⟩ := h
  exact ⟨before, after ++ s, by simp only [String.append_assoc]⟩

theorem calls_chained (name argument : String) :
    Calls name ("." ++ name ++ "(" ++ argument ++ ")") := by
  have hcall := (Calls.intro "" name argument).append_right ")"
  rwa [String.empty_append] at hcall

theorem calls_join {texts : List String} (htext : text ∈ texts) (h : Calls name text) :
    Calls name (String.join texts) := by
  obtain ⟨l, r, rfl⟩ := List.append_of_mem htext
  rw [String.join_append, String.join_cons]
  exact (h.append_right _).append_left _

theorem calls_layout {unit : String} (hline : line ∈ lines) (h : Calls name line.text) :
    Calls name (layout unit lines) := by
  refine calls_join (List.mem_map_of_mem hline) ?_
  have hne : line.text ≠ "" := by
    obtain ⟨before, after, htext⟩ := h
    simp [htext]
  rw [Line.render, if_neg hne]
  exact (h.append_left _).append_right _

theorem calls_closeLast {first : Line} (close : String) (hline : line ∈ first :: lines)
    (h : Calls name line.text) : ∃ l ∈ closeLast close first lines, Calls name l.text := by
  induction lines generalizing first with
  | nil =>
    obtain rfl := List.mem_singleton.1 hline
    exact ⟨_, List.mem_singleton_self _, h.append_right close⟩
  | cons next lines ih =>
    rcases List.mem_cons.1 hline with rfl | hline
    · exact ⟨line, List.mem_cons_self, h⟩
    · obtain ⟨l, hl, hcalls⟩ := ih hline
      exact ⟨l, List.mem_cons_of_mem _ hl, hcalls⟩

theorem calls_nest {opening : String} {tail : List Line}
    (h : Calls name opening ∨ ∃ l ∈ tail, Calls name l.text) (head close : String) :
    ∃ l ∈ nest opening head tail close, Calls name l.text := by
  rcases h with h | ⟨l, hl, h⟩
  · exact calls_closeLast close List.mem_cons_self (h.append_right head)
  · exact calls_closeLast close (List.mem_cons_of_mem _ (List.mem_map_of_mem hl)) h

end

def setter? : Statement → Option String
  | .locateExt | .start .. => none
  | .assign b k _ => if isJsonBuilder b then none else some k
  | .commit path => if isJsonBuilder (Builder.parentOf path) then none else some path.leaf

def setters (l : List Statement) : List String := l.filterMap setter?

theorem calls_setter {s : Statement} {k : String} (h : setter? s = some k) (scope : Scope)
    (extClass : String) (isFirst : Bool) :
    ∃ line ∈ statementLines scope extClass isFirst s, Calls k line := by
  cases s with
  | locateExt => cases h
  | start path kind => cases h
  | assign b f x =>
    refine ⟨_, List.mem_singleton_self _, ?_⟩
    simp only [setter?] at h
    split at h
    · cases h
    · next hjson =>
      obtain rfl := Option.some.inj h
      simp only [writeCall, if_neg hjson]
      exact ((Calls.intro _ _ _).append_right ")").append_right ";"
  | commit path =>
    refine ⟨_, List.mem_singleton_self _, ?_⟩
    simp only [setter?] at h
    split at h
    · cases h
    · next hjson =>
      obtain rfl := Option.some.inj h
      simp only [commitCall, if_neg hjson]
      exact (Calls.intro _ _ _).append_right ");"

theorem calls_bodyLines {l : List Statement} {k : String} (h : k ∈ setters l) (scope : Scope)
    (extClass : String) : ∃ line ∈ bodyLines scope extClass l, Calls k line := by
  obtain ⟨s, hs, hk⟩ := List.mem_filterMap.1 h
  cases l with
  | nil => cases hs
  | cons first r =>
    rcases List.mem_cons.1 hs with rfl | hs
    · obtain ⟨line, hline, hcalls⟩ := calls_setter hk scope extClass (scope = .request)
      exact ⟨line, List.mem_append_left _ hline, hcalls⟩
    · obtain ⟨line, hline, hcalls⟩ := calls_setter hk scope extClass false
      exact ⟨line, List.mem_append_right _ (List.mem_flatMap.2 ⟨s, hs, hline⟩), hcalls⟩

theorem calls_method {q : Program} {k : String} (h : k ∈ setters q.statements)
    (ctx : RenderContext) : Calls k (modifyImp q ctx) ∧ Calls k (modifyRequest q ctx) := by
  obtain ⟨line, hline, hcalls⟩ := calls_bodyLines h q.scope ctx.extClass
  have hmem : (⟨2, line⟩ : Line) ∈ (bodyLines q.scope ctx.extClass q.statements).map (⟨2, ·⟩) :=
    List.mem_map_of_mem hline
  constructor
  · unfold modifyImp
    exact calls_layout (List.mem_append_left _ (List.mem_append_right _ hmem)) hcalls
  · unfold modifyRequest
    exact calls_layout (List.mem_append_left _ (List.mem_append_right _ hmem)) hcalls

def fieldSetter (kind : ObjectKind) (field : String) : List String :=
  if kind.isJson then [] else [field]

mutual

def objectSetters : ExpectedObject → List String
  | .mk root steps overrides => overrideSetters (kindAfter root steps) overrides

def overrideSetters (kind : ObjectKind) : List Override → List String
  | [] => []
  | .value field _ :: r => fieldSetter kind field ++ overrideSetters kind r
  | .object field o :: r =>
    fieldSetter kind field ++ (objectSetters o ++ overrideSetters kind r)
  | .singleImp o :: r => "imp" :: (objectSetters o ++ overrideSetters kind r)

end

theorem mem_fieldSetter {kind : ObjectKind} {field k : String} :
    k ∈ fieldSetter kind field ↔ kind.isJson = false ∧ k = field := by
  unfold fieldSetter
  cases kind.isJson <;> simp

theorem calls_valueCall {kind : ObjectKind} {field k : String} (h : k ∈ fieldSetter kind field)
    (params : List Param) (x : Operand) : Calls k (valueCall params kind field x) := by
  obtain ⟨hkind, rfl⟩ := mem_fieldSetter.1 h
  cases kind with
  | json => cases hkind
  | model name => exact calls_chained k _

theorem calls_objectOpening {kind : ObjectKind} {field k : String} (h : k ∈ fieldSetter kind field) :
    Calls k (objectOpening kind field) := by
  obtain ⟨hkind, rfl⟩ := mem_fieldSetter.1 h
  cases kind with
  | json => cases hkind
  | model name =>
    have hcall := Calls.intro "" k ""
    rwa [String.empty_append, String.append_empty] at hcall

mutual

theorem calls_objectTail (params : List Param) {k : String} : ∀ {o : ExpectedObject},
    k ∈ objectSetters o → ∃ line ∈ objectTail params o, Calls k line.text
  | .mk root steps overrides, h => by
    obtain ⟨line, hline, hcalls⟩ := calls_overrideLines params h
    exact ⟨line, List.mem_append_left _ (List.mem_append_right _ hline), hcalls⟩

theorem calls_overrideLines (params : List Param) {k : String} {kind : ObjectKind} :
    ∀ {os : List Override},
    k ∈ overrideSetters kind os → ∃ line ∈ overrideLines params kind os, Calls k line.text
  | .value field x :: r, h => by
    rcases List.mem_append.1 h with h | h
    · exact ⟨_, List.mem_cons_self, calls_valueCall h params x⟩
    · obtain ⟨line, hline, hcalls⟩ := calls_overrideLines params h
      exact ⟨line, List.mem_cons_of_mem _ hline, hcalls⟩
  | .object field o :: r, h => by
    rw [overrideSetters, ← List.append_assoc, List.mem_append, List.mem_append] at h
    rcases h with h | h
    · obtain ⟨line, hline, hcalls⟩ := calls_nest
        (h.imp calls_objectOpening (calls_objectTail params)) (objectHead o) ")"
      exact ⟨line, List.mem_append_left _ hline, hcalls⟩
    · obtain ⟨line, hline, hcalls⟩ := calls_overrideLines params h
      exact ⟨line, List.mem_append_right _ hline, hcalls⟩
  | .singleImp o :: r, h => by
    have hopening : k = "imp" → Calls k ".imp(singletonList(" := by
      rintro rfl
      exact ⟨"", "singletonList(", by decide⟩
    rw [overrideSetters, ← List.cons_append, List.mem_append, List.mem_cons] at h
    rcases h with h | h
    · obtain ⟨line, hline, hcalls⟩ := calls_nest
        (h.imp hopening (calls_objectTail params)) (objectHead o) "))"
      exact ⟨line, List.mem_append_left _ hline, hcalls⟩
    · obtain ⟨line, hline, hcalls⟩ := calls_overrideLines params h
      exact ⟨line, List.mem_append_right _ hline, hcalls⟩

end

theorem calls_expectedRequest {o : ExpectedObject} {k : String} (h : k ∈ objectSetters o)
    (ctx : RenderContext) (level : Nat) : Calls k (expectedRequest o ctx level) := by
  obtain ⟨inner, hinner, hcalls⟩ := calls_objectTail ctx.params h
  obtain ⟨line, hline, hcalls⟩ := calls_closeLast ";" (List.mem_cons_of_mem
    ⟨0, "final BidRequest expectedRequest = " ++ objectHead o⟩ hinner) hcalls
  exact calls_layout (List.mem_map_of_mem hline) hcalls

/-- The setters that the calls of `sampleCalls` are. -/
def sampleSetters : (levels : Nat) → Option ObjectKind → (index : Nat) → List SampleField → List String
  | 0, _, _, _ => []
  | levels + 1, parent, index, l =>
    (groupBySegment index (·.path) l).flatMap fun (field, items) =>
      (if parent == some .json then [] else [field]) ++
        if (items.find? (·.path.depth = index + 1)).isSome then []
        else sampleSetters levels (some (.ofField field parent)) (index + 1) items

def customizerSetters (l : List SampleField) : List String :=
  sampleSetters ((l.map (·.path.depth)).foldr max 0) none 0 l

theorem calls_newObject {calls k : String} (h : Calls k calls) (kind : ObjectKind) :
    Calls k (newObject kind calls) := by
  cases kind with
  | model name => exact (h.append_left _).append_right _
  | json => exact h.append_left _

theorem calls_objectCall {object k : String} (h : Calls k object) (inJson : Bool) (field : String) :
    Calls k (objectCall inJson field object) := by
  unfold objectCall
  cases inJson
  · exact (h.append_left _).append_right _
  · exact (h.append_left _).append_right _

theorem calls_sampleCalls {levels index : Nat} {parent : Option ObjectKind} {l : List SampleField}
    {k : String} (h : k ∈ sampleSetters levels parent index l) :
    Calls k (sampleCalls levels parent index l) := by
  induction levels generalizing parent index l with
  | zero => cases h
  | succ levels ih =>
    obtain ⟨⟨field, items⟩, hg, hk⟩ := List.mem_flatMap.1 h
    refine calls_join (List.mem_map_of_mem hg) ?_
    rcases List.mem_append.1 hk with hk | hk
    · split at hk
      · cases hk
      · next hjson =>
        obtain rfl := List.mem_singleton.1 hk
        dsimp only
        split
        · simp only [leafCall, if_neg hjson]
          exact calls_chained k _
        · simp only [objectCall, if_neg hjson]
          exact calls_chained k _
    · cases hfind : items.find? (·.path.depth = index + 1) with
      | some leaf =>
        simp only [hfind, Option.isSome_some, if_true] at hk
        cases hk
      | none =>
        simp only [hfind, Option.isSome_none, Bool.false_eq_true, if_false] at hk ⊢
        exact calls_objectCall (calls_newObject (ih hk) _) _ field

theorem calls_customizer {l : List SampleField} {k : String} (h : k ∈ customizerSetters l)
    (var : String) : Calls k (customizer var l) := by
  unfold customizer
  split
  · next hempty =>
    obtain rfl := List.isEmpty_iff.1 hempty
    cases h
  · exact (calls_sampleCalls h).append_left _

section

variable {a : Adapter} {c : Compiled} {k : String}

theorem calls_adapterBody (ctx : RenderContext)
    (hk : k ∈ c.programs.flatMap fun q => setters q.statements) :
    Calls k (adapterBody ctx a c) := by
  obtain ⟨q, hq, hk⟩ := List.mem_flatMap.1 hk
  obtain ⟨himp, hrequest⟩ := calls_method hk ctx
  unfold adapterBody
  rcases List.mem_append.1 hq with hq | hq
  · obtain hq := Option.mem_toList.1 hq
    have hblock : Calls k (methodBlock modifyImp ctx c.imp) := by
      rw [hq]
      exact himp.append_left _
    exact ((hblock.append_left _).append_right _).append_right _
  · obtain hq := Option.mem_toList.1 hq
    have hblock : Calls k (methodBlock modifyRequest ctx c.request) := by
      rw [hq]
      exact hrequest.append_left _
    exact (hblock.append_left _).append_right _

theorem calls_testBody (ctx : RenderContext)
    (hk : k ∈ objectSetters c.expected ++ (customizerSetters a.fixture.impFields ++
      customizerSetters a.fixture.requestFields)) : Calls k (testBody ctx a c) := by
  unfold testBody unlines
  rcases List.mem_append.1 hk with hk | hk
  · have hcalls := calls_expectedRequest hk ctx 2
    refine calls_join (List.mem_map_of_mem ?_) (hcalls.append_right "\n")
    simp only [List.mem_cons, true_or, or_true]
  · rcases List.mem_append.1 hk with hk | hk
    · have hcalls := (calls_customizer hk "impBuilder").append_left "                "
      refine calls_join (List.mem_map_of_mem ?_) ((hcalls.append_right ",").append_right "\n")
      simp only [Fixture.impCustomizer, List.mem_cons, true_or, or_true]
    · have hcalls := (calls_customizer hk "requestBuilder").append_left "                "
      refine calls_join (List.mem_map_of_mem ?_) ((hcalls.append_right ");").append_right "\n")
      simp only [Fixture.requestCustomizer, List.mem_cons, true_or, or_true]

end

end Java

end AdapterForge

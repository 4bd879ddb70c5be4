import AdapterForge.Expectation.Basic
import AdapterForge.Program.Basic

/-!
Expectations written out statement by statement. The objects of an expectation are reached by steps
through the objects around them, so the kinds of their steps are the kinds of the builders that
they need.
-/
namespace AdapterForge

def Builder.child : Builder → String → FieldPath
  | .root, k => ⟨k, []⟩
  | .nested p, k => ⟨p.first, p.rest ++ [k]⟩

def Builder.names : Builder → List String
  | .root => []
  | .nested p => p.segments

mutual

/-- An object that is rebuilt inside a builder, as statements: a value is an assignment, an object a
builder of its own. -/
def ExpectedObject.statements (b : Builder) : ExpectedObject → List Statement
  | .mk _ _ overrides => statementsOf b overrides

def statementsOf (b : Builder) : List Override → List Statement
  | [] => []
  | .value field value :: r => .assign b field value :: statementsOf b r
  | .object field o :: r =>
    .start (b.child field) o.kind ::
      (o.statements (.nested (b.child field)) ++ .commit (b.child field) :: statementsOf b r)
  | .singleImp _ :: r => statementsOf b r

end

def stepsFrom (parent : Option ObjectKind) : List String → List Step
  | [] => []
  | k :: r => ⟨k, .ofField k parent⟩ :: stepsFrom (some (.ofField k parent)) r

def stepsTo (names : List String) : List Step := stepsFrom none names

/-- Overrides of the object that `names` lead to: every object inside is reached by one more. -/
inductive PlacedIn (root : ExpectedRoot) : List String → List Override → Prop
  | nil {names : List String} : PlacedIn root names []
  | value {names : List String} {field : String} {value : Operand} {r : List Override} :
    PlacedIn root names r → PlacedIn root names (.value field value :: r)
  | object {names : List String} {field : String} {inner r : List Override} :
    PlacedIn root (names ++ [field]) inner → PlacedIn root names r →
      PlacedIn root names (.object field (.mk root (stepsTo (names ++ [field])) inner) :: r)

@[simp] theorem Builder.names_child (b : Builder) (k : String) :
    (Builder.nested (b.child k)).names = b.names ++ [k] := by
  cases b <;> rfl

theorem Builder.segments_child (b : Builder) (k : String) :
    (b.child k).segments = b.names ++ [k] := b.names_child k

theorem ObjectKind.along_append (parent : Option ObjectKind) (names : List String) (k : String) :
    along parent (names ++ [k]) = some (ofField k (along parent names)) := by
  induction names generalizing parent with
  | nil => rfl
  | cons j r ih => exact ih _

theorem ObjectKind.ofPath_child (b : Builder) (k : String) :
    ofPath (b.child k) = ofField k (along none b.names) := by
  rw [ofPath, b.segments_child, along_append]
  rfl

theorem stepsFrom_append (parent : Option ObjectKind) (names : List String) (k : String) :
    stepsFrom parent (names ++ [k]) =
      stepsFrom parent names ++ [⟨k, .ofField k (ObjectKind.along parent names)⟩] := by
  induction names generalizing parent with
  | nil => rfl
  | cons j r ih => simp only [List.cons_append, stepsFrom, ObjectKind.along, ih]

theorem stepsTo_append (names : List String) (k : String) :
    stepsTo (names ++ [k]) =
      stepsTo names ++ [⟨k, .ofField k (ObjectKind.along none names)⟩] :=
  stepsFrom_append none names k

theorem stepsTo_nil : stepsTo [] = [] := rfl

theorem map_field_stepsFrom (parent : Option ObjectKind) (names : List String) :
    (stepsFrom parent names).map (·.field) = names := by
  induction names generalizing parent with
  | nil => rfl
  | cons k r ih => simp [stepsFrom, ih]

theorem getLast?_stepsTo (names : List String) :
    (stepsTo names).getLast?.map (·.kind) = ObjectKind.along none names := by
  rcases List.eq_nil_or_concat names with rfl | ⟨r, k, rfl⟩
  · rfl
  · simp [stepsTo_append, ObjectKind.along_append]

theorem kindAfter_stepsTo (root : ExpectedRoot) (names : List String) (k : String) :
    kindAfter root (stepsTo (names ++ [k])) = .ofField k (ObjectKind.along none names) := by
  simp [kindAfter, stepsTo_append]

theorem statementsOf_append (b : Builder) (l m : List Override) :
    statementsOf b (l ++ m) = statementsOf b l ++ statementsOf b m := by
  induction l with
  | nil => rfl
  | cons o l ih => cases o <;> simp [statementsOf, ih]

theorem statementsOf_flatten (b : Builder) (parts : List (List Override)) :
    statementsOf b parts.flatten = (parts.map (statementsOf b)).flatten := by
  induction parts with
  | nil => rfl
  | cons l parts ih => simp [statementsOf_append, ih]

theorem filterMap_statementsOf_flatten {γ : Type} (f : Statement → Option γ) (b : Builder)
    (parts : List (List Override)) :
    (statementsOf b parts.flatten).filterMap f =
      (parts.map fun part => (statementsOf b part).filterMap f).flatten := by
  rw [statementsOf_flatten, List.filterMap_flatten, List.map_map]
  rfl

theorem PlacedIn.append {root : ExpectedRoot} {names : List String} {l m : List Override}
    (hl : PlacedIn root names l) (hm : PlacedIn root names m) : PlacedIn root names (l ++ m) := by
  induction hl with
  | nil => exact hm
  | value _ ih => exact .value (ih hm)
  | object hi _ _ ih => exact .object hi (ih hm)

theorem PlacedIn.flatten {root : ExpectedRoot} {names : List String}
    {parts : List (List Override)} (h : ∀ l ∈ parts, PlacedIn root names l) :
    PlacedIn root names parts.flatten := by
  induction parts with
  | nil => exact .nil
  | cons l parts ih =>
    exact .append (h l (by simp)) (ih fun m hm => h m (List.mem_cons_of_mem _ hm))

theorem PlacedIn.of_values {root : ExpectedRoot} {names : List String} {os : List Override}
    (h : ∀ o ∈ os, ∃ k v, o = .value k v) : PlacedIn root names os := by
  induction os with
  | nil => exact .nil
  | cons o os ih =>
    obtain ⟨k, v, rfl⟩ := h o (by simp)
    exact .value (ih fun q hq => h q (List.mem_cons_of_mem _ hq))

theorem statementsOf_placed (root : ExpectedRoot) (b : Builder) (k : String)
    (inner r : List Override) :
    statementsOf b (.object k (.mk root (stepsTo (b.names ++ [k])) inner) :: r) =
      .start (b.child k) (.ofPath (b.child k)) ::
        (statementsOf (.nested (b.child k)) inner ++ .commit (b.child k) :: statementsOf b r) := by
  rw [ObjectKind.ofPath_child, ← kindAfter_stepsTo root]
  rfl

theorem PlacedIn.start_kind {root : ExpectedRoot} {names : List String} {os : List Override}
    (h : PlacedIn root names os) {b : Builder} (hb : b.names = names) {path : FieldPath}
    {kind : ObjectKind} (hs : .start path kind ∈ statementsOf b os) : kind = .ofPath path := by
  induction h generalizing b with
  | nil => simp [statementsOf] at hs
  | value _ ih =>
    simp only [statementsOf, List.mem_cons, reduceCtorEq, false_or] at hs
    exact ih hb hs
  | @object names k inner r _ _ ihi ihr =>
    subst hb
    simp only [statementsOf_placed, List.mem_cons, List.mem_append, reduceCtorEq, false_or,
      Statement.start.injEq] at hs
    rcases hs with ⟨rfl, rfl⟩ | hs | hs
    · rfl
    · exact ihi (b.names_child k) hs
    · exact ihr rfl hs

def startedKinds (l : List Statement) : List ObjectKind := l.filterMap (·.startedKind?)

theorem startedKinds_append (l m : List Statement) :
    startedKinds (l ++ m) = startedKinds l ++ startedKinds m := List.filterMap_append

theorem startedKinds_placed (root : ExpectedRoot) (b : Builder) (k : String)
    (inner r : List Override) :
    startedKinds (statementsOf b (.object k (.mk root (stepsTo (b.names ++ [k])) inner) :: r)) =
      .ofPath (b.child k) ::
        (startedKinds (statementsOf (.nested (b.child k)) inner) ++
          startedKinds (statementsOf b r)) := by
  have hstart : startedKinds [.start (b.child k) (.ofPath (b.child k))] = [.ofPath (b.child k)] := rfl
  rw [statementsOf_placed, ← List.singleton_append, startedKinds_append, startedKinds_append, hstart]
  rfl

theorem stepKindsOf_placed (root : ExpectedRoot) (b : Builder) (k : String)
    (inner r : List Override) :
    stepKindsOf (.object k (.mk root (stepsTo (b.names ++ [k])) inner) :: r) =
      (stepsTo b.names).map (·.kind) ++
        .ofPath (b.child k) :: (stepKindsOf inner ++ stepKindsOf r) := by
  simp [stepKindsOf, ExpectedObject.stepKinds, stepsTo_append, ObjectKind.ofPath_child]

theorem PlacedIn.mem_stepKinds_of_started {root : ExpectedRoot} {names : List String}
    {os : List Override} (h : PlacedIn root names os) {b : Builder} (hb : b.names = names)
    {kind : ObjectKind} (hk : kind ∈ startedKinds (statementsOf b os)) :
    kind ∈ stepKindsOf os := by
  induction h generalizing b with
  | nil => exact hk
  | value _ ih => exact ih hb hk
  | @object names k inner r _ _ ihi ihr =>
    subst hb
    rw [startedKinds_placed] at hk
    rw [stepKindsOf_placed]
    simp only [List.mem_cons, List.mem_append] at hk ⊢
    rcases hk with rfl | hk | hk
    · exact .inr (.inl rfl)
    · exact .inr (.inr (.inl (ihi (b.names_child k) hk)))
    · exact .inr (.inr (.inr (ihr rfl hk)))

/-- The objects inside are reached through objects of the kinds that are passed on the way to the
outer object and through those that have a builder themselves. -/
theorem PlacedIn.started_of_mem_stepKinds {root : ExpectedRoot} {names : List String}
    {os : List Override} (h : PlacedIn root names os) {b : Builder} (hb : b.names = names)
    {kind : ObjectKind} (hk : kind ∈ stepKindsOf os) :
    kind ∈ (stepsTo names).map (·.kind) ∨ kind ∈ startedKinds (statementsOf b os) := by
  induction h generalizing b with
  | nil => simp [stepKindsOf] at hk
  | value _ ih => exact ih hb hk
  | @object names k inner r _ _ ihi ihr =>
    subst hb
    rw [stepKindsOf_placed] at hk
    rw [startedKinds_placed]
    simp only [List.mem_cons, List.mem_append] at hk ⊢
    rcases hk with hk | rfl | hk | hk
    · exact .inl hk
    · exact .inr (.inl rfl)
    · rcases ihi (b.names_child k) hk with hi | hi
      · simp only [stepsTo_append, List.map_append, List.map_cons, List.map_nil, List.mem_append,
          List.mem_singleton, ← ObjectKind.ofPath_child] at hi
        exact hi.imp_right .inl
      · exact .inr (.inr (.inl hi))
    · exact (ihr rfl hk).imp_right fun hr => .inr (.inr hr)

theorem PlacedIn.mem_stepKinds_iff {root : ExpectedRoot} {os : List Override}
    (h : PlacedIn root [] os) {kind : ObjectKind} :
    kind ∈ stepKindsOf os ↔ kind ∈ startedKinds (statementsOf .root os) := by
  constructor
  · intro hk
    rcases h.started_of_mem_stepKinds (b := .root) rfl hk with hs | hs
    · simp [stepsTo_nil] at hs
    · exact hs
  · exact h.mem_stepKinds_of_started rfl

theorem PlacedIn.isLocateExt_eq_false {root : ExpectedRoot} {names : List String}
    {os : List Override} (h : PlacedIn root names os) {b : Builder} {s : Statement}
    (hs : s ∈ statementsOf b os) : s.isLocateExt = false := by
  induction h generalizing b with
  | nil => simp [statementsOf] at hs
  | value _ ih =>
    rcases List.mem_cons.1 hs with rfl | hs
    · rfl
    · exact ih hs
  | object _ _ ihi ihr =>
    simp only [statementsOf, ExpectedObject.statements, List.mem_cons, List.mem_append] at hs
    rcases hs with rfl | hs | rfl | hs
    · rfl
    · exact ihi hs
    · rfl
    · exact ihr hs

theorem PlacedIn.rebuildsAny_eq {root : ExpectedRoot} {names : List String} {os : List Override}
    (h : PlacedIn root names os) (b : Builder) :
    rebuildsAny os = !(startedKinds (statementsOf b os)).isEmpty := by
  induction h with
  | nil => rfl
  | value _ ih => exact ih
  | object _ _ _ _ => rfl

end AdapterForge

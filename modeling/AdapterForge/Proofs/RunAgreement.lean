import AdapterForge.Pipeline
import AdapterForge.Proofs.SynthesisAgreement

/-!
Running a program and evaluating the expectation that says the same. The builders of a running
program stand in front of each other like the objects of the expectation around the one that is
being evaluated.
-/
namespace AdapterForge

/-- What tells run errors apart: the expression of a null dereference. All other errors are faults of
the request's shape. -/
inductive RunFault where
  | nullDereference (expression : String)
  | requestShape
  deriving DecidableEq

def RunError.fault : RunError → RunFault
  | .nullDereference expression => .nullDereference expression
  | _ => .requestShape

namespace Machine

/-- The builder `b` is the one in front; all others belong to objects around it. -/
def Holds (m : Machine) (fields : Fields Json) : Builder → Prop
  | .root => m.root = fields ∧ m.opened = []
  | .nested p => ∃ around, m.opened = (p, fields) :: around ∧ ∀ e ∈ around, e.1.depth < p.depth

def hold (m : Machine) (b : Builder) (fields : Fields Json) : Machine :=
  match b with
  | .root => { m with root := fields }
  | .nested p => m.put p fields

variable {m : Machine} {b : Builder} {fields : Fields Json}

theorem put_put (m : Machine) (p : FieldPath) (f g : Fields Json) :
    (m.put p f).put p g = m.put p g := by
  simp [put]

theorem hold_hold (m : Machine) (b : Builder) (f : Fields Json) :
    (m.hold b f).hold b = m.hold b := by
  funext g
  cases b with
  | root => rfl
  | nested p => exact m.put_put p f g

theorem filter_around {p : FieldPath} {around : List (FieldPath × Fields Json)}
    (h : ∀ e ∈ around, e.1.depth < p.depth) : around.filter (·.1 ≠ p) = around := by
  rw [List.filter_eq_self]
  intro e he
  have hne : e.1 ≠ p := by
    rintro rfl
    exact absurd (h e he) (Nat.lt_irrefl _)
  simpa using hne

theorem filter_front {p : FieldPath} {around : List (FieldPath × Fields Json)}
    (h : ∀ e ∈ around, e.1.depth < p.depth) (f : Fields Json) :
    ((p, f) :: around).filter (·.1 ≠ p) = around := by
  rw [List.filter_cons_of_neg (by simp), filter_around h]

theorem Holds.hold_eq (h : m.Holds fields b) : m.hold b fields = m := by
  obtain ⟨root, opened, sources⟩ := m
  cases b with
  | root =>
    obtain ⟨rfl, -⟩ := h
    rfl
  | nested p =>
    obtain ⟨around, rfl, hd⟩ := h
    simp only [hold, put, filter_front hd]

theorem Holds.hold (h : m.Holds fields b) (g : Fields Json) : (m.hold b g).Holds g b := by
  cases b with
  | root => exact ⟨rfl, h.2⟩
  | nested p =>
    obtain ⟨around, ho, hd⟩ := h
    refine ⟨around, ?_, hd⟩
    simp only [Machine.hold, put, ho, filter_front hd]

theorem Holds.modify_eq (h : m.Holds fields b) (f : Fields Json → Fields Json) :
    m.modify b f = .ok (m.hold b (f fields)) := by
  cases b with
  | root =>
    obtain ⟨rfl, -⟩ := h
    rfl
  | nested p =>
    obtain ⟨around, ho, -⟩ := h
    simp [modify, ho, Machine.hold]

theorem depth_child (b : Builder) (k : String) : (b.child k).depth = b.names.length + 1 := by
  rw [← FieldPath.length_segments, b.segments_child, List.length_append]
  rfl

theorem Holds.depth_lt (h : m.Holds fields b) (k : String) :
    ∀ e ∈ m.opened, e.1.depth < (b.child k).depth := by
  intro e he
  rw [depth_child]
  cases b with
  | root =>
    rw [h.2] at he
    cases he
  | nested p =>
    obtain ⟨around, ho, hd⟩ := h
    have hp : (Builder.nested p).names.length = p.depth := p.length_segments
    rw [hp]
    rw [ho] at he
    rcases List.mem_cons.1 he with rfl | he
    · exact Nat.lt_succ_self _
    · exact Nat.lt_succ_of_lt (hd e he)

theorem Holds.put_child (h : m.Holds fields b) (k : String) (g : Fields Json) :
    (m.put (b.child k) g).Holds g (.nested (b.child k)) := by
  refine ⟨m.opened, ?_, h.depth_lt k⟩
  simp only [put, filter_around (h.depth_lt k)]

end Machine

theorem Builder.parentOf_child (b : Builder) (k : String) : Builder.parentOf (b.child k) = b := by
  cases b with
  | root => rfl
  | nested p => simp [parentOf, child, FieldPath.parent?]

theorem Builder.leaf_child (b : Builder) (k : String) : (b.child k).leaf = k := by
  cases b with
  | root => rfl
  | nested p => simp [child, FieldPath.leaf, List.getLastD_eq_getLast?]

theorem Setting.step_commit {s : Setting} {m : Machine} {b : Builder} {fields : Fields Json}
    (h : m.Holds fields b) (k : String) (g : Fields Json) :
    s.step (m.put (b.child k) g) (.commit (b.child k)) =
      .ok (m.hold b (fields.set k (.object g))) := by
  have hlookup : (m.put (b.child k) g).opened.lookup (b.child k) = some g := by
    simp [Machine.put]
  have hrest : (m.put (b.child k) g).opened.filter (·.1 ≠ b.child k) = m.opened := by
    simp only [Machine.put, Machine.filter_around (h.depth_lt k), Machine.filter_front (h.depth_lt k)]
  simp only [step, hlookup, hrest]
  rw [Builder.parentOf_child, Builder.leaf_child]
  exact h.modify_eq _

def givenRoot (t : Sources) (bidRequest : Json) : ExpectedRoot → Option Json
  | .request => some bidRequest
  | .firstImp => t.imp

theorem expectedSeed_eq {t : Sources} {bidRequest given : Json} {root : ExpectedRoot}
    (h : givenRoot t bidRequest root = some given) (steps : List Step) :
    expectedSeed t bidRequest root steps =
      match given.at? (steps.map (·.field)) with
      | some (.object fields) => .ok fields
      | some _ =>
        if (kindAfter root steps).isJson then .ok .empty
        else .error (.expectedAnObject (steps.map (·.field)))
      | none => .ok .empty := by
  cases root with
  | request =>
    obtain rfl : bidRequest = given := by simpa [givenRoot] using h
    rfl
  | firstImp =>
    obtain ⟨imp, ext, request⟩ := t
    obtain rfl : imp = some given := h
    rfl

theorem seed_agrees {s : Setting} {t : Sources} {bidRequest : Json} {root : ExpectedRoot}
    (h : givenRoot t bidRequest root = some (.object s.base)) (b : Builder) (k : String) :
    (s.seed (b.child k) (.ofPath (b.child k))).mapError (·.fault) =
      (expectedSeed t bidRequest root (stepsTo (b.names ++ [k]))).mapError (·.fault) := by
  have hkind : (kindAfter root (stepsTo (b.names ++ [k]))).isJson =
      (ObjectKind.ofPath (b.child k)).isJson := by
    rw [kindAfter_stepsTo, ObjectKind.ofPath_child]
  rw [expectedSeed_eq h, Setting.seed, hkind, stepsTo, map_field_stepsFrom, b.segments_child]
  cases (Json.object s.base).at? (b.names ++ [k]) with
  | none => rfl
  | some v =>
    cases (ObjectKind.ofPath (b.child k)).isJson <;> cases v <;> rfl

namespace Setting

theorem run_cons (s : Setting) (m : Machine) (x : Statement) (l : List Statement) :
    s.run m (x :: l) = s.step m x >>= fun m => s.run m l := rfl

theorem run_append (s : Setting) (m : Machine) (l r : List Statement) :
    s.run m (l ++ r) = s.run m l >>= fun m => s.run m r := List.foldlM_append

theorem step_start (s : Setting) (m : Machine) (path : FieldPath) (kind : ObjectKind) :
    s.step m (.start path kind) = s.seed path kind >>= fun g => .ok (m.put path g) := rfl

theorem step_assign (s : Setting) {m : Machine} {b : Builder} {fields : Fields Json}
    (h : m.Holds fields b) (k : String) (x : Operand) :
    s.step m (.assign b k x) =
      m.sources.eval x >>= fun v => .ok (m.hold b (Json.put fields k v)) := by
  simp only [step, h.modify_eq]

end Setting

theorem Machine.sources_hold (m : Machine) (b : Builder) (fields : Fields Json) :
    (m.hold b fields).sources = m.sources := by
  cases b <;> rfl

theorem Setting.run_object (s : Setting) (m : Machine) (root : ExpectedRoot) (b : Builder) (k : String)
    (inner r : List Override) :
    s.run m (statementsOf b (.object k (.mk root (stepsTo (b.names ++ [k])) inner) :: r)) =
      s.seed (b.child k) (.ofPath (b.child k)) >>= fun g =>
        s.run (m.put (b.child k) g) (statementsOf (.nested (b.child k)) inner) >>= fun m =>
          s.step m (.commit (b.child k)) >>= fun m => s.run m (statementsOf b r) := by
  rw [statementsOf_placed, run_cons, step_start]
  cases s.seed (b.child k) (.ofPath (b.child k)) with
  | error e => rfl
  | ok g => exact s.run_append _ _ _

theorem map_evalOverrides_object (t : Sources) (bidRequest : Json) (root : ExpectedRoot)
    (names : List String) (k : String) (inner r : List Override) (fields : Fields Json)
    (f : Fields Json → Machine) :
    (evalOverrides t bidRequest (.object k (.mk root (stepsTo (names ++ [k])) inner) :: r)
        fields).map f =
      expectedSeed t bidRequest root (stepsTo (names ++ [k])) >>= fun g =>
        evalOverrides t bidRequest inner g >>= fun g =>
          (evalOverrides t bidRequest r (fields.set k (.object g))).map f := by
  rw [evalOverrides, ExpectedObject.eval]
  cases expectedSeed t bidRequest root (stepsTo (names ++ [k])) with
  | error e => rfl
  | ok g => exact Outcome.map_bind f (evalOverrides t bidRequest inner g) _

/-- Run with its builder in front, the statements of some overrides change that builder like the
overrides change their object. -/
theorem run_statementsOf {s : Setting} {t : Sources} {bidRequest : Json} {root : ExpectedRoot}
    (hgiven : givenRoot t bidRequest root = some (.object s.base)) {names : List String}
    {os : List Override} (h : PlacedIn root names os) {b : Builder} (hb : b.names = names)
    {m : Machine} {fields : Fields Json} (hm : m.Holds fields b)
    (hread : ∀ c k x, .assign c k x ∈ statementsOf b os → m.sources.eval x = t.eval x) :
    (s.run m (statementsOf b os)).mapError (·.fault) =
      ((evalOverrides t bidRequest os fields).map (m.hold b)).mapError (·.fault) := by
  induction h generalizing b m fields with
  | nil =>
    simp only [statementsOf, evalOverrides, Except.map, hm.hold_eq]
    rfl
  | @value names k x r _ ih =>
    have hx := hread b k x (by simp [statementsOf])
    have hr : ∀ v, _ := fun v => ih hb (hm.hold (Json.put fields k v)) fun c j y hy => by
      rw [m.sources_hold]
      exact hread c j y (List.mem_cons_of_mem _ hy)
    simp only [m.hold_hold] at hr
    rw [statementsOf, Setting.run_cons, s.step_assign hm, hx, evalOverrides]
    cases t.eval x with
    | error e => rfl
    | ok v => exact hr v
  | @object names k inner r _ _ ihi ihr =>
    subst hb
    -- start, inner statements, commit, rest: in this order on both sides
    rw [s.run_object, map_evalOverrides_object]
    apply Outcome.mapError_bind_congr (seed_agrees hgiven b k)
    intro g
    have hinner := ihi (b.names_child k) (hm.put_child k g) fun c j y hy => hread c j y (by
      simp [statementsOf_placed, hy])
    apply Outcome.mapError_bind_map_congr hinner
    intro g'
    have hput : (m.put (b.child k) g).hold (.nested (b.child k)) g' = m.put (b.child k) g' :=
      m.put_put _ g g'
    have hrest := ihr rfl (hm.hold (fields.set k (.object g'))) fun c j y hy => by
      rw [m.sources_hold]
      exact hread c j y (by simp [statementsOf_placed, hy])
    rw [m.hold_hold] at hrest
    rw [hput, Setting.step_commit hm]
    exact hrest

namespace Program

theorem runImp_object (p : Program) (imp : Fields Json) (ext : Option Json) :
    p.runImp (.object imp) ext =
      (Setting.run ⟨p.scope, imp, []⟩ ⟨imp, [], ⟨some (.object imp), ext, none⟩⟩ p.statements).map
        fun m => .object m.root :=
  Outcome.bind_pure_eq _ _

theorem runRequest_object (p : Program) (base builder : Fields Json) (exts : List (Option Json)) :
    p.runRequest (.object base) (.object builder) exts =
      (Setting.run ⟨p.scope, base, exts⟩ ⟨builder, [], ⟨none, none, some (.object base)⟩⟩
        p.statements).map fun m => .object m.root :=
  Outcome.bind_pure_eq _ _

end Program

end AdapterForge

import AdapterForge.Proofs.Reordering

/-!
A program writes what its assignments say, and nothing else: of each field the values come in the
order of the scope, whatever groups they were sorted into on the way.
-/
namespace AdapterForge

def Statement.write? : Statement → Option (FieldPath × Operand)
  | assign b field value => some (b.child field, value)
  | _ => none

def writesOf (l : List Statement) : List (FieldPath × Operand) := l.filterMap (·.write?)

/-- What is written to a field, in the order of the statements. -/
def operandsAt (path : FieldPath) (l : List Statement) : List Operand :=
  ((writesOf l).filter (·.1 = path)).map (·.2)

/-- The operands of the assignments to a field, in the order of the list. -/
def Assigned (path : FieldPath) (l : List Assignment) (values : List Operand) : Prop :=
  List.Forall₂ (fun a x => a.operand = .ok x) (l.filter (·.target = path)) values

variable {path : FieldPath} {b : Builder}

theorem operandsAt_append (path : FieldPath) (l m : List Statement) :
    operandsAt path (l ++ m) = operandsAt path l ++ operandsAt path m := by
  simp only [operandsAt, writesOf, List.filterMap_append, List.filter_append, List.map_append]

theorem operandsAt_flatten (path : FieldPath) (b : Builder) (parts : List (List Override)) :
    operandsAt path (statementsOf b parts.flatten) =
      (parts.map fun part => operandsAt path (statementsOf b part)).flatten := by
  rw [operandsAt, writesOf, filterMap_statementsOf_flatten, List.filter_flatten, List.map_flatten,
    List.map_map, List.map_map]
  rfl

theorem operandsAt_values (path : FieldPath) (b : Builder) (k : String) (values : List Operand) :
    operandsAt path (statementsOf b (values.map (.value k))) =
      if b.child k = path then values else [] := by
  have hwrites : writesOf (values.map (.assign b k)) = values.map (b.child k, ·) := by
    rw [writesOf, List.filterMap_map]
    exact congrFun List.filterMap_eq_map' values
  rw [statementsOf_map_value, operandsAt, hwrites, List.filter_map, List.map_map]
  split <;> simp_all [Function.comp_def]

theorem operandsAt_object (path : FieldPath) (root : ExpectedRoot) (b : Builder) (k : String)
    (inner : List Override) :
    operandsAt path (statementsOf b [.object k (.mk root (stepsTo (b.names ++ [k])) inner)]) =
      operandsAt path (statementsOf (.nested (b.child k)) inner) := by
  rw [statementsOf_placed, ← List.singleton_append, operandsAt_append, operandsAt_append]
  exact List.append_nil _

theorem Assigned.flatten {groups : List (String × List Assignment)}
    {parts : List (List Operand)}
    (h : List.Forall₂ (fun g part => Assigned path g.2 part) groups parts) :
    Assigned path (groups.flatMap (·.2)) parts.flatten := by
  rw [Assigned, List.filter_flatMap, List.flatMap_def]
  exact List.rel_flatten (List.forall₂_map_left_iff.2 h)

theorem assigned_leaves {k : String} {l : List Assignment} {values : List Operand}
    (hl : ∀ a ∈ l, a.target = b.child k)
    (h : List.Forall₂ (fun a x => a.operand = .ok x) l values) :
    Assigned path l (operandsAt path (statementsOf b (values.map (.value k)))) := by
  rw [operandsAt_values]
  split
  · next hk =>
    rw [Assigned, List.filter_eq_self.2 fun a ha => by simp [hl a ha, hk]]
    exact h
  · next hk =>
    rw [Assigned, List.filter_eq_nil_iff.2 fun a ha => by simp [hl a ha, hk]]
    exact .nil

theorem filter_target_groupBySegment {index : Nat} {l : List Assignment}
    (hdepth : ∀ a ∈ l, index < a.target.depth) (path : FieldPath) :
    ((groupBySegment index (·.target) l).flatMap (·.2)).filter (·.target = path) =
      l.filter (·.target = path) := by
  by_cases hpath : index < path.depth
  · -- all assignments to the field are in one group, and groups are stable
    obtain ⟨k, hk⟩ := FieldPath.exists_segment? hpath
    apply filter_flatMap_groupBySegment (f := id) (fun _ => rfl) rfl (k := k)
    intro a ha
    rwa [of_decide_eq_true ha]
  · have hne : ∀ a ∈ l, ¬ decide (a.target = path) = true := by
      intro a ha hap
      exact hpath (of_decide_eq_true hap ▸ hdepth a ha)
    rw [List.filter_eq_nil_iff.2 hne, List.filter_eq_nil_iff.2]
    intro a ha
    obtain ⟨g, hg, hag⟩ := List.mem_flatMap.1 ha
    exact hne a ((mem_group_iff hg).1 hag).1

theorem assigned_overridesOf {levels index : Nat} {root : ExpectedRoot} {l : List Assignment}
    {os : List Override} (h : overridesOf levels root (stepsTo b.names) index l = .ok os)
    (hdepth : EndsWithin levels index (·.target) l)
    (hnames : ∀ a ∈ l, a.target.segments.take index = b.names) (path : FieldPath) :
    Assigned path l (operandsAt path (statementsOf b os)) := by
  -- on the levels; where none is left, no assignment is
  induction levels generalizing index b l os with
  | zero =>
    cases h
    rw [hdepth.eq_nil]
    exact .nil
  | succ levels ih =>
    obtain ⟨parts, hparts, rfl⟩ := overridesOf_eq_ok h
    have hpart : ∀ g ∈ groupBySegment index (·.target) l, ∀ part,
        GroupMade levels root b.names index g part →
        Assigned path g.2 (operandsAt path (statementsOf b part)) := by
      rintro ⟨k, items⟩ hg part hmade
      have htake : ∀ a ∈ items, a.target.segments.take (index + 1) = b.names ++ [k] := fun a ha =>
        take_succ_of_mem_group hnames hg ha
      cases hmade with
      | leaves hleaf hvalues =>
        apply assigned_leaves _ hvalues
        intro a ha
        rw [← FieldPath.segments_inj, b.segments_child, ← htake a ha,
          FieldPath.take_segments (hleaf a ha)]
      | nested hn hinner =>
        rw [operandsAt_object]
        apply ih (by rwa [b.names_child]) (hdepth.group hg hn)
        rwa [b.names_child]
    have hall := Outcome.forall₂_imp_of_mem hparts hpart
    have hflat := Assigned.flatten (List.forall₂_map_right_iff.2 hall)
    rw [Assigned, filter_target_groupBySegment fun a ha => (hdepth a ha).1] at hflat
    rw [operandsAt_flatten]
    exact hflat

theorem assignCount_eq (q : Program) : q.assignCount = (writesOf q.statements).length := by
  rw [Program.assignCount, writesOf, List.length_filterMap_eq_countP]
  congr 1
  funext s
  cases s <;> rfl

def Plan.writingTo (path : FieldPath) (l : List Assignment) : List Assignment :=
  (writing l).filter (·.target = path)

/-- What the program of a list of assignments writes: to each field the values of its assignments, in
the order of the list; impressions take values before copies. -/
structure Program.Assigns (q : Program) (scope : Scope) (l : List Assignment) : Prop where
  request : scope = .request → ∀ path,
    (Plan.writingTo path l).mapM Assignment.operand = .ok (operandsAt path q.statements)
  impression : scope = .impression → ∀ path,
    ((Plan.writingTo path l).filter (·.isStatic) ++
      (Plan.writingTo path l).filter (!·.isStatic)).mapM Assignment.operand =
        .ok (operandsAt path q.statements)
  only : ∀ w ∈ writesOf q.statements, ∃ a ∈ Plan.writing l, a.target = w.1 ∧ a.operand = .ok w.2
  count : q.assignCount = (Plan.writing l).length

namespace Plan

variable {scope : Scope} {l : List Assignment} {p : Plan}

theorem assigned_overrides {root : ExpectedRoot} {os : List Override}
    (hos : p.overrides root = .ok os) (path : FieldPath) :
    Assigned path p.assignments (operandsAt path (statementsOf .root os)) := by
  obtain ⟨parts, hparts, rfl⟩ := overrides_eq_ok hos
  rw [operandsAt_flatten, ← p.flatMap_keyed]
  apply Assigned.flatten
  refine List.forall₂_map_right_iff.2 (hparts.imp fun g part hpart => ?_)
  exact assigned_overridesOf (b := .root) hpart (endsWithin_maxDepth _ g.2) (fun _ _ => rfl) path

theorem writesOf_located (p : Plan) (l : List Statement) :
    writesOf (p.located ++ l) = writesOf l := by
  rw [writesOf, List.filterMap_append, located]
  split <;> rfl

theorem operandsAt_located (p : Plan) (path : FieldPath) (l : List Statement) :
    operandsAt path (p.located ++ l) = operandsAt path l := by
  rw [operandsAt, writesOf_located, operandsAt]

theorem length_writes_overrides {root : ExpectedRoot} {os : List Override}
    (hos : p.overrides root = .ok os) :
    (writesOf (statementsOf .root os)).length = p.assignments.length := by
  have hcount : ∀ {α : Type} (f : α → FieldPath) (path : FieldPath) (m : List α),
      (m.map f).count path = (m.filter (f · = path)).length := by
    intro α f path m
    rw [List.count, List.countP_map, List.countP_eq_length_filter]
    rfl
  -- equally many writes to each field are equally many writes
  have hperm : (p.assignments.map (·.target)).Perm
      ((writesOf (statementsOf .root os)).map (·.1)) := by
    rw [List.perm_iff_count]
    intro path
    have hlength := (assigned_overrides hos path).length_eq
    rw [hcount, hcount, hlength, operandsAt, List.length_map]
  simpa using hperm.length_eq.symm

theorem operandsAt_eq {os : List Override} (h : ofAssignments scope l = .ok p)
    (hos : p.overrides .request = .ok os) (path : FieldPath) :
    (ordered scope (writingTo path l)).mapM Assignment.operand =
      .ok (operandsAt path (p.located ++ statementsOf .root os)) := by
  have hassigned := assigned_overrides hos path
  have hsame : writing (ordered scope (l.filter (·.target = path))) =
      ordered scope (writingTo path l) := by
    rw [writing, filter_ordered, List.filter_filter, writingTo, writing, List.filter_filter]
    simp only [Bool.and_comm]
  rw [Assigned, filter_assignments h, hsame] at hassigned
  rw [operandsAt_located]
  exact Outcome.mapM_eq_ok_iff.2 hassigned

/-- Every plan has a program, and no write is lost, doubled or sent to another field in it. -/
theorem program_assigns (h : ofAssignments scope l = .ok p) :
    ∃ q, p.program = .ok q ∧ q.Assigns scope l := by
  obtain ⟨os, hos⟩ := exists_overrides_of_ofAssignments h .request
  refine ⟨_, program_of_overrides hos, ?_⟩
  exact {
    request := by
      rintro rfl
      exact operandsAt_eq h hos
    impression := by
      rintro rfl
      exact operandsAt_eq h hos
    only := by
      rintro ⟨path, x⟩ hw
      have hx : x ∈ operandsAt path (p.located ++ statementsOf .root os) :=
        List.mem_map.2 ⟨(path, x), List.mem_filter.2 ⟨hw, by simp⟩, rfl⟩
      obtain ⟨a, ha, hax⟩ := Outcome.exists_of_mem_mapM (operandsAt_eq h hos path) hx
      obtain ⟨ha, hapath⟩ := List.mem_filter.1 ((ordered_perm scope _).mem_iff.1 ha)
      exact ⟨a, ha, of_decide_eq_true hapath, hax⟩
    count := by
      rw [assignCount_eq, writesOf_located, length_writes_overrides hos]
      exact (assignments_perm h).length_eq }

def repeatedTargets : List Assignment :=
  [⟨"imp.tagid", ⟨"tagid", []⟩, .copy ⟨.impExt, ⟨"placement", []⟩⟩⟩,
    ⟨"imp.banner.w", ⟨"banner", ["w"]⟩, .fixed (.number (.ofNat 300))⟩,
    ⟨"imp.tagid", ⟨"tagid", []⟩, .fixed (.string "t")⟩,
    ⟨"imp.tagid", ⟨"tagid", []⟩, .fixed .null⟩,
    ⟨"imp.tagid", ⟨"tagid", []⟩, .copy ⟨.imp, ⟨"id", []⟩⟩⟩]

theorem program_assigns_repeatedTargets :
    ∃ p q, ofAssignments .impression repeatedTargets = .ok p ∧ p.program = .ok q ∧
      operandsAt ⟨"tagid", []⟩ q.statements = [.literal (.text "t"),
        .field ⟨.impExt, ⟨"placement", []⟩⟩, .field ⟨.imp, ⟨"id", []⟩⟩] ∧ q.assignCount = 4 := by
  obtain ⟨p, hp⟩ : ∃ p, ofAssignments .impression repeatedTargets = .ok p := ⟨_, rfl⟩
  obtain ⟨q, hq, hassigns⟩ := program_assigns hp
  have htagid := hassigns.impression rfl ⟨"tagid", []⟩
  exact ⟨p, q, hp, hq, (Except.ok.inj htagid).symm, hassigns.count⟩

end Plan

end AdapterForge

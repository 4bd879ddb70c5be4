import AdapterForge.Expectation.Synthesis
import AdapterForge.Program.Synthesis
import AdapterForge.Proofs.Flattening
import AdapterForge.Proofs.Grouping
import AdapterForge.Proofs.Outcome

/-!
Programs and expectations are made from a plan by two different recursions. They fail on the same
plans, and written out statement by statement an expectation is the program.
-/
namespace AdapterForge

theorem FieldPath.upTo_eq_child {p : FieldPath} {b : Builder} {index : Nat} {k : String}
    (hp : p.segments.take index = b.names) (hk : p.segment? index = some k) :
    p.upTo (index + 1) = b.child k := by
  rw [← FieldPath.segments_inj, FieldPath.segments_upTo _ (Nat.succ_pos index), List.take_add_one, hp,
    b.segments_child]
  have : p.segments[index]? = some k := hk
  rw [this]
  rfl

theorem statementsOf_map_value (b : Builder) (k : String) (values : List Operand) :
    statementsOf b (values.map (.value k)) = values.map (.assign b k) := by
  induction values with
  | nil => rfl
  | cons x values ih => simp only [List.map_cons, statementsOf, ih]

theorem statementsOf_values (b : Builder) (k : String) (l : List Assignment) :
    (l.mapM fun (a : Assignment) => do return Override.value k (← a.operand)).map
        (statementsOf b) =
      l.mapM fun a => do return Statement.assign b k (← a.operand) := by
  induction l with
  | nil => rfl
  | cons a l ih =>
    rw [List.mapM_cons, List.mapM_cons, ← ih]
    cases a.operand with
    | error e => rfl
    | ok v =>
      cases l.mapM fun (a : Assignment) => do return Override.value k (← a.operand) <;> rfl

def groupOverrides (levels : Nat) (root : ExpectedRoot) (steps : List Step) (index : Nat)
    (g : String × List Assignment) : Except RuleError (List Override) :=
  let leaves := g.2.filter (·.target.depth = index + 1)
  let nested := g.2.filter (·.target.depth ≠ index + 1)
  match leaves, nested with
  | _ :: _, a :: _ => .error ⟨a.raw, .unsupported (.assignedAndRebuilt g.1)⟩
  | leaves, [] => leaves.mapM fun a => do return .value g.1 (← a.operand)
  | [], nested => do
    let below := steps ++ [⟨g.1, .ofField g.1 (steps.getLast?.map (·.kind))⟩]
    return [.object g.1 (.mk root below (← overridesOf levels root below (index + 1) nested))]

theorem overridesOf_succ (levels : Nat) (root : ExpectedRoot) (steps : List Step) (index : Nat)
    (l : List Assignment) :
    overridesOf (levels + 1) root steps index l =
      (groupBySegment index (·.target) l).mapM (groupOverrides levels root steps index) >>=
        fun parts => return parts.flatten := rfl

def groupStatements (levels : Nat) (b : Builder) (parent : Option ObjectKind) (index : Nat)
    (g : String × List Assignment) : Except RuleError (List Statement) :=
  if g.2.all (·.target.depth = index + 1) then
    g.2.mapM fun a => do return .assign b g.1 (← a.operand)
  else
    match g.2.find? (·.target.depth = index + 1), g.2 with
    | some leaf, _ => .error ⟨leaf.raw, .unsupported (.assignedAndRebuilt g.1)⟩
    | none, [] => .ok []
    | none, a :: _ => do
      let path := a.target.upTo (index + 1)
      let kind := ObjectKind.ofField g.1 parent
      let inner ← emit levels (.nested path) (some kind) (index + 1) g.2
      return .start path kind :: (inner ++ [.commit path])

theorem emit_succ (levels : Nat) (b : Builder) (parent : Option ObjectKind) (index : Nat)
    (l : List Assignment) :
    emit (levels + 1) b parent index l =
      (groupBySegment index (·.target) l).mapM (groupStatements levels b parent index) >>=
        fun parts => return parts.flatten := rfl

theorem leaves_or_nested (index : Nat) (l : List Assignment) :
    (∀ a ∈ l, a.target.depth = index + 1) ∨ (∀ a ∈ l, a.target.depth ≠ index + 1) ∨
      (∃ a ∈ l, a.target.depth = index + 1) ∧ ∃ a ∈ l, a.target.depth ≠ index + 1 := by
  by_cases hl : ∃ a ∈ l, a.target.depth = index + 1
  · by_cases hn : ∃ a ∈ l, a.target.depth ≠ index + 1
    · exact .inr (.inr ⟨hl, hn⟩)
    · exact .inl fun a ha => Decidable.byContradiction fun h => hn ⟨a, ha, h⟩
  · exact .inr (.inl fun a ha h => hl ⟨a, ha, h⟩)

theorem exists_filter_eq_cons {P : Assignment → Prop} [DecidablePred P] {l : List Assignment}
    {a : Assignment} (ha : a ∈ l) (h : P a) : ∃ x r, l.filter (P ·) = x :: r :=
  List.exists_cons_of_ne_nil (List.ne_nil_of_mem (List.mem_filter.2 ⟨ha, decide_eq_true h⟩))

section

variable {levels index : Nat} {root : ExpectedRoot} {steps : List Step} {b : Builder}
  {parent : Option ObjectKind} {k : String} {l : List Assignment}

theorem groupOverrides_leaves (h : ∀ a ∈ l, a.target.depth = index + 1) :
    groupOverrides levels root steps index (k, l) =
      l.mapM fun a => do return .value k (← a.operand) := by
  have hleaves : l.filter (·.target.depth = index + 1) = l := by simpa using h
  have hnested : l.filter (·.target.depth ≠ index + 1) = [] := by simpa using h
  simp only [groupOverrides, hleaves, hnested]

theorem groupOverrides_nested (hne : l ≠ []) (h : ∀ a ∈ l, a.target.depth ≠ index + 1) :
    groupOverrides levels root steps index (k, l) = (do
      let below := steps ++ [⟨k, .ofField k (steps.getLast?.map (·.kind))⟩]
      return [.object k (.mk root below (← overridesOf levels root below (index + 1) l))]) := by
  obtain ⟨a, r, rfl⟩ := List.exists_cons_of_ne_nil hne
  have hleaves : (a :: r).filter (·.target.depth = index + 1) = [] := by simpa using h
  have hnested : (a :: r).filter (·.target.depth ≠ index + 1) = a :: r := by simpa using h
  simp only [groupOverrides, hleaves, hnested]

theorem groupOverrides_mixed (levels : Nat) (root : ExpectedRoot) (steps : List Step) (k : String)
    (hl : ∃ a ∈ l, a.target.depth = index + 1)
    (hn : ∃ a ∈ l, a.target.depth ≠ index + 1) :
    ∃ raw, groupOverrides levels root steps index (k, l) =
      .error ⟨raw, .unsupported (.assignedAndRebuilt k)⟩ := by
  obtain ⟨a, ha, hal⟩ := hl
  obtain ⟨c, hc, hcn⟩ := hn
  obtain ⟨x, r, hx⟩ := exists_filter_eq_cons (P := (·.target.depth = index + 1)) ha hal
  obtain ⟨y, s, hy⟩ := exists_filter_eq_cons (P := (·.target.depth ≠ index + 1)) hc hcn
  refine ⟨y.raw, ?_⟩
  simp only [groupOverrides, hx, hy]

theorem groupStatements_leaves (h : ∀ a ∈ l, a.target.depth = index + 1) :
    groupStatements levels b parent index (k, l) =
      l.mapM fun a => do return .assign b k (← a.operand) := by
  have hall : l.all (·.target.depth = index + 1) = true := by simpa using h
  simp only [groupStatements, hall, if_true]

theorem groupStatements_nested (hne : l ≠ []) (h : ∀ a ∈ l, a.target.depth ≠ index + 1)
    {path : FieldPath} (hpath : ∀ a ∈ l, a.target.upTo (index + 1) = path) :
    groupStatements levels b parent index (k, l) = (do
      let inner ← emit levels (.nested path) (some (.ofField k parent)) (index + 1) l
      return .start path (.ofField k parent) :: (inner ++ [.commit path])) := by
  obtain ⟨a, r, rfl⟩ := List.exists_cons_of_ne_nil hne
  have hall : ¬ (a :: r).all (·.target.depth = index + 1) = true := by
    have := h a (by simp)
    simp [this]
  have hfind : (a :: r).find? (·.target.depth = index + 1) = none := by
    rw [List.find?_eq_none]
    simpa using h
  simp only [groupStatements, hall, hfind, hpath a (by simp)]
  rfl

theorem groupStatements_mixed (levels : Nat) (b : Builder) (parent : Option ObjectKind) (k : String)
    (hl : ∃ a ∈ l, a.target.depth = index + 1)
    (hn : ∃ a ∈ l, a.target.depth ≠ index + 1) :
    ∃ raw, groupStatements levels b parent index (k, l) =
      .error ⟨raw, .unsupported (.assignedAndRebuilt k)⟩ := by
  obtain ⟨a, ha, hal⟩ := hl
  obtain ⟨c, hc, hcn⟩ := hn
  have hall : ¬ l.all (·.target.depth = index + 1) = true := by
    simp only [List.all_eq_true, decide_eq_true_eq]
    exact fun h => hcn (h c hc)
  obtain ⟨x, hx⟩ : ∃ x, l.find? (·.target.depth = index + 1) = some x := by
    rw [← Option.isSome_iff_exists, List.find?_isSome]
    exact ⟨a, ha, by simpa using hal⟩
  refine ⟨x.raw, ?_⟩
  simp only [groupStatements, hall, hx]
  rfl

end

inductive GroupMade (levels : Nat) (root : ExpectedRoot) (names : List String) (index : Nat) :
    String × List Assignment → List Override → Prop
  | leaves {k : String} {items : List Assignment} {values : List Operand} :
    (∀ a ∈ items, a.target.depth = index + 1) →
      List.Forall₂ (fun a x => a.operand = .ok x) items values →
      GroupMade levels root names index (k, items) (values.map (.value k))
  | nested {k : String} {items : List Assignment} {inner : List Override} :
    (∀ a ∈ items, a.target.depth ≠ index + 1) →
      overridesOf levels root (stepsTo (names ++ [k])) (index + 1) items = .ok inner →
      GroupMade levels root names index (k, items)
        [.object k (.mk root (stepsTo (names ++ [k])) inner)]

theorem groupOverrides_eq_ok {levels index : Nat} {root : ExpectedRoot} {names : List String}
    {g : String × List Assignment} {part : List Override} (hne : g.2 ≠ [])
    (h : groupOverrides levels root (stepsTo names) index g = .ok part) :
    GroupMade levels root names index g part := by
  obtain ⟨k, items⟩ := g
  rcases leaves_or_nested index items with hl | hn | ⟨hl, hn⟩
  · have hmap : (items.mapM Assignment.operand).map (List.map (.value k)) = .ok part := by
      rw [← Outcome.mapM_map_eq, ← h, groupOverrides_leaves hl]
      rfl
    cases hx : items.mapM Assignment.operand with
    | error e =>
      rw [hx] at hmap
      cases hmap
    | ok values =>
      rw [hx] at hmap
      cases hmap
      exact .leaves hl (Outcome.mapM_eq_ok_iff.1 hx)
  · rw [groupOverrides_nested hne hn, getLast?_stepsTo, ← stepsTo_append] at h
    obtain ⟨inner, hinner, h⟩ := Outcome.bind_eq_ok.1 h
    obtain rfl := Outcome.pure_eq_ok.1 h
    exact .nested hn hinner
  · obtain ⟨raw, he⟩ := groupOverrides_mixed levels root (stepsTo names) k hl hn
    rw [he] at h
    cases h

theorem overridesOf_eq_ok {levels index : Nat} {root : ExpectedRoot} {names : List String}
    {l : List Assignment} {os : List Override}
    (h : overridesOf (levels + 1) root (stepsTo names) index l = .ok os) :
    ∃ parts, List.Forall₂ (GroupMade levels root names index)
      (groupBySegment index (·.target) l) parts ∧ os = parts.flatten := by
  rw [overridesOf_succ, Outcome.bind_eq_ok] at h
  obtain ⟨parts, hparts, h⟩ := h
  obtain rfl := Outcome.pure_eq_ok.1 h
  refine ⟨parts, ?_, rfl⟩
  exact Outcome.forall₂_imp_of_mem (Outcome.mapM_eq_ok_iff.1 hparts) fun _ hg _ =>
    groupOverrides_eq_ok (group_ne_nil hg)

theorem overridesOf_placed {root : ExpectedRoot} {levels : Nat} {names : List String}
    {index : Nat} {l : List Assignment} {os : List Override}
    (h : overridesOf levels root (stepsTo names) index l = .ok os) : PlacedIn root names os := by
  induction levels generalizing names index l os with
  | zero =>
    cases h
    exact .nil
  | succ levels ih =>
    obtain ⟨parts, hparts, rfl⟩ := overridesOf_eq_ok h
    apply PlacedIn.flatten
    intro part hpart
    obtain ⟨g, -, hg⟩ := Outcome.exists_of_forall₂ hparts hpart
    cases hg with
    | leaves _ _ =>
      apply PlacedIn.of_values
      intro o ho
      obtain ⟨x, -, rfl⟩ := List.mem_map.1 ho
      exact ⟨_, x, rfl⟩
    | nested _ hinner => exact .object (ih hinner) .nil

theorem overridesOf_operand {root : ExpectedRoot} {levels : Nat} {names : List String}
    {index : Nat} {l : List Assignment} {os : List Override}
    (h : overridesOf levels root (stepsTo names) index l = .ok os) {b c : Builder} {k : String}
    {x : Operand} (hx : .assign c k x ∈ statementsOf b os) : ∃ a ∈ l, a.operand = .ok x := by
  induction levels generalizing names index l os b with
  | zero =>
    cases h
    simp [statementsOf] at hx
  | succ levels ih =>
    obtain ⟨parts, hparts, rfl⟩ := overridesOf_eq_ok h
    rw [statementsOf_flatten, List.mem_flatten] at hx
    obtain ⟨_, hmap, hx⟩ := hx
    obtain ⟨part, hpart, rfl⟩ := List.mem_map.1 hmap
    obtain ⟨g, hg, hmade⟩ := Outcome.exists_of_forall₂ hparts hpart
    have hmem : ∀ a ∈ g.2, a ∈ l := fun a ha => ((mem_group_iff hg).1 ha).1
    cases hmade with
    | leaves _ hvalues =>
      rw [statementsOf_map_value, List.mem_map] at hx
      obtain ⟨y, hy, hyx⟩ := hx
      cases hyx
      obtain ⟨a, ha, hax⟩ := Outcome.exists_of_forall₂ hvalues hy
      exact ⟨a, hmem a ha, hax⟩
    | nested _ hinner =>
      simp only [statementsOf, ExpectedObject.statements, List.mem_cons, List.mem_append,
        reduceCtorEq, List.not_mem_nil, or_false, false_or] at hx
      obtain ⟨a, ha, hax⟩ := ih hinner hx
      exact ⟨a, hmem a ha, hax⟩

theorem statementsOf_object (root : ExpectedRoot) (b : Builder) (k : String)
    (x : Except RuleError (List Override)) :
    (x >>= fun os => return [Override.object k (.mk root (stepsTo (b.names ++ [k])) os)]).map
        (statementsOf b) =
      x.map (statementsOf (.nested (b.child k))) >>= fun inner =>
        return .start (b.child k) (.ofField k (ObjectKind.along none b.names)) ::
          (inner ++ [.commit (b.child k)]) := by
  have hkind := kindAfter_stepsTo root b.names k
  cases x with
  | error e => rfl
  | ok os => rw [← hkind]; rfl

theorem map_statementsOf_flatten (b : Builder) (x : Except RuleError (List (List Override))) :
    (x >>= fun parts => return parts.flatten).map (statementsOf b) =
      x.map (List.map (statementsOf b)) >>= fun parts => return parts.flatten := by
  cases x with
  | error e => rfl
  | ok parts => exact congrArg _ (statementsOf_flatten b parts)

/-- Both recursions fail in the same way, and where they succeed they say the same. -/
theorem emit_agrees (root : ExpectedRoot) {levels : Nat} {b : Builder} {index : Nat}
    {l : List Assignment} (hl : ∀ a ∈ l, a.target.segments.take index = b.names) :
    (emit levels b (ObjectKind.along none b.names) index l).mapError (·.fault) =
      ((overridesOf levels root (stepsTo b.names) index l).map (statementsOf b)).mapError
        (·.fault) := by
  induction levels generalizing b index l with
  | zero => rfl
  | succ levels ih =>
    have hgroups : ∀ g ∈ groupBySegment index (·.target) l,
        (groupStatements levels b (ObjectKind.along none b.names) index g).mapError (·.fault) =
          ((groupOverrides levels root (stepsTo b.names) index g).map (statementsOf b)).mapError
            (·.fault) := by
      rintro ⟨k, items⟩ hg
      rcases leaves_or_nested index items with hleaf | hn | ⟨hleaf, hn⟩
      · rw [groupStatements_leaves hleaf, groupOverrides_leaves hleaf, statementsOf_values]
      · have hpath : ∀ a ∈ items, a.target.upTo (index + 1) = b.child k := by
          intro a ha
          obtain ⟨ha, hak⟩ := (mem_group_iff hg).1 ha
          exact FieldPath.upTo_eq_child (hl a ha) hak
        have hnames : ∀ a ∈ items,
            a.target.segments.take (index + 1) = (Builder.nested (b.child k)).names := by
          intro a ha
          rw [← hpath a ha, Builder.names, FieldPath.segments_upTo _ (Nat.succ_pos index)]
        have hinner := ih hnames
        rw [Builder.names_child, ObjectKind.along_append] at hinner
        rw [groupStatements_nested (group_ne_nil hg) hn hpath,
          groupOverrides_nested (group_ne_nil hg) hn, getLast?_stepsTo, ← stepsTo_append]
        exact (Outcome.mapError_bind_congr hinner fun _ => rfl).trans
          (congrArg _ (statementsOf_object root b k _).symm)
      -- both fail here, but each names an assignment of its own choice
      · obtain ⟨raw, he⟩ := groupStatements_mixed levels b (ObjectKind.along none b.names) k hleaf hn
        obtain ⟨raw', he'⟩ := groupOverrides_mixed levels root (stepsTo b.names) k hleaf hn
        rw [he, he']
        rfl
    rw [emit_succ, overridesOf_succ, map_statementsOf_flatten, ← Outcome.mapM_map_eq]
    exact Outcome.mapError_bind_congr (Outcome.mapError_mapM_congr hgroups) fun _ => rfl

namespace Plan

def located (p : Plan) : List Statement :=
  if p.scope = .request ∧ p.readsExt then [.locateExt] else []

theorem overrides_placed {p : Plan} {root : ExpectedRoot} {os : List Override}
    (h : p.overrides root = .ok os) : PlacedIn root [] os := by
  obtain ⟨parts, hparts, h⟩ := Outcome.bind_eq_ok.1 h
  obtain rfl := Outcome.pure_eq_ok.1 h
  apply PlacedIn.flatten
  intro part hpart
  obtain ⟨g, -, hg⟩ := Outcome.exists_of_mem_mapM hparts hpart
  exact overridesOf_placed (stepsTo_nil ▸ hg)

theorem program_agrees (p : Plan) (root : ExpectedRoot) :
    p.program.mapError (·.fault) =
      ((p.overrides root).map fun os =>
        Program.mk p.scope (p.located ++ statementsOf .root os)).mapError (·.fault) := by
  have hgroups : ∀ g ∈ p.groups,
      (emit (maxDepth g.members) .root none 0 g.members).mapError (·.fault) =
        ((overridesOf (maxDepth g.members) root [] 0 g.members).map (statementsOf .root)).mapError
          (·.fault) := fun g _ =>
    emit_agrees root (b := .root) fun _ _ => rfl
  have hmap : (p.overrides root).map (fun os =>
        Program.mk p.scope (p.located ++ statementsOf .root os)) =
      (p.groups.mapM fun g => (overridesOf (maxDepth g.members) root [] 0 g.members).map
        (statementsOf .root)) >>= fun parts => return ⟨p.scope, p.located ++ parts.flatten⟩ := by
    rw [Outcome.mapM_map_eq, overrides]
    cases p.groups.mapM fun g => overridesOf (maxDepth g.members) root [] 0 g.members with
    | error e => rfl
    | ok parts =>
      exact congrArg (fun l => Except.ok (Program.mk p.scope (p.located ++ l)))
        (statementsOf_flatten .root parts)
  rw [hmap]
  exact Outcome.mapError_bind_congr (Outcome.mapError_mapM_congr hgroups) fun _ => rfl

theorem program_of_overrides {p : Plan} {root : ExpectedRoot} {os : List Override}
    (h : p.overrides root = .ok os) :
    p.program = .ok ⟨p.scope, p.located ++ statementsOf .root os⟩ := by
  have hp := p.program_agrees root
  rw [h] at hp
  exact Outcome.mapError_eq_ok.1 hp

end Plan

/-- An expectation beside the programs of the same plans. -/
structure Mirrors (imp : Plan) (p q : Program) (o : ExpectedObject) : Prop where
  statements : ∃ first rest, PlacedIn .firstImp [] first ∧ PlacedIn .request [] rest ∧
    (imp.isEmpty → first = []) ∧
    o = .mk .request []
      ((if imp.isEmpty then [] else [.singleImp (.mk .firstImp [] first)]) ++ rest) ∧
    p.statements = statementsOf .root first ∧
    q.statements.filter (!·.isLocateExt) = statementsOf .root rest
  kinds : ∀ path kind, .start path kind ∈ p.statements ++ q.statements → kind = .ofPath path
  modelNames : ∀ name, name ∈ (p.startedKinds ++ q.startedKinds).filterMap (·.modelName?) ↔
    name ∈ o.stepKinds.filterMap (·.modelName?)
  usesJson : (p.usesJson || q.usesJson) = o.stepKinds.any (·.isJson)
  rebuilds : o.rebuilds = !(p.startedKinds ++ q.startedKinds).isEmpty

theorem Plan.overrides_of_isEmpty {p : Plan} (h : p.isEmpty = true) (root : ExpectedRoot) :
    p.overrides root = .ok [] := by
  have : p.groups = [] := by simpa [isEmpty] using h
  simp only [overrides, this]
  rfl

theorem Plan.startedKinds_located (p : Plan) (l : List Statement) :
    startedKinds (p.located ++ l) = startedKinds l := by
  rw [startedKinds_append, located]
  split <;> rfl

theorem Plan.filter_located {p : Plan} {root : ExpectedRoot} {names : List String}
    {os : List Override} (h : PlacedIn root names os) (b : Builder) :
    (p.located ++ statementsOf b os).filter (!·.isLocateExt) = statementsOf b os := by
  have hl : p.located.filter (!·.isLocateExt) = [] := by
    rw [located]
    split <;> rfl
  rw [List.filter_append, hl, List.nil_append, List.filter_eq_self]
  intro s hs
  rw [h.isLocateExt_eq_false hs]
  rfl

theorem Plan.start_kind {p : Plan} {root : ExpectedRoot} {os : List Override}
    (h : PlacedIn root [] os) {path : FieldPath} {kind : ObjectKind}
    (hs : .start path kind ∈ p.located ++ statementsOf .root os) : kind = .ofPath path := by
  rcases List.mem_append.1 hs with hs | hs
  · rw [located] at hs
    split at hs <;> simp at hs
  · exact h.start_kind (b := .root) rfl hs

def expectationOf (imp : Plan) (first rest : List Override) : ExpectedObject :=
  .mk .request []
    ((if imp.isEmpty then [] else [.singleImp (.mk .firstImp [] first)]) ++ rest)

section

variable {imp : Plan} {first rest : List Override}

theorem mem_stepKinds_expectationOf (hfirst : imp.overrides .firstImp = .ok first)
    (hrest : PlacedIn .request [] rest) {kind : ObjectKind} :
    kind ∈ (expectationOf imp first rest).stepKinds ↔
      kind ∈ startedKinds (statementsOf .root first) ++ startedKinds (statementsOf .root rest) := by
  rw [List.mem_append, ← (Plan.overrides_placed hfirst).mem_stepKinds_iff,
    ← hrest.mem_stepKinds_iff]
  by_cases he : imp.isEmpty = true
  · rw [Plan.overrides_of_isEmpty he] at hfirst
    cases hfirst
    simp [expectationOf, he, ExpectedObject.stepKinds, stepKindsOf]
  · simp [expectationOf, he, ExpectedObject.stepKinds, stepKindsOf]

theorem rebuilds_expectationOf (hfirst : imp.overrides .firstImp = .ok first)
    (hrest : PlacedIn .request [] rest) :
    (expectationOf imp first rest).rebuilds =
      !(startedKinds (statementsOf .root first) ++ startedKinds (statementsOf .root rest)).isEmpty := by
  have hf := (Plan.overrides_placed hfirst).rebuildsAny_eq .root
  have hr := hrest.rebuildsAny_eq .root
  have happend {l m : List ObjectKind} : (!(l ++ m).isEmpty) = (!l.isEmpty || !m.isEmpty) := by
    cases l <;> simp
  rw [happend, ← hf, ← hr]
  by_cases he : imp.isEmpty = true
  · rw [Plan.overrides_of_isEmpty he] at hfirst
    cases hfirst
    simp [expectationOf, he, ExpectedObject.rebuilds, rebuildsAny]
  · simp [expectationOf, he, ExpectedObject.rebuilds, rebuildsAny]

end

theorem expectedRequest_eq_ok {imp request : Plan} {o : ExpectedObject}
    (h : expectedRequest imp request = .ok o) : ∃ first rest,
      imp.overrides .firstImp = .ok first ∧ request.overrides .request = .ok rest ∧
        o = expectationOf imp first rest := by
  obtain ⟨first, hfirst, h⟩ := Outcome.bind_eq_ok.1 h
  obtain ⟨rest, hrest, h⟩ := Outcome.bind_eq_ok.1 h
  exact ⟨first, rest, hfirst, hrest, (Outcome.pure_eq_ok.1 h).symm⟩

theorem expectedRequest_failure (imp request : Plan) :
    ((expectedRequest imp request).map fun _ => ()).mapError (·.fault) =
      (imp.program >>= fun _ => request.program.map fun _ => ()).mapError (·.fault) := by
  have hi := imp.program_agrees .firstImp
  have hr := Outcome.mapError_map_congr (fun _ => ()) (request.program_agrees .request)
  rw [Outcome.mapError_bind_congr hi fun _ => hr, expectedRequest]
  cases imp.overrides .firstImp with
  | error e => rfl
  | ok first => cases request.overrides .request <;> rfl

/-- The expectation of two plans fails like their programs, made one after the other. Otherwise it
says the same. -/
theorem expectedRequest_mirrors (imp request : List Group) :
    let imp : Plan := ⟨.impression, imp⟩
    let request : Plan := ⟨.request, request⟩
    ((expectedRequest imp request).map fun _ => ()).mapError (·.fault) =
        (imp.program >>= fun _ => request.program.map fun _ => ()).mapError (·.fault) ∧
      ∀ p q o, imp.program = .ok p → request.program = .ok q →
        expectedRequest imp request = .ok o → Mirrors imp p q o := by
  intro imp request
  refine ⟨expectedRequest_failure imp request, ?_⟩
  intro p q o hp hq ho
  obtain ⟨first, rest, hfirst, hrest, rfl⟩ := expectedRequest_eq_ok ho
  have hfp := Plan.overrides_placed hfirst
  have hrp := Plan.overrides_placed hrest
  obtain rfl : _ = p := by simpa [Plan.program_of_overrides hfirst] using hp
  obtain rfl : _ = q := by simpa [Plan.program_of_overrides hrest] using hq
  have hstarted : Program.startedKinds ⟨imp.scope, imp.located ++ statementsOf .root first⟩ ++
      Program.startedKinds ⟨request.scope, request.located ++ statementsOf .root rest⟩ =
      startedKinds (statementsOf .root first) ++ startedKinds (statementsOf .root rest) :=
    congrArg₂ (· ++ ·) (imp.startedKinds_located _) (request.startedKinds_located _)
  exact {
    statements := by
      refine ⟨first, rest, hfp, hrp, ?_, rfl, rfl, Plan.filter_located hrp .root⟩
      intro he
      rw [Plan.overrides_of_isEmpty he] at hfirst
      exact (Except.ok.inj hfirst).symm
    kinds := by
      intro path kind hs
      exact (List.mem_append.1 hs).elim (Plan.start_kind hfp) (Plan.start_kind hrp)
    modelNames := by
      intro name
      rw [hstarted]
      simp only [List.mem_filterMap, mem_stepKinds_expectationOf hfirst hrp]
    usesJson := by
      rw [Program.usesJson, Program.usesJson, ← List.any_append, hstarted, Bool.eq_iff_iff]
      simp only [List.any_eq_true, mem_stepKinds_expectationOf hfirst hrp]
    rebuilds := by rw [rebuilds_expectationOf hfirst hrp, hstarted] }

def repeatedGroups : List Group :=
  [⟨"banner", [⟨"banner.w", ⟨"banner", ["w"]⟩, .fixed (.string "300")⟩]⟩,
    ⟨"banner", [⟨"banner.ext.h", ⟨"banner", ["ext", "h"]⟩, .copy ⟨.imp, ⟨"h", []⟩⟩⟩]⟩]

theorem expectedRequest_mirrors_repeatedGroups :
    let imp : Plan := ⟨.impression, repeatedGroups⟩
    let request : Plan := ⟨.request, []⟩
    ∃ p q o, imp.program = .ok p ∧ request.program = .ok q ∧ expectedRequest imp request = .ok o ∧
      Mirrors imp p q o :=
  ⟨_, _, _, rfl, rfl, rfl, (expectedRequest_mirrors repeatedGroups []).2 _ _ _ rfl rfl rfl⟩

end AdapterForge

import Mathlib.Data.List.Nodup
import AdapterForge.Proofs.Nesting

/-!
Which objects have builders: those above the targets, each with one builder that is started and
committed once, between the start and the commit of the builder around it.
-/
namespace AdapterForge

namespace Statement

def startedPath? : Statement → Option FieldPath
  | start path _ => some path
  | _ => none

def committedPath? : Statement → Option FieldPath
  | commit path => some path
  | _ => none

end Statement

def startedPaths (l : List Statement) : List FieldPath := l.filterMap (·.startedPath?)

def committedPaths (l : List Statement) : List FieldPath := l.filterMap (·.committedPath?)

theorem startedPaths_append (l m : List Statement) :
    startedPaths (l ++ m) = startedPaths l ++ startedPaths m := List.filterMap_append

theorem committedPaths_append (l m : List Statement) :
    committedPaths (l ++ m) = committedPaths l ++ committedPaths m := List.filterMap_append

theorem startedPaths_placed (root : ExpectedRoot) (b : Builder) (k : String)
    (inner r : List Override) :
    startedPaths (statementsOf b (.object k (.mk root (stepsTo (b.names ++ [k])) inner) :: r)) =
      b.child k :: (startedPaths (statementsOf (.nested (b.child k)) inner) ++
        startedPaths (statementsOf b r)) := by
  rw [statementsOf_placed, ← List.singleton_append, startedPaths_append, startedPaths_append]
  rfl

theorem committedPaths_placed (root : ExpectedRoot) (b : Builder) (k : String)
    (inner r : List Override) :
    committedPaths (statementsOf b (.object k (.mk root (stepsTo (b.names ++ [k])) inner) :: r)) =
      committedPaths (statementsOf (.nested (b.child k)) inner) ++
        b.child k :: committedPaths (statementsOf b r) := by
  rw [statementsOf_placed, ← List.singleton_append, committedPaths_append, committedPaths_append]
  rfl

theorem startedPaths_values (b : Builder) (k : String) (values : List Operand) :
    startedPaths (statementsOf b (values.map (.value k))) = [] := by
  rw [statementsOf_map_value]
  induction values with
  | nil => rfl
  | cons x values ih => exact ih

theorem startedPaths_flatten (b : Builder) (parts : List (List Override)) :
    startedPaths (statementsOf b parts.flatten) =
      (parts.map fun part => startedPaths (statementsOf b part)).flatten :=
  filterMap_statementsOf_flatten _ b parts

section

variable {root : ExpectedRoot} {names : List String} {os : List Override} {b : Builder}

theorem committedPaths_perm (h : PlacedIn root names os) (hb : b.names = names) :
    (committedPaths (statementsOf b os)).Perm (startedPaths (statementsOf b os)) := by
  induction h generalizing b with
  | nil => exact .refl _
  | value _ ih => exact ih hb
  | @object names k inner r _ _ ihi ihr =>
    subst hb
    rw [committedPaths_placed, startedPaths_placed]
    exact List.perm_middle.trans (.cons _ (.append (ihi (b.names_child k)) (ihr rfl)))

theorem start_commit_sublist (h : PlacedIn root names os) (hb : b.names = names) {path : FieldPath}
    (hpath : path ∈ startedPaths (statementsOf b os)) :
    List.Sublist [.start path (.ofPath path), .commit path] (statementsOf b os) := by
  induction h generalizing b with
  | nil => cases hpath
  | value _ ih => exact .cons _ (ih hb hpath)
  | @object names k inner r _ _ ihi ihr =>
    subst hb
    rw [startedPaths_placed] at hpath
    rw [statementsOf_placed]
    rcases List.mem_cons.1 hpath with rfl | hpath
    · have hcommit : List.Sublist [.commit (b.child k)]
          (.commit (b.child k) :: statementsOf b r) := .cons_cons _ (List.nil_sublist _)
      exact .cons_cons _ (List.sublist_append_of_sublist_right hcommit)
    · apply List.Sublist.cons
      rcases List.mem_append.1 hpath with hi | hr
      · exact (ihi (b.names_child k) hi).trans (List.sublist_append_left _ _)
      · exact List.sublist_append_of_sublist_right (.cons _ (ihr rfl hr))

/-- A builder is open from after the start of the one around it to before the commit of that one. -/
theorem between_sublist (h : PlacedIn root names os) (hb : b.names = names)
    {path parent : FieldPath}
    (hpath : path ∈ startedPaths (statementsOf b os)) (hparent : path.parent? = some parent)
    (hne : Builder.nested parent ≠ b) :
    List.Sublist
      [.start parent (.ofPath parent), .start path (.ofPath path), .commit path, .commit parent]
      (statementsOf b os) := by
  induction h generalizing b with
  | nil => cases hpath
  | value _ ih => exact .cons _ (ih hb hpath hne)
  | @object names k inner r hinner _ ihi ihr =>
    subst hb
    rw [startedPaths_placed] at hpath
    rw [statementsOf_placed]
    rcases List.mem_cons.1 hpath with rfl | hpath
    · have hof := b.parentOf_child k
      rw [Builder.parentOf, hparent] at hof
      exact absurd hof hne
    · rcases List.mem_append.1 hpath with hi | hr
      · by_cases hc : parent = b.child k
        · subst hc
          have hpair := start_commit_sublist hinner (b.names_child k) hi
          have hlast : List.Sublist [.commit (b.child k)]
              (.commit (b.child k) :: statementsOf b r) := .cons_cons _ (List.nil_sublist _)
          exact (hpair.append hlast).cons_cons _
        · have hne' : Builder.nested parent ≠ .nested (b.child k) := fun e =>
            hc (Builder.nested.inj e)
          exact .cons _ ((ihi (b.names_child k) hi hne').trans (List.sublist_append_left _ _))
      · exact .cons _ (List.sublist_append_of_sublist_right (.cons _ (ihr rfl hr hne)))

end

namespace FieldPath

variable {p q : FieldPath}

theorem StrictlyAbove.depth_lt (h : p.StrictlyAbove q) : p.depth < q.depth := by
  obtain ⟨hp, hne⟩ := h
  have hle : p.depth ≤ q.depth := hp.length_le
  refine Nat.lt_of_le_of_ne hle fun hd => hne ?_
  exact segments_inj.1 (hp.eq_of_length hd)

theorem depth_upTo {n : Nat} (hn : 0 < n) (h : n ≤ q.depth) : (q.upTo n).depth = n := by
  rw [← length_segments, segments_upTo q hn, List.length_take, length_segments]
  exact Nat.min_eq_left h

theorem strictlyAbove_upTo {n : Nat} (hn : 0 < n) (h : n < q.depth) :
    (q.upTo n).StrictlyAbove q := by
  refine ⟨segments_upTo q hn ▸ List.take_prefix n _, fun e => ?_⟩
  have hd := depth_upTo hn (Nat.le_of_lt h)
  rw [e] at hd
  omega

theorem segment?_of_above {index : Nat} (h : p.segments <+: q.segments) (hi : index < p.depth) :
    p.segment? index = q.segment? index := by
  obtain ⟨t, ht⟩ := h
  rw [segment?, segment?, ← ht, List.getElem?_append_left hi]

theorem eq_upTo_of_above (h : p.segments <+: q.segments) : p = q.upTo p.depth := by
  apply segments_inj.1
  rw [segments_upTo q p.depth_pos]
  exact List.prefix_iff_eq_take.1 h

end FieldPath

/-- Each path above one of the targets, once, without those of the first `index` names. -/
structure PathsAbove (index : Nat) (l : List Assignment) (paths : List FieldPath) : Prop where
  nodup : paths.Nodup
  mem_iff : ∀ path, path ∈ paths ↔ index < path.depth ∧ ∃ a ∈ l, path.StrictlyAbove a.target

namespace PathsAbove

variable {index : Nat} {l : List Assignment} {paths : List FieldPath}

theorem nil (h : ∀ a ∈ l, a.target.depth ≤ index + 1) : PathsAbove index l [] := by
  refine ⟨.nil, fun path => ⟨nofun, ?_⟩⟩
  rintro ⟨hi, a, ha, habove⟩
  have hlt := habove.depth_lt
  have hle := h a ha
  omega

theorem cons (hne : l ≠ []) (hdepth : ∀ a ∈ l, index + 1 < a.target.depth) {p : FieldPath}
    (hp : ∀ a ∈ l, a.target.upTo (index + 1) = p) (h : PathsAbove (index + 1) l paths) :
    PathsAbove index l (p :: paths) := by
  obtain ⟨a, ha⟩ := List.exists_mem_of_ne_nil _ hne
  have hpd : p.depth = index + 1 := by
    rw [← hp a ha, FieldPath.depth_upTo (Nat.succ_pos index) (Nat.le_of_lt (hdepth a ha))]
  have habove : p.StrictlyAbove a.target :=
    hp a ha ▸ FieldPath.strictlyAbove_upTo (Nat.succ_pos index) (hdepth a ha)
  refine ⟨List.nodup_cons.2 ⟨fun hmem => ?_, h.nodup⟩, fun path => ?_⟩
  · have hlt := ((h.mem_iff p).1 hmem).1
    omega
  · rw [List.mem_cons, h.mem_iff]
    constructor
    · rintro (rfl | ⟨hi, hl⟩)
      · exact ⟨by omega, a, ha, habove⟩
      · exact ⟨by omega, hl⟩
    · rintro ⟨hi, c, hc, hcl⟩
      by_cases hd : path.depth = index + 1
      · left
        rw [← hp c hc, ← hd]
        exact FieldPath.eq_upTo_of_above hcl.1
      · exact .inr ⟨by omega, c, hc, hcl⟩

theorem congr {m : List Assignment} (h : PathsAbove index l paths) (hm : ∀ a, a ∈ l ↔ a ∈ m) :
    PathsAbove index m paths :=
  ⟨h.nodup, fun path => by simp only [h.mem_iff, hm]⟩

theorem flatten {groups : List (String × List Assignment)} {parts : List (List FieldPath)}
    (hkeys : (groups.map (·.1)).Nodup)
    (hk : ∀ g ∈ groups, ∀ a ∈ g.2, a.target.segment? index = some g.1)
    (h : List.Forall₂ (fun g part => PathsAbove index g.2 part) groups parts) :
    PathsAbove index (groups.flatMap (·.2)) parts.flatten := by
  induction h with
  | nil => exact .nil nofun
  | @cons g part groups parts hg _ ih =>
    rw [List.map_cons, List.nodup_cons] at hkeys
    have hrest := ih hkeys.2 fun g' hg' => hk g' (List.mem_cons_of_mem _ hg')
    have hdisjoint : ∀ path ∈ part, path ∉ parts.flatten := by
      intro path hpath hlater
      obtain ⟨hi, a, ha, habove⟩ := (hg.mem_iff path).1 hpath
      obtain ⟨-, c, hc, hcbove⟩ := (hrest.mem_iff path).1 hlater
      obtain ⟨g', hg', hcg⟩ := List.mem_flatMap.1 hc
      -- one segment of the path would be the name of two groups
      have hsame : some g.1 = some g'.1 := by
        rw [← hk g (by simp) a ha, ← hk g' (List.mem_cons_of_mem _ hg') c hcg,
          ← FieldPath.segment?_of_above habove.1 hi, FieldPath.segment?_of_above hcbove.1 hi]
      exact hkeys.1 (Option.some.inj hsame ▸ List.mem_map_of_mem hg')
    refine ⟨List.nodup_append'.2 ⟨hg.nodup, hrest.nodup, hdisjoint⟩, fun path => ?_⟩
    rw [List.flatten_cons, List.mem_append, hg.mem_iff, hrest.mem_iff, List.flatMap_cons]
    simp only [List.mem_append, or_and_right, exists_or, ← and_or_left]

end PathsAbove

theorem pathsAbove_overridesOf {levels index : Nat} {root : ExpectedRoot} {b : Builder}
    {l : List Assignment} {os : List Override}
    (h : overridesOf levels root (stepsTo b.names) index l = .ok os)
    (hdepth : EndsWithin levels index (·.target) l)
    (hnames : ∀ a ∈ l, a.target.segments.take index = b.names) :
    PathsAbove index l (startedPaths (statementsOf b os)) := by
  induction levels generalizing index b l os with
  | zero =>
    cases h
    rw [hdepth.eq_nil]
    exact .nil (List.forall_mem_nil _)
  | succ levels ih =>
    obtain ⟨parts, hparts, rfl⟩ := overridesOf_eq_ok h
    have hpart : ∀ g ∈ groupBySegment index (·.target) l, ∀ part,
        GroupMade levels root b.names index g part →
        PathsAbove index g.2 (startedPaths (statementsOf b part)) := by
      rintro ⟨k, items⟩ hg part hmade
      have hmem : ∀ a ∈ items, a ∈ l := fun a ha => ((mem_group_iff hg).1 ha).1
      have hchild : ∀ a ∈ items, a.target.upTo (index + 1) = b.child k := fun a ha =>
        FieldPath.upTo_eq_child (hnames a (hmem a ha)) ((mem_group_iff hg).1 ha).2
      cases hmade with
      | leaves hleaf _ =>
        rw [startedPaths_values]
        exact .nil fun a ha => Nat.le_of_eq (hleaf a ha)
      | @nested k items inner hn hinner =>
        have hdeep := hdepth.group hg hn
        have hbelow := ih (b := .nested (b.child k)) (by rwa [b.names_child]) hdeep fun a ha => by
          rw [b.names_child]
          exact take_succ_of_mem_group hnames hg ha
        rw [startedPaths_placed]
        simp only [statementsOf, startedPaths, List.filterMap_nil, List.append_nil]
        exact .cons (group_ne_nil hg) (fun a ha => (hdeep a ha).1) hchild hbelow
    rw [startedPaths_flatten]
    have hall := Outcome.forall₂_imp_of_mem hparts hpart
    have hflat := PathsAbove.flatten (groupBySegment_keys_nodup l)
      (fun g hg a ha => ((mem_group_iff hg).1 ha).2) (List.forall₂_map_right_iff.2 hall)
    have hsome : ∀ a ∈ l, (a.target.segment? index).isSome := fun a ha =>
      Option.isSome_iff_exists.2 (FieldPath.exists_segment? (hdepth a ha).1)
    exact hflat.congr fun a => (groupBySegment_perm hsome).mem_iff

namespace Plan

variable {scope : Scope} {l : List Assignment} {p : Plan} {root : ExpectedRoot}
  {os : List Override}

theorem pathsAbove_overrides (h : ofAssignments scope l = .ok p)
    (hos : p.overrides root = .ok os) :
    PathsAbove 0 p.assignments (startedPaths (statementsOf .root os)) := by
  obtain ⟨parts, hparts, rfl⟩ := overrides_eq_ok hos
  have hall : List.Forall₂ (fun g paths => PathsAbove 0 g.2 paths) p.keyed
      (parts.map fun part => startedPaths (statementsOf .root part)) := by
    refine List.forall₂_map_right_iff.2 (hparts.imp fun g part hpart => ?_)
    exact pathsAbove_overridesOf (b := .root) hpart (endsWithin_maxDepth _ g.2) fun _ _ => rfl
  rw [startedPaths_flatten, ← p.flatMap_keyed]
  exact .flatten (keys_nodup h) (fun g hg a ha => segment?_of_mem_keyed h hg ha) hall

theorem locateExt_mem_iff (h : PlacedIn root [] os) :
    .locateExt ∈ p.located ++ statementsOf .root os ↔
      p.scope = .request ∧ ∃ a ∈ p.assignments, a.readsExt = true := by
  have hrest : .locateExt ∉ statementsOf .root os := fun hmem => by
    cases h.isLocateExt_eq_false hmem
  rw [List.mem_append, or_iff_left hrest, located, readsExt, ← List.any_eq_true]
  split <;> simp_all

theorem locateExt_first (h : PlacedIn root [] os) {pre post : List Statement}
    (hl : p.located ++ statementsOf .root os = pre ++ .locateExt :: post) : pre = [] := by
  have hrest : .locateExt ∉ statementsOf .root os := fun hmem => by
    cases h.isLocateExt_eq_false hmem
  rw [located] at hl
  split at hl
  · cases pre with
    | nil => rfl
    | cons x pre =>
      rw [List.singleton_append, List.cons_append, List.cons.injEq] at hl
      exact absurd (hl.2 ▸ by simp) hrest
  · rw [List.nil_append] at hl
    exact absurd (hl ▸ by simp) hrest

theorem nest?_located (p : Plan) (l : List Statement) :
    (p.located ++ l).foldlM Statement.nest? [] = l.foldlM Statement.nest? [] := by
  rw [located]
  split <;> rfl

theorem startedPaths_located (p : Plan) (l : List Statement) :
    startedPaths (p.located ++ l) = startedPaths l := by
  rw [startedPaths_append, located]
  split <;> rfl

theorem committedPaths_located (p : Plan) (l : List Statement) :
    committedPaths (p.located ++ l) = committedPaths l := by
  rw [committedPaths_append, located]
  split <;> rfl

end Plan

/-- The statements of a plan's program as brackets: the builders that they start and commit. -/
structure WellBracketed (p : Plan) (l : List Statement) : Prop where
  located_iff : .locateExt ∈ l ↔ p.scope = .request ∧ ∃ a ∈ p.assignments, a.readsExt = true
  located_first : ∀ pre post, l = pre ++ .locateExt :: post → pre = []
  nested : l.foldlM Statement.nest? [] = some []
  started_once : (startedPaths l).Nodup
  started_iff : ∀ path, path ∈ startedPaths l ↔ ∃ a ∈ p.assignments, path.StrictlyAbove a.target
  committed_once : (committedPaths l).Perm (startedPaths l)
  between : ∀ path ∈ startedPaths l, ∀ parent, path.parent? = some parent → List.Sublist
    [.start parent (.ofPath parent), .start path (.ofPath path), .commit path, .commit parent] l
  finds : ∀ (s : Setting) root sources,
    (∀ path, s.run ⟨root, [], sources⟩ l ≠ .error (.noOpenBuilder path)) ∧
      ∀ m, s.run ⟨root, [], sources⟩ l = .ok m → m.opened = []

namespace Plan

variable {scope : Scope} {l : List Assignment} {p : Plan}

/-- The program of a plan has one builder for each object above its targets. Builders nest, so that
no run of the program misses one or leaves one open. -/
theorem program_brackets (h : ofAssignments scope l = .ok p) :
    ∃ q, p.program = .ok q ∧ q.scope = scope ∧ WellBracketed p q.statements := by
  obtain ⟨os, hos⟩ := exists_overrides_of_ofAssignments h .request
  have hplaced := overrides_placed hos
  have habove := pathsAbove_overrides h hos
  have hnested : (p.located ++ statementsOf .root os).foldlM Statement.nest? [] = some [] := by
    rw [p.nest?_located]
    exact foldlM_nest?_statementsOf hplaced rfl rfl
  refine ⟨_, program_of_overrides hos, scope_of_ofAssignments h, ?_⟩
  exact {
    located_iff := locateExt_mem_iff hplaced
    located_first := fun pre post => locateExt_first hplaced
    nested := hnested
    started_once := by
      rw [p.startedPaths_located]
      exact habove.nodup
    started_iff := by
      intro path
      rw [p.startedPaths_located, habove.mem_iff]
      exact and_iff_right path.depth_pos
    committed_once := by
      rw [p.startedPaths_located, p.committedPaths_located]
      exact committedPaths_perm hplaced rfl
    between := by
      intro path hpath parent hparent
      rw [p.startedPaths_located] at hpath
      exact List.sublist_append_of_sublist_right (between_sublist hplaced rfl hpath hparent nofun)
    finds := by
      intro s root sources
      have hrun := s.finds_run (m := ⟨root, [], sources⟩) trivial hnested
      exact ⟨hrun.found, fun m hm => List.map_eq_nil_iff.1 (hrun.left m hm)⟩ }

theorem program_brackets_sample :
    ∃ p q, ofAssignments .request sampleAdapter.request = .ok p ∧ p.program = .ok q ∧
      WellBracketed p q.statements := by
  obtain ⟨p, hp⟩ : ∃ p, ofAssignments .request sampleAdapter.request = .ok p := ⟨_, rfl⟩
  obtain ⟨q, hq, -, hbrackets⟩ := program_brackets hp
  exact ⟨p, q, hp, hq, hbrackets⟩

end Plan

end AdapterForge

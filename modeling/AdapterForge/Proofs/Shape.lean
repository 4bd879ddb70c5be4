import AdapterForge.Proofs.Planning
import AdapterForge.Proofs.SynthesisAgreement
import AdapterForge.Proofs.Writing

/-!
In a list that passes `Plan.checkShape`, no target lies above another one, and such a list always
has overrides.
-/
namespace AdapterForge

/-- Targets are the same or apart. -/
def Separate (l : List Assignment) : Prop :=
  ∀ a ∈ l, ∀ b ∈ l, a.target.segments <+: b.target.segments → a.target = b.target

theorem Separate.apart {l : List Assignment} (h : Separate l) {a b : Assignment} (ha : a ∈ l)
    (hb : b ∈ l) (hab : a.target ≠ b.target) : Apart a.target.segments b.target.segments :=
  ⟨fun hp => hab (h a ha b hb hp), fun hp => hab (h b hb a ha hp).symm⟩

theorem Separate.subset {l m : List Assignment} (h : Separate l) (hm : ∀ a ∈ m, a ∈ l) :
    Separate m := fun a ha b hb => h a (hm a ha) b (hm b hb)

namespace FieldPath

/-- The names of `p` begin those of `q`, and `q` goes on. -/
def StrictlyAbove (p q : FieldPath) : Prop := p.segments <+: q.segments ∧ p ≠ q

instance (p q : FieldPath) : Decidable (p.StrictlyAbove q) := inferInstanceAs (Decidable (_ ∧ _))

variable {p : FieldPath} {index : Nat} {k : String}

theorem exists_segment? (h : index < p.depth) : ∃ k, p.segment? index = some k :=
  ⟨p.segments[index], List.getElem?_eq_getElem h⟩

theorem drop_segments (h : p.segment? index = some k) :
    p.segments.drop index = k :: p.segments.drop (index + 1) := by
  obtain ⟨hlt, hk⟩ := List.getElem?_eq_some_iff.1 h
  rw [List.drop_eq_getElem_cons hlt, hk]

theorem take_segments {n : Nat} (h : p.depth = n) : p.segments.take n = p.segments :=
  List.take_of_length_le (Nat.le_of_eq h)

theorem above_of_take_eq {q : FieldPath} {n : Nat} (h : p.segments.take n = q.segments.take n)
    (hp : p.depth = n) : p.segments <+: q.segments := by
  rw [← take_segments hp, h]
  exact List.take_prefix _ _

theorem drop_succ_eq_nil_iff (h : index < p.depth) :
    p.segments.drop (index + 1) = [] ↔ p.depth = index + 1 := by
  rw [List.drop_eq_nil_iff, p.length_segments]
  omega

end FieldPath

def checkGroup (levels index : Nat) (g : String × List Assignment) : Except RuleError Unit :=
  let leaves := g.2.filter (·.target.depth = index + 1)
  let nested := g.2.filter (·.target.depth ≠ index + 1)
  match leaves, nested with
  | leaf :: _, deeper :: _ =>
    .error ⟨deeper.raw, .unsupported (.assignedAndNested g.1 leaf.raw)⟩
  | _, nested => Plan.checkShape levels (index + 1) nested

theorem checkShape_succ (levels index : Nat) (l : List Assignment) :
    Plan.checkShape (levels + 1) index l =
      (groupBySegment index (·.target) l).forM (checkGroup levels index) := rfl

theorem checkShape_nil (levels index : Nat) : Plan.checkShape levels index [] = .ok () := by
  cases levels <;> rfl

theorem checkGroup_of_leaves (levels : Nat) {index : Nat} {g : String × List Assignment}
    (h : ∀ a ∈ g.2, a.target.depth = index + 1) : checkGroup levels index g = .ok () := by
  have hnested : g.2.filter (·.target.depth ≠ index + 1) = [] := by simpa using h
  simp only [checkGroup, hnested]
  cases g.2.filter (·.target.depth = index + 1) <;> exact checkShape_nil levels (index + 1)

theorem checkGroup_of_nested (levels : Nat) {index : Nat} {g : String × List Assignment}
    (h : ∀ a ∈ g.2, a.target.depth ≠ index + 1) :
    checkGroup levels index g = Plan.checkShape levels (index + 1) g.2 := by
  have hleaves : g.2.filter (·.target.depth = index + 1) = [] := by simpa using h
  have hnested : g.2.filter (·.target.depth ≠ index + 1) = g.2 := by simpa using h
  simp only [checkGroup, hleaves, hnested]

theorem checkGroup_mixed (levels : Nat) {index : Nat} {g : String × List Assignment}
    (hl : ∃ a ∈ g.2, a.target.depth = index + 1) (hn : ∃ a ∈ g.2, a.target.depth ≠ index + 1) :
    ∃ a ∈ g.2, a.target.depth = index + 1 ∧ ∃ b ∈ g.2, b.target.depth ≠ index + 1 ∧
      checkGroup levels index g = .error ⟨b.raw, .unsupported (.assignedAndNested g.1 a.raw)⟩ := by
  obtain ⟨a, ha, hal⟩ := hl
  obtain ⟨c, hc, hcn⟩ := hn
  obtain ⟨x, r, hx⟩ := exists_filter_eq_cons (P := (·.target.depth = index + 1)) ha hal
  obtain ⟨y, s, hy⟩ := exists_filter_eq_cons (P := (·.target.depth ≠ index + 1)) hc hcn
  obtain ⟨hxg, hxl⟩ := List.mem_filter.1 (hx ▸ List.mem_cons_self : x ∈ g.2.filter _)
  obtain ⟨hyg, hyn⟩ := List.mem_filter.1 (hy ▸ List.mem_cons_self : y ∈ g.2.filter _)
  refine ⟨x, hxg, of_decide_eq_true hxl, y, hyg, of_decide_eq_true hyn, ?_⟩
  simp only [checkGroup, hx, hy]

theorem checkGroup_eq_ok {levels index : Nat} {g : String × List Assignment}
    (h : checkGroup levels index g = .ok ()) :
    (∀ a ∈ g.2, a.target.depth = index + 1) ∨
      (∀ a ∈ g.2, a.target.depth ≠ index + 1) ∧
        Plan.checkShape levels (index + 1) g.2 = .ok () := by
  rcases leaves_or_nested index g.2 with hleaf | hn | ⟨hl, hn⟩
  · exact .inl hleaf
  · exact .inr ⟨hn, checkGroup_of_nested levels hn ▸ h⟩
  · obtain ⟨a, -, -, b, -, -, he⟩ := checkGroup_mixed levels hl hn
    rw [he] at h
    cases h

theorem drop_eq_of_checkShape {levels index : Nat} {l : List Assignment}
    (hdepth : EndsWithin levels index (·.target) l)
    (h : Plan.checkShape levels index l = .ok ()) {a b : Assignment} (ha : a ∈ l) (hb : b ∈ l)
    (hab : a.target.segments.drop index <+: b.target.segments.drop index) :
    a.target.segments.drop index = b.target.segments.drop index := by
  induction levels generalizing index l with
  | zero => exact absurd (hdepth.eq_nil ▸ ha) List.not_mem_nil
  | succ levels ih =>
    obtain ⟨k, hak⟩ := FieldPath.exists_segment? (hdepth a ha).1
    obtain ⟨j, hbj⟩ := FieldPath.exists_segment? (hdepth b hb).1
    rw [FieldPath.drop_segments hak, FieldPath.drop_segments hbj] at hab ⊢
    obtain ⟨rfl, hrest⟩ := List.cons_prefix_cons.1 hab
    obtain ⟨g, hg, rfl⟩ := exists_group ha hak
    have hag : a ∈ g.2 := (mem_group_iff hg).2 ⟨ha, hak⟩
    have hbg : b ∈ g.2 := (mem_group_iff hg).2 ⟨hb, hbj⟩
    rw [checkShape_succ] at h
    rcases checkGroup_eq_ok (Outcome.forM_eq_ok h g hg) with hleaf | ⟨hn, hinner⟩
    · have hnil {c : Assignment} (hc : c ∈ g.2) : c.target.segments.drop (index + 1) = [] := by
        rw [FieldPath.drop_succ_eq_nil_iff (by rw [hleaf c hc]; omega)]
        exact hleaf c hc
      rw [hnil hag, hnil hbg]
    · congr 1
      exact ih (hdepth.group hg hn) hinner hag hbg hrest

theorem separate_of_checkShape {l : List Assignment}
    (h : Plan.checkShape (maxDepth l) 0 l = .ok ()) : Separate l := by
  intro a ha b hb hab
  apply FieldPath.segments_inj.1
  exact drop_eq_of_checkShape (endsWithin_maxDepth _ l) h ha hb hab

theorem take_succ_of_mem_group {α : Type} {path : α → FieldPath} {index : Nat}
    {names : List String} {l : List α} (hnames : ∀ x ∈ l, (path x).segments.take index = names)
    {g : String × List α} (hg : g ∈ groupBySegment index path l) {x : α} (hx : x ∈ g.2) :
    (path x).segments.take (index + 1) = names ++ [g.1] := by
  obtain ⟨hxl, hk⟩ := (mem_group_iff hg).1 hx
  have hget : (path x).segments[index]? = some g.1 := hk
  rw [List.take_add_one, hnames x hxl, hget]
  rfl

theorem Separate.leaves_or_nested {l : List Assignment} (hsep : Separate l) {index : Nat}
    {names : List String} (hnames : ∀ a ∈ l, a.target.segments.take (index + 1) = names) :
    (∀ a ∈ l, a.target.depth = index + 1) ∨ ∀ a ∈ l, a.target.depth ≠ index + 1 := by
  rcases AdapterForge.leaves_or_nested index l with hleaf | hn | ⟨⟨a, ha, hal⟩, c, hc, hcn⟩
  · exact .inl hleaf
  · exact .inr hn
  · -- a field and the parent of a field: the first target would lie above the second
    have hac : a.target = c.target :=
      hsep a ha c hc (FieldPath.above_of_take_eq ((hnames a ha).trans (hnames c hc).symm) hal)
    rw [hac] at hal
    exact absurd hal hcn

theorem checkShape_of_separate {levels index : Nat} {names : List String} {l : List Assignment}
    (hsep : Separate l) (hnames : ∀ a ∈ l, a.target.segments.take index = names) :
    Plan.checkShape levels index l = .ok () := by
  induction levels generalizing index names l with
  | zero => rfl
  | succ levels ih =>
    rw [checkShape_succ]
    apply Outcome.forM_eq_ok_of_forall
    intro g hg
    have hitems := hsep.subset fun a ha => ((mem_group_iff hg).1 ha).1
    have htake := fun a => take_succ_of_mem_group hnames hg (x := a)
    rcases hitems.leaves_or_nested htake with hleaf | hn
    · exact checkGroup_of_leaves levels hleaf
    · rw [checkGroup_of_nested levels hn]
      exact ih hitems htake

theorem exists_overridesOf {levels index : Nat} {root : ExpectedRoot} {names : List String}
    {l : List Assignment} (hsep : Separate l) (hoperand : ∀ a ∈ l, ∃ x, a.operand = .ok x)
    (hnames : ∀ a ∈ l, a.target.segments.take index = names) (steps : List Step) :
    ∃ os, overridesOf levels root steps index l = .ok os := by
  induction levels generalizing index names l steps with
  | zero => exact ⟨[], rfl⟩
  | succ levels ih =>
    have hgroups : ∀ g ∈ groupBySegment index (·.target) l,
        ∃ os, groupOverrides levels root steps index g = .ok os := by
      rintro ⟨k, items⟩ hg
      have hmem : ∀ a ∈ items, a ∈ l := fun a ha => ((mem_group_iff hg).1 ha).1
      have htake := fun a => take_succ_of_mem_group hnames hg (x := a)
      have hitems := hsep.subset hmem
      rcases hitems.leaves_or_nested htake with hleaf | hn
      · rw [groupOverrides_leaves hleaf]
        apply Outcome.exists_mapM_eq_ok
        intro a ha
        obtain ⟨x, hx⟩ := hoperand a (hmem a ha)
        exact ⟨.value k x, by rw [hx]; rfl⟩
      · rw [groupOverrides_nested (group_ne_nil hg) hn]
        obtain ⟨os, hos⟩ := ih hitems (fun a ha => hoperand a (hmem a ha)) htake
          (steps ++ [⟨k, .ofField k (steps.getLast?.map (·.kind))⟩])
        simp only [hos]
        exact ⟨_, rfl⟩
    obtain ⟨parts, hparts⟩ := Outcome.exists_mapM_eq_ok hgroups
    rw [overridesOf_succ, hparts]
    exact ⟨_, rfl⟩

namespace Plan

variable {scope : Scope} {l : List Assignment} {p : Plan}

theorem separate_assignments (h : ofAssignments scope l = .ok p) : Separate p.assignments := by
  have hperm := assignments_perm h
  obtain ⟨-, hshape, -⟩ := ofAssignments_eq_ok h
  exact (separate_of_checkShape hshape).subset fun a ha => hperm.mem_iff.1 ha

theorem operand_assignments (h : ofAssignments scope l = .ok p) :
    ∀ a ∈ p.assignments, ∃ x, a.operand = .ok x := by
  have hperm := assignments_perm h
  obtain ⟨hoperand, -, -⟩ := ofAssignments_eq_ok h
  exact fun a ha => hoperand a (hperm.mem_iff.1 ha)

theorem overrides_eq_ok {root : ExpectedRoot} {os : List Override}
    (h : p.overrides root = .ok os) :
    ∃ parts, List.Forall₂
      (fun g part => overridesOf (AdapterForge.maxDepth g.2) root (stepsTo []) 0 g.2 = .ok part)
      p.keyed parts ∧ os = parts.flatten := by
  obtain ⟨parts, hparts, hos⟩ := Outcome.bind_eq_ok.1 h
  obtain rfl := Outcome.pure_eq_ok.1 hos
  exact ⟨parts, List.forall₂_map_left_iff.2 (Outcome.mapM_eq_ok_iff.1 hparts), rfl⟩

theorem exists_overrides_of_ofAssignments (h : ofAssignments scope l = .ok p)
    (root : ExpectedRoot) : ∃ os, p.overrides root = .ok os := by
  have hgroups : ∀ g ∈ p.groups,
      ∃ os, overridesOf (AdapterForge.maxDepth g.members) root [] 0 g.members = .ok os := by
    intro g hg
    have hmem : ∀ a ∈ g.members, a ∈ p.assignments := fun a ha => List.mem_flatMap.2 ⟨g, hg, ha⟩
    exact exists_overridesOf ((separate_assignments h).subset hmem)
      (fun a ha => operand_assignments h a (hmem a ha)) (fun _ _ => rfl) []
  obtain ⟨parts, hparts⟩ := Outcome.exists_mapM_eq_ok hgroups
  rw [overrides, hparts]
  exact ⟨_, rfl⟩

end Plan

end AdapterForge

import Mathlib.Data.List.Perm.Basic
import AdapterForge.Plan
import AdapterForge.Proofs.Grouping
import AdapterForge.Proofs.Outcome

/-!
What holds of resolved assignments and of the plans that are made from them.
-/
namespace AdapterForge

def Scope.root : Scope → SourceRoot
  | .impression => .imp
  | .request => .request

structure Scope.Admits (scope : Scope) (a : Assignment) : Prop where
  target_ne : scope = .request → a.target.first ≠ "imp"
  target_depth : a.target.depth ≤ scope.maxDepth
  source_root : ∀ s, a.value = .copy s → s.root = .impExt ∨ s.root = scope.root
  source_ne : ∀ s, a.value = .copy s → s.root = .request → s.path.first ≠ "imp"

theorem Scope.resolveTarget_eq_ok_iff {scope : Scope} {raw : String} {path : FieldPath} :
    scope.resolveTarget raw = .ok path ↔
      ∃ text, scope.targetText raw = .ok text ∧ FieldPath.parse text = .ok path ∧
        (scope = .request → path.first ≠ "imp") ∧ path.depth ≤ scope.maxDepth := by
  constructor
  · intro h
    unfold resolveTarget at h
    split at h
    · cases h
    · next text htext =>
      split at h
      · cases h
      · next hparse =>
        split at h
        · cases h
        · split at h
          · cases h
          · next himp hdepth =>
            cases h
            exact ⟨text, htext, hparse, fun hs hi => himp ⟨hs, hi⟩, Nat.not_lt.1 hdepth⟩
  · rintro ⟨text, htext, hparse, hne, hdepth⟩
    simp only [resolveTarget, htext, hparse]
    rw [if_neg fun h => hne h.1 h.2, if_neg (Nat.not_lt.2 hdepth)]

theorem Scope.resolveTarget_eq_ok {scope : Scope} {raw : String} {path : FieldPath}
    (h : scope.resolveTarget raw = .ok path) :
    (∃ text, FieldPath.parse text = .ok path) ∧ (scope = .request → path.first ≠ "imp") ∧
      path.depth ≤ scope.maxDepth := by
  obtain ⟨text, -, hparse, hlimits⟩ := resolveTarget_eq_ok_iff.1 h
  exact ⟨⟨text, hparse⟩, hlimits⟩

theorem Scope.sourceText_root {scope : Scope} {raw text : String} {root : SourceRoot}
    (h : scope.sourceText raw = .ok (root, text)) : root = .impExt ∨ root = scope.root := by
  unfold sourceText at h
  split at h
  · cases h
    exact .inl rfl
  · split at h
    · cases h
      exact .inr rfl
    · cases h
    · split at h <;> cases h <;> exact .inr rfl

theorem Scope.resolveSource_eq_ok_iff {scope : Scope} {target raw : String} {s : Source} :
    scope.resolveSource target raw = .ok s ↔
      ∃ text, scope.sourceText raw = .ok (s.root, text) ∧ FieldPath.parse text = .ok s.path ∧
        (s.root = .request → s.path.first ≠ "imp") ∧ s.path.depth ≤ maxSourceDepth := by
  constructor
  · intro h
    unfold resolveSource at h
    split at h
    · cases h
    · next root text htext =>
      split at h
      · cases h
      · next hparse =>
        split at h
        · cases h
        · split at h
          · cases h
          · next himp hdepth =>
            cases h
            exact ⟨text, htext, hparse, fun hr hi => himp ⟨hr, hi⟩, Nat.not_lt.1 hdepth⟩
  · rintro ⟨text, htext, hparse, hne, hdepth⟩
    simp only [resolveSource, htext, hparse]
    rw [if_neg fun h => hne h.1 h.2, if_neg (Nat.not_lt.2 hdepth)]

theorem Scope.resolveSource_eq_ok {scope : Scope} {target raw : String} {s : Source}
    (h : scope.resolveSource target raw = .ok s) :
    (∃ text, FieldPath.parse text = .ok s.path) ∧ (s.root = .impExt ∨ s.root = scope.root) ∧
      (s.root = .request → s.path.first ≠ "imp") ∧ s.path.depth ≤ maxSourceDepth := by
  obtain ⟨text, htext, hparse, hlimits⟩ := resolveSource_eq_ok_iff.1 h
  exact ⟨⟨text, hparse⟩, sourceText_root htext, hlimits⟩

theorem Rule.resolve_eq_ok_iff {scope : Scope} {r : Rule} {a : Assignment} :
    r.resolve scope = .ok a ↔
      a.raw = r.target ∧ scope.resolveTarget r.target = .ok a.target ∧
        ((∃ v, r.staticValue = some v ∧ r.source = none ∧ a.value = .fixed v) ∨
          ∃ s x, r.staticValue = none ∧ r.source = some s ∧
            scope.resolveSource r.target s = .ok x ∧ a.value = .copy x) := by
  constructor
  · intro h
    unfold resolve at h
    split at h
    · cases h
    · cases h
    · next v hv hs =>
      obtain ⟨target, ht, h⟩ := Outcome.bind_eq_ok.1 h
      obtain rfl := Outcome.pure_eq_ok.1 h
      exact ⟨rfl, ht, .inl ⟨v, hv, hs, rfl⟩⟩
    · next s hv hs =>
      obtain ⟨target, ht, h⟩ := Outcome.bind_eq_ok.1 h
      obtain ⟨x, hx, h⟩ := Outcome.bind_eq_ok.1 h
      obtain rfl := Outcome.pure_eq_ok.1 h
      exact ⟨rfl, ht, .inr ⟨s, x, hv, hs, hx, rfl⟩⟩
  · obtain ⟨raw, target, value⟩ := a
    rintro ⟨rfl, ht, ⟨v, hv, hs, rfl⟩ | ⟨s, x, hv, hs, hx, rfl⟩⟩
    · rw [resolve, hv, hs]
      exact Outcome.bind_eq_ok.2 ⟨target, ht, rfl⟩
    · rw [resolve, hv, hs]
      exact Outcome.bind_eq_ok.2 ⟨target, ht, Outcome.bind_eq_ok.2 ⟨x, hx, rfl⟩⟩

theorem Rule.resolve_eq_ok {scope : Scope} {r : Rule} {a : Assignment}
    (h : r.resolve scope = .ok a) :
    scope.resolveTarget r.target = .ok a.target ∧
      ((∃ v, r.staticValue = some v ∧ a.value = .fixed v) ∨
        ∃ s x, r.staticValue = none ∧ scope.resolveSource r.target s = .ok x ∧
          a.value = .copy x) := by
  obtain ⟨-, ht, ⟨v, hv, -, ha⟩ | ⟨s, x, hv, -, hx, ha⟩⟩ := resolve_eq_ok_iff.1 h
  · exact ⟨ht, .inl ⟨v, hv, ha⟩⟩
  · exact ⟨ht, .inr ⟨s, x, hv, hx, ha⟩⟩

theorem Rule.admits_of_resolve {scope : Scope} {r : Rule} {a : Assignment}
    (h : r.resolve scope = .ok a) : scope.Admits a := by
  obtain ⟨ht, hvalue⟩ := resolve_eq_ok h
  obtain ⟨-, hne, hdepth⟩ := Scope.resolveTarget_eq_ok ht
  rcases hvalue with ⟨v, -, hv⟩ | ⟨s, x, -, hs, hx⟩
  · exact ⟨hne, hdepth, by simp [hv], by simp [hv]⟩
  · obtain ⟨-, hroot, hfirst, -⟩ := Scope.resolveSource_eq_ok hs
    refine ⟨hne, hdepth, ?_, ?_⟩
    · intro y hy
      obtain rfl : x = y := ValueSource.copy.inj (hx.symm.trans hy)
      exact hroot
    · intro y hy
      obtain rfl : x = y := ValueSource.copy.inj (hx.symm.trans hy)
      exact hfirst

theorem Rule.isNoop_of_resolve {scope : Scope} {r : Rule} {a : Assignment}
    (h : r.resolve scope = .ok a) (hr : r.staticValue = some .null) : a.isNoop = true := by
  obtain ⟨-, ⟨v, hv, ha⟩ | ⟨s, x, hnone, -⟩⟩ := resolve_eq_ok h
  · obtain rfl : v = .null := Option.some.inj (hv.symm.trans hr)
    rw [Assignment.isNoop, ha]
  · rw [hnone] at hr
    cases hr

theorem admits_of_resolved {scope : Scope} {rules : List Rule} {l : List Assignment}
    (h : rules.mapM (Rule.resolve scope) = .ok l) : ∀ a ∈ l, scope.Admits a := by
  intro a ha
  obtain ⟨r, -, hr⟩ := Outcome.exists_of_mem_mapM h ha
  exact r.admits_of_resolve hr

namespace Plan

/-- What is kept are the assignments that write anything, as soon as all of them have operands. -/
theorem kept_eq (l : List Assignment) : kept l =
    ((l.filter fun a : Assignment => !a.isNoop).mapM Assignment.operand).map fun _ =>
      l.filter fun a : Assignment => !a.isNoop := by
  induction l with
  | nil => rfl
  | cons a l ih =>
    unfold kept
    split
    · next ha => rw [List.filter_cons_of_neg (by simp [ha]), ih]
    · next ha =>
      rw [List.filter_cons_of_pos (by simpa using ha), List.mapM_cons, ih]
      cases a.operand with
      | error e => rfl
      | ok x =>
        cases (l.filter fun a : Assignment => !a.isNoop).mapM Assignment.operand <;> rfl

theorem kept_eq_ok {l k : List Assignment} (h : kept l = .ok k) :
    k = l.filter (!·.isNoop) ∧ ∀ a ∈ k, ∃ x, a.operand = .ok x := by
  rw [kept_eq] at h
  cases hx : (l.filter fun a : Assignment => !a.isNoop).mapM Assignment.operand with
  | error e =>
    rw [hx] at h
    cases h
  | ok xs =>
    rw [hx] at h
    cases h
    exact ⟨rfl, Outcome.exists_mapM_eq_ok_iff.1 ⟨xs, hx⟩⟩

theorem kept_of_operands {l : List Assignment}
    (h : ∀ a ∈ l.filter (!·.isNoop), ∃ x, a.operand = .ok x) :
    kept l = .ok (l.filter (!·.isNoop)) := by
  obtain ⟨xs, hx⟩ := Outcome.exists_mapM_eq_ok h
  rw [kept_eq, hx]
  rfl

theorem ordered_perm (scope : Scope) (l : List Assignment) : (ordered scope l).Perm l := by
  cases scope with
  | impression => exact List.filter_append_perm _ l
  | request => exact .refl l

def writing (l : List Assignment) : List Assignment := l.filter (!·.isNoop)

theorem ofAssignments_eq_ok {scope : Scope} {l : List Assignment} {p : Plan}
    (h : ofAssignments scope l = .ok p) :
    (∀ a ∈ writing l, ∃ x, a.operand = .ok x) ∧
      checkShape (AdapterForge.maxDepth (writing l)) 0 (writing l) = .ok () ∧
      p = ⟨scope, (groupBySegment 0 (·.target) (writing l)).map fun (field, items) =>
        ⟨field, ordered scope items⟩⟩ := by
  obtain ⟨k, hk, h⟩ := Outcome.bind_eq_ok.1 h
  obtain ⟨⟨⟩, hshape, h⟩ := Outcome.bind_eq_ok.1 h
  obtain ⟨rfl, ho⟩ := kept_eq_ok hk
  exact ⟨ho, hshape, (Outcome.pure_eq_ok.1 h).symm⟩

theorem assignments_perm {scope : Scope} {l : List Assignment} {p : Plan}
    (h : ofAssignments scope l = .ok p) : p.assignments.Perm (writing l) := by
  obtain ⟨-, -, rfl⟩ := ofAssignments_eq_ok h
  have hsome : ∀ a ∈ writing l, (a.target.segment? 0).isSome := fun a _ => rfl
  refine .trans ?_ (groupBySegment_perm hsome)
  rw [assignments, List.flatMap_map]
  exact List.Perm.flatMap_left _ fun g _ => ordered_perm scope g.2

theorem mem_assignments {scope : Scope} {l : List Assignment} {p : Plan}
    (h : ofAssignments scope l = .ok p) {a : Assignment} :
    a ∈ p.assignments ↔ a ∈ l ∧ a.isNoop = false := by
  rw [(assignments_perm h).mem_iff, writing, List.mem_filter, Bool.not_eq_true']

theorem scope_of_ofAssignments {scope : Scope} {l : List Assignment} {p : Plan}
    (h : ofAssignments scope l = .ok p) : p.scope = scope := by
  obtain ⟨-, -, rfl⟩ := ofAssignments_eq_ok h
  rfl

theorem admits_assignments {scope : Scope} {l : List Assignment} {p : Plan}
    (h : ofAssignments scope l = .ok p) (hl : ∀ a ∈ l, scope.Admits a) :
    ∀ a ∈ p.assignments, scope.Admits a :=
  fun a ha => hl a ((mem_assignments h).1 ha).1

theorem isEmpty_iff {scope : Scope} {l : List Assignment} {p : Plan}
    (h : ofAssignments scope l = .ok p) : p.isEmpty = true ↔ ∀ a ∈ l, a.isNoop = true := by
  have hw : p.isEmpty = true ↔ writing l = [] := by
    obtain ⟨-, -, rfl⟩ := ofAssignments_eq_ok h
    cases writing l with
    | nil => simp [isEmpty, groupBySegment_nil]
    | cons a r =>
      have ha : a.target.segment? 0 = some a.target.first := rfl
      simp [isEmpty, groupBySegment_cons ha]
  rw [hw, writing, List.filter_eq_nil_iff]
  simp

def keyed (p : Plan) : List (String × List Assignment) :=
  p.groups.map fun g => (g.field, g.members)

theorem flatMap_keyed (p : Plan) : p.keyed.flatMap (·.2) = p.assignments := List.flatMap_map ..

theorem keyed_eq {scope : Scope} {l : List Assignment} {p : Plan}
    (h : ofAssignments scope l = .ok p) :
    p.keyed = (groupBySegment 0 (·.target) (writing l)).map fun g => (g.1, ordered scope g.2) := by
  obtain ⟨-, -, rfl⟩ := ofAssignments_eq_ok h
  simp only [keyed, List.map_map]
  rfl

theorem keys_nodup {scope : Scope} {l : List Assignment} {p : Plan}
    (h : ofAssignments scope l = .ok p) : (p.keyed.map (·.1)).Nodup := by
  rw [keyed_eq h, List.map_map]
  exact groupBySegment_keys_nodup (writing l)

theorem segment?_of_mem_keyed {scope : Scope} {l : List Assignment} {p : Plan}
    (h : ofAssignments scope l = .ok p) {g : String × List Assignment} (hg : g ∈ p.keyed)
    {a : Assignment} (ha : a ∈ g.2) : a.target.segment? 0 = some g.1 := by
  rw [keyed_eq h] at hg
  obtain ⟨g, hg', rfl⟩ := List.mem_map.1 hg
  exact ((mem_group_iff hg').1 ((ordered_perm scope g.2).mem_iff.1 ha)).2

theorem exists_mem_of_mem_keyed {scope : Scope} {l : List Assignment} {p : Plan}
    (h : ofAssignments scope l = .ok p) {g : String × List Assignment} (hg : g ∈ p.keyed) :
    ∃ a, a ∈ g.2 := by
  rw [keyed_eq h] at hg
  obtain ⟨g, hg', rfl⟩ := List.mem_map.1 hg
  obtain ⟨a, ha⟩ := List.exists_mem_of_ne_nil _ (group_ne_nil hg')
  exact ⟨a, (ordered_perm scope g.2).mem_iff.2 ha⟩

end Plan

end AdapterForge

import AdapterForge.Adapter
import AdapterForge.Proofs.Planning

/-!
Which assignments an adapter has: each rule of its description gives one, in the scope of its target.
-/
namespace AdapterForge

def Source.Declared (params : List Param) (x : Source) : Prop :=
  x.root = .impExt → ∃ p ∈ params, x.path = ⟨p.name, []⟩

theorem FieldPath.eq_of_depth {p : FieldPath} (h : p.depth = 1) : p = ⟨p.leaf, []⟩ := by
  obtain ⟨first, rest⟩ := p
  obtain rfl : rest = [] := List.length_eq_zero_iff.1 (Nat.succ.inj h)
  rfl

theorem Assignment.checkParam_eq_ok_iff {params : List Param} {a b : Assignment} :
    a.checkParam params = .ok b ↔ b = a ∧ ∀ x, a.value = .copy x → x.Declared params := by
  unfold checkParam
  split
  · next path hvalue =>
    have hdeclared : (∀ x, a.value = .copy x → x.Declared params) ↔
        ∃ p ∈ params, path = ⟨p.name, []⟩ := by
      simp [hvalue, Source.Declared]
    rw [hdeclared]
    split
    · next hdepth =>
      simp only [reduceCtorEq, false_iff, not_and]
      rintro - ⟨p, -, rfl⟩
      exact absurd hdepth (Nat.lt_irrefl 1)
    · next hdepth =>
      have hpath := FieldPath.eq_of_depth (Nat.le_antisymm (Nat.not_lt.1 hdepth) path.depth_pos)
      have hparam : (∃ p ∈ params, path = ⟨p.name, []⟩) ↔
          params.any (·.name = path.leaf) = true := by
        rw [List.any_eq_true]
        refine exists_congr fun p => and_congr_right fun _ => ?_
        rw [decide_eq_true_iff]
        constructor
        · rintro rfl
          rfl
        · intro hp
          rwa [hp]
      rw [hparam]
      split
      · next hany => simp only [Except.ok.injEq, hany, and_true, eq_comm]
      · next hany => simp only [reduceCtorEq, hany, and_false]
  · next hvalue =>
    have hdeclared : ∀ x, a.value = .copy x → x.Declared params := by
      rintro ⟨root, path⟩ hx rfl
      exact absurd hx (hvalue path)
    simp only [Except.ok.injEq, eq_comm, and_iff_left hdeclared]

theorem Rule.source_depth {scope : Scope} {r : Rule} {a : Assignment}
    (h : r.resolve scope = .ok a) {x : Source} (hx : a.value = .copy x) :
    x.path.depth ≤ maxSourceDepth := by
  obtain ⟨-, ⟨v, -, hv⟩ | ⟨s, y, -, hs, hy⟩⟩ := resolve_eq_ok h
  · rw [hv] at hx
    cases hx
  · obtain rfl : y = x := ValueSource.copy.inj (hy.symm.trans hx)
    exact (Scope.resolveSource_eq_ok hs).2.2.2

/-- The assignment of a rule whose target is in a scope. -/
def Rule.assignmentIn? (scope : Scope) (params : List Param) (r : Rule) : Option Assignment :=
  if Scope.ofTarget r.target = scope then (r.assignment params).toOption else none

theorem Rule.assignmentIn?_eq_some {scope : Scope} {params : List Param} {r : Rule}
    {a : Assignment} (h : r.assignmentIn? scope params = some a) :
    Scope.ofTarget r.target = scope ∧ r.assignment params = .ok a := by
  unfold assignmentIn? at h
  split at h
  · next hscope => exact ⟨hscope, Outcome.toOption_eq_some.1 h⟩
  · cases h

theorem Rule.assignment_eq_ok {params : List Param} {r : Rule} {a : Assignment}
    (h : r.assignment params = .ok a) :
    r.resolve (.ofTarget r.target) = .ok a ∧
      ∀ x, a.value = .copy x → x.root = .impExt → x.path.depth = 1 := by
  obtain ⟨b, hb, h⟩ := Outcome.bind_eq_ok.1 h
  obtain ⟨rfl, hdeclared⟩ := Assignment.checkParam_eq_ok_iff.1 h
  refine ⟨hb, fun x hx hroot => ?_⟩
  obtain ⟨p, -, hpath⟩ := hdeclared x hx hroot
  rw [hpath]
  rfl

namespace Adapter

theorem ofDescription_eq_ok {d : Description} {a : Adapter} (h : ofDescription d = .ok a) :
    a.imp = d.rules.filterMap (Rule.assignmentIn? .impression d.params) ∧
      a.request = d.rules.filterMap (Rule.assignmentIn? .request d.params) := by
  obtain ⟨l, hl, h⟩ := Outcome.bind_eq_ok.1 h
  obtain rfl := Outcome.pure_eq_ok.1 h
  have hscope : ∀ s : Scope, (l.filter (·.1 = s)).map (·.2) =
      d.rules.filterMap (Rule.assignmentIn? s d.params) := by
    intro s
    rw [Outcome.filterMap_of_mapM hl, List.filter_filterMap, List.map_filterMap]
    congr 1
    funext r
    unfold Rule.assignmentIn?
    cases r.assignment d.params <;> by_cases hs : Scope.ofTarget r.target = s <;>
      simp [hs, Except.toOption, bind, Except.bind, pure, Except.pure]
  exact ⟨hscope .impression, hscope .request⟩

theorem description_eq {d : Description} {a : Adapter} (h : ofDescription d = .ok a) :
    a.description = d := by
  obtain ⟨l, -, h⟩ := Outcome.bind_eq_ok.1 h
  obtain rfl := Outcome.pure_eq_ok.1 h
  rfl

theorem exists_ofDescription_iff (d : Description) :
    (∃ a, ofDescription d = .ok a) ↔ ∀ r ∈ d.rules, ∃ b, r.assignment d.params = .ok b := by
  have hrule : ∀ r : Rule, (∃ e, (do return (Scope.ofTarget r.target, ← r.assignment d.params) :
      Except RuleError (Scope × Assignment)) = .ok e) ↔ ∃ b, r.assignment d.params = .ok b := by
    intro r
    constructor
    · rintro ⟨e, he⟩
      obtain ⟨b, hb, -⟩ := Outcome.bind_eq_ok.1 he
      exact ⟨b, hb⟩
    · rintro ⟨b, hb⟩
      exact ⟨_, Outcome.bind_eq_ok.2 ⟨b, hb, rfl⟩⟩
  simp only [← hrule, ← Outcome.exists_mapM_eq_ok_iff]
  constructor
  · rintro ⟨a, ha⟩
    obtain ⟨l, hl, -⟩ := Outcome.bind_eq_ok.1 ha
    exact ⟨l, hl⟩
  · rintro ⟨l, hl⟩
    exact ⟨_, Outcome.bind_eq_ok.2 ⟨l, hl, rfl⟩⟩

theorem exists_rule_of_mem {d : Description} {a : Adapter} (h : ofDescription d = .ok a) :
    (∀ b ∈ a.imp, ∃ r ∈ d.rules, r.resolve .impression = .ok b ∧ r.assignment d.params = .ok b) ∧
      ∀ b ∈ a.request, ∃ r ∈ d.rules, r.resolve .request = .ok b ∧
        r.assignment d.params = .ok b := by
  have hscope : ∀ s : Scope, ∀ b ∈ d.rules.filterMap (Rule.assignmentIn? s d.params),
      ∃ r ∈ d.rules, r.resolve s = .ok b ∧ r.assignment d.params = .ok b := by
    intro s b hb
    obtain ⟨r, hr, hb⟩ := List.mem_filterMap.1 hb
    obtain ⟨rfl, hrb⟩ := Rule.assignmentIn?_eq_some hb
    exact ⟨r, hr, (Rule.assignment_eq_ok hrb).1, hrb⟩
  obtain ⟨himp, hrequest⟩ := ofDescription_eq_ok h
  rw [himp, hrequest]
  exact ⟨hscope .impression, hscope .request⟩

theorem admits_of_ofDescription {d : Description} {a : Adapter} (h : ofDescription d = .ok a) :
    (∀ b ∈ a.imp, Scope.impression.Admits b) ∧ ∀ b ∈ a.request, Scope.request.Admits b := by
  obtain ⟨himp, hrequest⟩ := exists_rule_of_mem h
  constructor
  · intro b hb
    obtain ⟨r, -, hr, -⟩ := himp b hb
    exact r.admits_of_resolve hr
  · intro b hb
    obtain ⟨r, -, hr, -⟩ := hrequest b hb
    exact r.admits_of_resolve hr

theorem source_depth_of_ofDescription {d : Description} {a : Adapter}
    (h : ofDescription d = .ok a) {b : Assignment} (hb : b ∈ a.imp ++ a.request) {x : Source}
    (hx : b.value = .copy x) :
    x.path.depth ≤ maxSourceDepth ∧ (x.root = .impExt → x.path.depth = 1) := by
  obtain ⟨himp, hrequest⟩ := exists_rule_of_mem h
  rcases List.mem_append.1 hb with hb | hb
  · obtain ⟨r, -, hr, hrb⟩ := himp b hb
    exact ⟨r.source_depth hr hx, (r.assignment_eq_ok hrb).2 x hx⟩
  · obtain ⟨r, -, hr, hrb⟩ := hrequest b hb
    exact ⟨r.source_depth hr hx, (r.assignment_eq_ok hrb).2 x hx⟩

end Adapter

end AdapterForge

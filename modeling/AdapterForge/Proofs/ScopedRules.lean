import AdapterForge.Proofs.FixtureRun
import AdapterForge.Proofs.Resolution

/-!
The rules of a description by scope. A rule belongs to the impression when its target as written
starts with the marker of impressions, and to the request otherwise; each rule gives one assignment,
in the order of the rules, and a description is resolved exactly when each of its rules can be.
-/
namespace AdapterForge

/-- Whether the target of a rule as written starts with the marker of impressions. -/
def Rule.marksImp (r : Rule) : Bool := decide (impMarker.toList <+: r.target.toList)

theorem Scope.ofTarget_eq (raw : String) :
    ofTarget raw = if impMarker.toList <+: raw.toList then .impression else .request := by
  unfold ofTarget afterMarker?
  simp only [List.isPrefixOf_iff_prefix]
  split <;> rfl

theorem Rule.ofTarget_eq_impression {r : Rule} :
    Scope.ofTarget r.target = .impression ↔ r.marksImp = true := by
  rw [Scope.ofTarget_eq, marksImp, decide_eq_true_iff]
  split <;> simp [*]

theorem Rule.ofTarget_eq_request {r : Rule} :
    Scope.ofTarget r.target = .request ↔ r.marksImp = false := by
  rw [Scope.ofTarget_eq, marksImp, decide_eq_false_iff_not]
  split <;> simp [*]

structure Rule.ResolvesTo (scope : Scope) (params : List Param) (r : Rule) (a : Assignment) :
    Prop where
  raw : a.raw = r.target
  target : scope.resolveTarget r.target = .ok a.target
  value : (∃ v, r.staticValue = some v ∧ r.source = none ∧ a.value = .fixed v) ∨
    ∃ s x, r.staticValue = none ∧ r.source = some s ∧
      scope.resolveSource r.target s = .ok x ∧ x.Declared params ∧ a.value = .copy x

theorem Rule.ResolvesTo.declared {scope : Scope} {params : List Param} {r : Rule} {a : Assignment}
    (h : r.ResolvesTo scope params a) {x : Source} (hx : a.value = .copy x) : x.Declared params := by
  rcases h.value with ⟨v, -, -, hv⟩ | ⟨s, y, -, -, -, hdeclared, hvalue⟩
  · rw [hv] at hx
    cases hx
  · exact ValueSource.copy.inj (hvalue.symm.trans hx) ▸ hdeclared

/-- A rule that has either a value or a source, and paths that the scope of its target accepts. -/
structure Rule.Resolvable (params : List Param) (r : Rule) : Prop where
  one : r.staticValue.isSome ≠ r.source.isSome
  target : ∃ p, (Scope.ofTarget r.target).resolveTarget r.target = .ok p
  source : ∀ s, r.source = some s →
    ∃ x, (Scope.ofTarget r.target).resolveSource r.target s = .ok x ∧ x.Declared params

theorem Rule.assignment_eq_ok_iff {params : List Param} {r : Rule} {a : Assignment} :
    r.assignment params = .ok a ↔ r.ResolvesTo (.ofTarget r.target) params a := by
  generalize hscope : Scope.ofTarget r.target = scope
  have hassignment : r.assignment params = (r.resolve scope).bind (·.checkParam params) := by
    rw [assignment, hscope]
  rw [hassignment]
  refine Outcome.bind_eq_ok.trans ⟨?_, ?_⟩
  · rintro ⟨b, hb, hcheck⟩
    obtain ⟨rfl, hdeclared⟩ := Assignment.checkParam_eq_ok_iff.1 hcheck
    obtain ⟨hraw, hp, ⟨v, hv, hs, ha⟩ | ⟨s, x, hv, hs, hx, ha⟩⟩ := resolve_eq_ok_iff.1 hb
    · exact ⟨hraw, hp, .inl ⟨v, hv, hs, ha⟩⟩
    · exact ⟨hraw, hp, .inr ⟨s, x, hv, hs, hx, hdeclared x ha, ha⟩⟩
  · intro h
    refine ⟨a, resolve_eq_ok_iff.2 ⟨h.raw, h.target, ?_⟩,
      Assignment.checkParam_eq_ok_iff.2 ⟨rfl, fun _ => h.declared⟩⟩
    rcases h.value with hfixed | ⟨s, x, hv, hs, hx, -, ha⟩
    · exact .inl hfixed
    · exact .inr ⟨s, x, hv, hs, hx, ha⟩

theorem Rule.exists_resolvesTo_iff {params : List Param} {r : Rule} :
    (∃ a, r.ResolvesTo (.ofTarget r.target) params a) ↔ r.Resolvable params := by
  constructor
  · rintro ⟨a, -, htarget, ⟨v, hv, hs, -⟩ | ⟨s, x, hv, hs, hx, hdeclared, -⟩⟩
    · exact ⟨by simp [hv, hs], ⟨_, htarget⟩, by simp [hs]⟩
    · exact ⟨by simp [hv, hs], ⟨_, htarget⟩, by simpa [hs] using ⟨x, hx, hdeclared⟩⟩
  · rintro ⟨hone, ⟨p, hp⟩, hsource⟩
    cases hv : r.staticValue with
    | none =>
      cases hs : r.source with
      | none => simp [hv, hs] at hone
      | some s =>
        obtain ⟨x, hx, hdeclared⟩ := hsource s hs
        exact ⟨⟨r.target, p, .copy x⟩, rfl, hp, .inr ⟨s, x, hv, hs, hx, hdeclared, rfl⟩⟩
    | some v =>
      cases hs : r.source with
      | none => exact ⟨⟨r.target, p, .fixed v⟩, rfl, hp, .inl ⟨v, hv, hs, rfl⟩⟩
      | some s => simp [hv, hs] at hone

namespace Adapter

theorem forall₂_filter_scope {params : List Param} {rules : List Rule}
    {l : List (Scope × Assignment)}
    (h : List.Forall₂ (fun r e => Scope.ofTarget r.target = e.1 ∧ r.ResolvesTo e.1 params e.2)
      rules l) (s : Scope) :
    List.Forall₂ (Rule.ResolvesTo s params) (rules.filter fun r => Scope.ofTarget r.target = s)
      ((l.filter (·.1 = s)).map (·.2)) := by
  rw [List.forall₂_map_right_iff]
  induction h with
  | nil => exact .nil
  | @cons r e rules l hr _ ih =>
    obtain ⟨hscope, hresolves⟩ := hr
    rw [List.filter_cons, List.filter_cons, hscope]
    by_cases hs : e.1 = s
    · rw [if_pos (decide_eq_true hs), if_pos (decide_eq_true hs)]
      exact .cons (hs ▸ hresolves) ih
    · rw [if_neg (by simpa), if_neg (by simpa)]
      exact ih

theorem forall₂_ofDescription {d : Description} {a : Adapter} (h : ofDescription d = .ok a) :
    List.Forall₂ (Rule.ResolvesTo .impression d.params) (d.rules.filter (·.marksImp)) a.imp ∧
      List.Forall₂ (Rule.ResolvesTo .request d.params) (d.rules.filter (!·.marksImp))
        a.request := by
  obtain ⟨l, hl, h⟩ := Outcome.bind_eq_ok.1 h
  obtain rfl := Outcome.pure_eq_ok.1 h
  have hrules : List.Forall₂
      (fun r e => Scope.ofTarget r.target = e.1 ∧ r.ResolvesTo e.1 d.params e.2) d.rules l := by
    refine (Outcome.mapM_eq_ok_iff.1 hl).imp fun r e hr => ?_
    obtain ⟨b, hb, he⟩ := Outcome.bind_eq_ok.1 hr
    obtain rfl := Outcome.pure_eq_ok.1 he
    exact ⟨rfl, Rule.assignment_eq_ok_iff.1 hb⟩
  have himp : (fun r : Rule => decide (Scope.ofTarget r.target = .impression)) = (·.marksImp) := by
    funext r
    rw [Bool.eq_iff_iff, decide_eq_true_iff, Rule.ofTarget_eq_impression]
  have hrequest : (fun r : Rule => decide (Scope.ofTarget r.target = .request)) =
      (!·.marksImp) := by
    funext r
    rw [Bool.eq_iff_iff, decide_eq_true_iff, Rule.ofTarget_eq_request, Bool.not_eq_true']
  exact ⟨himp ▸ forall₂_filter_scope hrules .impression,
    hrequest ▸ forall₂_filter_scope hrules .request⟩

/-- The assignments of each scope are the rules of that scope in their order, with the paths that
the scope allows; and a description is resolved exactly when each of its rules is resolvable. -/
theorem ofDescription_respects_scopes (d : Description) :
    (∀ a, ofDescription d = .ok a →
      List.Forall₂ (Rule.ResolvesTo .impression d.params) (d.rules.filter (·.marksImp)) a.imp ∧
      List.Forall₂ (Rule.ResolvesTo .request d.params) (d.rules.filter (!·.marksImp)) a.request ∧
      (∀ b ∈ a.imp, (b.target.depth = 1 ∨ b.target.depth = 2) ∧
        ∀ x, b.value = .copy x → x.root = .imp ∨ x.root = .impExt) ∧
      (∀ b ∈ a.request, (1 ≤ b.target.depth ∧ b.target.depth ≤ 3) ∧ b.target.first ≠ "imp" ∧
        ∀ x, b.value = .copy x → x.root = .impExt ∨ x.root = .request ∧ x.path.first ≠ "imp") ∧
      ∀ b ∈ a.imp ++ a.request, ∀ x, b.value = .copy x →
        x.path.depth ≤ 3 ∧ (x.root = .impExt → ∃ p ∈ d.params, x.path = ⟨p.name, []⟩)) ∧
    ((∃ a, ofDescription d = .ok a) ↔ ∀ r ∈ d.rules, r.Resolvable d.params) := by
  refine ⟨fun a ha => ?_, ?_⟩
  · obtain ⟨himp, hrequest⟩ := forall₂_ofDescription ha
    obtain ⟨hadmits, hadmits'⟩ := admits_of_ofDescription ha
    refine ⟨himp, hrequest, fun b hb => ?_, fun b hb => ?_, fun b hb x hx => ?_⟩
    · have hdepth : b.target.depth ≤ 2 := (hadmits b hb).target_depth
      have hpos := b.target.depth_pos
      exact ⟨by omega, fun x hx => ((hadmits b hb).source_root x hx).symm⟩
    · refine ⟨⟨b.target.depth_pos, (hadmits' b hb).target_depth⟩, (hadmits' b hb).target_ne rfl, ?_⟩
      intro x hx
      exact ((hadmits' b hb).source_root x hx).imp_right fun hroot =>
        ⟨hroot, (hadmits' b hb).source_ne x hx hroot⟩
    · refine ⟨(source_depth_of_ofDescription ha hb hx).1, ?_⟩
      rcases List.mem_append.1 hb with hb | hb
      · obtain ⟨r, -, hr⟩ := Outcome.exists_of_forall₂ himp hb
        exact hr.declared hx
      · obtain ⟨r, -, hr⟩ := Outcome.exists_of_forall₂ hrequest hb
        exact hr.declared hx
  · rw [exists_ofDescription_iff]
    simp only [Rule.assignment_eq_ok_iff, Rule.exists_resolvesTo_iff]

theorem ofDescription_respects_scopes_sample :
    ∃ a, ofDescription fixtureAdapter.description = .ok a ∧ a.imp.length = 2 ∧
      List.Forall₂ (Rule.ResolvesTo .impression fixtureAdapter.params)
        (fixtureAdapter.description.rules.filter (·.marksImp)) a.imp ∧
      List.Forall₂ (Rule.ResolvesTo .request fixtureAdapter.params)
        (fixtureAdapter.description.rules.filter (!·.marksImp)) a.request := by
  have ha : ofDescription fixtureAdapter.description = .ok fixtureAdapter := rfl
  obtain ⟨himp, hrequest, -⟩ :=
    (ofDescription_respects_scopes fixtureAdapter.description).1 fixtureAdapter ha
  exact ⟨fixtureAdapter, ha, rfl, himp, hrequest⟩

end Adapter

end AdapterForge

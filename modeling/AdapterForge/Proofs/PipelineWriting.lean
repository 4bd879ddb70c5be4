import AdapterForge.Proofs.PlanWriting

/-!
What the programs and the expectation of a compiled adapter do, as writes of single assignments.
-/
namespace AdapterForge

def Json.fields? : Json → Option (Fields Json)
  | .object fields => some fields
  | _ => none

theorem Plan.assignments_of_isEmpty {p : Plan} (h : p.isEmpty = true) : p.assignments = [] := by
  rw [assignments, List.isEmpty_iff.1 h]
  rfl

/-- The plans that a compiled adapter was made from. -/
structure Compiled.Planned (c : Compiled) (p q : Plan) : Prop where
  imp : ∃ l, Plan.ofAssignments .impression l = .ok p
  request : ∃ l, Plan.ofAssignments .request l = .ok q
  impAdmits : ∀ a ∈ p.assignments, Scope.impression.Admits a
  requestAdmits : ∀ a ∈ q.assignments, Scope.request.Admits a
  made : ∃ first rest, p.overrides .firstImp = .ok first ∧ q.overrides .request = .ok rest ∧
    c = ⟨programOf p first, programOf q rest, expectationOf p first rest⟩

theorem Adapter.exists_planned {a : Adapter} {c : Compiled}
    (himp : ∀ b ∈ a.imp, Scope.impression.Admits b)
    (hrequest : ∀ b ∈ a.request, Scope.request.Admits b) (hc : a.compile = .ok c) :
    ∃ p q, Plan.ofAssignments .impression a.imp = .ok p ∧
      Plan.ofAssignments .request a.request = .ok q ∧ c.Planned p q := by
  obtain ⟨p, q, first, rest, hp, hq, hfirst, hrest, hmade⟩ := compile_eq_ok hc
  refine ⟨p, q, hp, hq, ⟨_, hp⟩, ⟨_, hq⟩, ?_, ?_, first, rest, hfirst, hrest, hmade⟩
  · exact Plan.admits_assignments hp himp
  · exact Plan.admits_assignments hq hrequest

namespace Compiled.Planned

variable {c : Compiled} {p q : Plan}

theorem toOption_runImp (h : c.Planned p q) (imp : Json) :
    (c.runImp imp).toOption =
      if p.isEmpty then some imp
      else imp.fields?.bind fun base =>
        (p.assignments.foldlM (Assignment.write? ⟨some imp, bidderExt? imp, none⟩) base).map
          Json.object := by
  obtain ⟨l, hp⟩ := h.imp
  obtain ⟨first, rest, hfirst, -, hmade⟩ := h.made
  have himp := congrArg Compiled.imp hmade
  cases he : p.isEmpty with
  | true =>
    rw [runImp_of_isEmpty himp he]
    rfl
  | false =>
    rw [runImp_of_isEmpty_eq_false himp he]
    cases imp with
    | object base => exact Plan.runImp_writes hp h.impAdmits hfirst base _
    | _ => rfl

theorem toOption_finish (h : c.Planned p q) {base builder : Fields Json}
    (hbuilder : ∀ k, k ≠ "imp" → builder.get? k = base.get? k) (exts : List (Option Json)) :
    (c.finish base builder exts).toOption =
      (q.assignments.foldlM (Assignment.write? ⟨none, exts.head?.join, some (.object base)⟩)
        builder).map Json.object := by
  obtain ⟨l, hq⟩ := h.request
  obtain ⟨first, rest, -, hrest, hmade⟩ := h.made
  have hrequest := congrArg Compiled.request hmade
  cases he : q.isEmpty with
  | true =>
    rw [finish_of_isEmpty hrequest he, Plan.assignments_of_isEmpty he]
    rfl
  | false =>
    rw [finish_of_isEmpty_eq_false hrequest he]
    exact Plan.runRequest_writes hq h.requestAdmits hrest hbuilder exts

theorem toOption_run (h : c.Planned p q) (request : Fields Json) :
    (c.run (.object request)).toOption =
      (impressions request).toOption.bind fun imps =>
        (imps.mapM c.runImp).toOption.bind fun modified =>
          (q.assignments.foldlM
            (Assignment.write? ⟨none, (imps.map bidderExt?).head?.join, some (.object request)⟩)
            (if request.contains "imp" then request.set "imp" (.array modified)
              else request)).map Json.object := by
  rw [run_object, Outcome.toOption_bind]
  congr 1
  funext imps
  rw [Outcome.toOption_bind]
  congr 1
  funext modified
  apply h.toOption_finish
  intro k hk
  split
  · rw [Fields.get?_set, if_neg hk]
  · rfl

theorem toOption_eval_rest (h : c.Planned p q) {rest : List Override}
    (hrest : q.overrides .request = .ok rest) (t : Sources) {request fields : Fields Json}
    (hfields : ∀ k, k ≠ "imp" → fields.get? k = request.get? k) :
    (evalOverrides t (.object request) rest fields).toOption =
      q.assignments.foldlM (Assignment.write? t) fields := by
  obtain ⟨l, hq⟩ := h.request
  apply Plan.toOption_evalOverrides hq hrest rfl
  intro a ha
  exact hfields _ ((h.requestAdmits a ha).target_ne rfl)

theorem toOption_eval_first (h : c.Planned p q) {first : List Override}
    (hfirst : p.overrides .firstImp = .ok first) (t : Sources) (bidRequest : Json) :
    ((ExpectedObject.mk .firstImp [] first).eval t bidRequest).toOption =
      (t.imp.bind Json.fields?).bind fun base =>
        p.assignments.foldlM (Assignment.write? t) base := by
  obtain ⟨l, hp⟩ := h.imp
  cases himp : t.imp with
  | none =>
    simp only [ExpectedObject.eval, expectedSeed, himp]
    rfl
  | some imp =>
    have hgiven : givenRoot t bidRequest .firstImp = some imp := himp
    cases imp with
    | object base =>
      rw [eval_top hgiven]
      exact Plan.toOption_evalOverrides hp hfirst hgiven fun _ _ => rfl
    | _ =>
      simp only [ExpectedObject.eval, expectedSeed_eq hgiven]
      rfl

theorem toOption_evaluate (h : c.Planned p q) (request : Fields Json) :
    let imp := firstImp? (.object request)
    let t : Sources := ⟨imp, imp.bind bidderExt?, some (.object request)⟩
    (c.expected.evaluate (.object request)).toOption =
      (if p.isEmpty then some request
        else (imp.bind Json.fields?).bind fun base =>
          (p.assignments.foldlM (Assignment.write? t) base).map fun after =>
            request.set "imp" (.array [.object after])).bind fun builder =>
        (q.assignments.foldlM (Assignment.write? t) builder).map Json.object := by
  intro imp t
  obtain ⟨first, rest, hfirst, hrest, hmade⟩ := h.made
  have hexpected := congrArg Compiled.expected hmade
  rw [hexpected, evaluate_object, Outcome.toOption_map]
  cases he : p.isEmpty with
  | true =>
    simp only [expectationOf, he, if_true, List.nil_append]
    rw [eval_top rfl, h.toOption_eval_rest hrest t fun _ _ => rfl]
    rfl
  | false =>
    simp only [expectationOf, he]
    rw [eval_top rfl]
    simp only [Bool.false_eq_true, if_false, List.singleton_append, evalOverrides]
    have hrestored : ∀ after, (evalOverrides t (.object request) rest
        (request.set "imp" (.array [.object after]))).toOption =
          q.assignments.foldlM (Assignment.write? t)
            (request.set "imp" (.array [.object after])) := by
      intro after
      apply h.toOption_eval_rest hrest t
      intro k hk
      rw [Fields.get?_set, if_neg hk]
    rw [Outcome.toOption_bind, h.toOption_eval_first hfirst]
    simp only [Option.map_bind, Option.bind_assoc, Option.bind_map, Function.comp_def]
    simp only [← hrestored]
    rfl

end Compiled.Planned

end AdapterForge

import AdapterForge.Proofs.Compilation
import AdapterForge.Proofs.ImpressionIsolation

/-!
Without a program for impressions a run leaves them as they are, but for a null, which becomes an
empty list; without any writes it leaves the whole request as it is, up to that null.
-/
namespace AdapterForge

/-- The request with an empty list in the place of null impressions. -/
def listNullImp (request : Fields Json) : Fields Json :=
  match request.get? "imp" with
  | some .null => request.set "imp" (.array [])
  | _ => request

theorem listNullImp_of_ne {request : Fields Json} (h : request.get? "imp" ≠ some .null) :
    listNullImp request = request := by
  unfold listNullImp
  split
  · next hnull => exact absurd hnull h
  · rfl

theorem listNullImp_of_null {request : Fields Json} (h : request.get? "imp" = some .null) :
    listNullImp request = request.set "imp" (.array []) := by
  simp only [listNullImp, h]

theorem builder_eq_listNullImp {request : Fields Json} {imps : List Json}
    (h : impressions request = .ok imps) :
    (if request.contains "imp" then request.set "imp" (.array imps) else request) =
      listNullImp request := by
  rw [Fields.contains_eq]
  unfold impressions at h
  unfold listNullImp
  split at h
  · next himp =>
    rw [himp]
    rfl
  · next himp =>
    cases h
    rw [himp]
    rfl
  · next imps' himp =>
    cases h
    rw [himp]
    exact Fields.set_of_get? himp
  · cases h

namespace Compiled

variable {c : Compiled} {p q : Plan} {request : Fields Json}

theorem run_of_imp_eq_none (h : c.imp = none) {imps : List Json}
    (himps : impressions request = .ok imps) :
    c.run (.object request) = c.finish request (listNullImp request) (imps.map bidderExt?) := by
  rw [run_object, himps, ← builder_eq_listNullImp himps]
  show (imps.mapM c.runImp >>= _) = _
  rw [mapM_runImp_of_imp_eq_none h]
  rfl

theorem run_of_no_programs (o : ExpectedObject) {imps : List Json}
    (himps : impressions request = .ok imps) :
    (Compiled.mk none none o).run (.object request) = .ok (.object (listNullImp request)) :=
  run_of_imp_eq_none rfl himps

theorem Planned.get?_imp_of_imp_eq_none (h : c.Planned p q) (hnone : c.imp = none) {r : Json}
    (hrun : c.run (.object request) = .ok r) : r.get? "imp" = (listNullImp request).get? "imp" := by
  obtain ⟨imps, modified, after, himps, hmodified, rfl, hafter⟩ := h.run_eq_ok hrun
  rw [mapM_runImp_of_imp_eq_none hnone] at hmodified
  cases hmodified
  rw [builder_eq_listNullImp himps] at hafter
  exact get?_foldlM_write?_of_ne (fun a ha => (h.requestAdmits a ha).target_ne rfl) hafter

end Compiled

namespace Adapter

theorem compilable_of_isNoop {l : List Assignment} (h : ∀ b ∈ l, b.isNoop = true) :
    Compilable l := by
  have hnil : Plan.writing l = [] := by
    rw [Plan.writing, List.filter_eq_nil_iff]
    intro b hb
    simp [h b hb]
  constructor <;> simp [hnil]

theorem compile_of_isNoop {a : Adapter} (h : ∀ b ∈ a.imp ++ a.request, b.isNoop = true) :
    a.compile = .ok ⟨none, none, .mk .request [] []⟩ := by
  obtain ⟨himp, hrequest⟩ := List.forall_mem_append.1 h
  obtain ⟨c, hc⟩ := a.exists_compile_iff.2
    ⟨compilable_of_isNoop himp, compilable_of_isNoop hrequest⟩
  obtain ⟨p, q, first, rest, hp, hq, -, hrest, rfl⟩ := compile_eq_ok hc
  have hpe := (Plan.isEmpty_iff hp).2 himp
  have hqe := (Plan.isEmpty_iff hq).2 hrequest
  rw [Plan.overrides_of_isEmpty hqe] at hrest
  cases hrest
  rw [hc, programOf_of_isEmpty hpe, programOf_of_isEmpty hqe, expectationOf, if_pos hpe]
  rfl

/-- Without a program for impressions a run keeps the impressions as they are given, where these are
not null; null impressions become an empty list. Without writes nothing else changes either, while
the expectation is the request as it is given. -/
theorem run_keeps_impressions {a : Adapter} {impRules requestRules : List Rule}
    (himp : impRules.mapM (Rule.resolve .impression) = .ok a.imp)
    (hrequest : requestRules.mapM (Rule.resolve .request) = .ok a.request) :
    (∀ c, a.compile = .ok c → c.imp = none → ∀ bidRequest r, c.run bidRequest = .ok r →
      (bidRequest.get? "imp" ≠ some .null → r.get? "imp" = bidRequest.get? "imp") ∧
      (bidRequest.get? "imp" = some .null → r.get? "imp" = some (.array []))) ∧
    ((∀ b ∈ a.imp ++ a.request, b.isNoop = true) → ∃ c, a.compile = .ok c ∧ c.imp = none ∧
      ∀ request : Fields Json,
        (request.get? "imp" = none ∨ (∃ imps, request.get? "imp" = some (.array imps)) →
          c.run (.object request) = .ok (.object request)) ∧
        (request.get? "imp" = some .null →
          c.run (.object request) = .ok (.object (request.set "imp" (.array [])))) ∧
        c.expected.evaluate (.object request) = .ok (.object request)) := by
  constructor
  · intro c hc hnone bidRequest r hrun
    obtain ⟨p, q, -, -, hplanned⟩ :=
      exists_planned (admits_of_resolved himp) (admits_of_resolved hrequest) hc
    obtain ⟨request, -, -, rfl, -⟩ := Compiled.run_eq_ok hrun
    have hget := hplanned.get?_imp_of_imp_eq_none hnone hrun
    constructor
    · intro hne
      rwa [listNullImp_of_ne hne] at hget
    · intro hnull
      rwa [listNullImp_of_null hnull, Fields.get?_set, if_pos rfl] at hget
  · intro hnoop
    refine ⟨_, compile_of_isNoop hnoop, rfl, fun request => ⟨?_, ?_, ?_⟩⟩
    · rintro (hget | ⟨imps, hget⟩)
      · have himps : impressions request = .ok [] := by simp only [impressions, hget]
        rw [Compiled.run_of_no_programs _ himps, listNullImp_of_ne (by simp [hget])]
      · have himps := Compiled.impressions_of_get? hget
        rw [Compiled.run_of_no_programs _ himps, listNullImp_of_ne (by simp [hget])]
    · intro hnull
      have himps : impressions request = .ok [] := by simp only [impressions, hnull]
      rw [Compiled.run_of_no_programs _ himps, listNullImp_of_null hnull]
    · rw [evaluate_object, eval_top rfl]
      rfl

def impressionless : Adapter :=
  { sampleAdapter with imp := [⟨"tagid", ⟨"tagid", []⟩, .fixed .null⟩] }

def idle : Adapter := { impressionless with request := [] }

def nullImpressions : Fields Json := .ofList [("imp", .null), ("id", .string "r")]

theorem run_keeps_impressions_sample :
    (∃ c r, impressionless.compile = .ok c ∧ c.run (.object sampleRequest) = .ok r ∧
      r.get? "imp" = sampleRequest.get? "imp") ∧
    ∃ c, idle.compile = .ok c ∧ c.run (.object sampleRequest) = .ok (.object sampleRequest) ∧
      c.run (.object nullImpressions) = .ok (.object (nullImpressions.set "imp" (.array []))) := by
  let impRules : List Rule := [⟨"tagid", some .null, none⟩]
  constructor
  · have himp : impRules.mapM (Rule.resolve .impression) = .ok impressionless.imp := rfl
    obtain ⟨hkept, -⟩ := run_keeps_impressions himp sampleRequestRules_resolve
    obtain ⟨c, hc⟩ : ∃ c, impressionless.compile = .ok c := ⟨_, rfl⟩
    have hnone : c.imp = none := by
      cases hc
      rfl
    obtain ⟨r, hr⟩ : ∃ r, c.run (.object sampleRequest) = .ok r := by
      cases hc
      exact ⟨_, rfl⟩
    obtain ⟨hne, -⟩ := hkept c hc hnone _ r hr
    exact ⟨c, r, hc, hr, hne nofun⟩
  · have himp : impRules.mapM (Rule.resolve .impression) = .ok idle.imp := rfl
    have hrequest : [].mapM (Rule.resolve .request) = .ok idle.request := rfl
    obtain ⟨-, hidle⟩ := run_keeps_impressions himp hrequest
    obtain ⟨c, hc, -, hsame⟩ := hidle (by decide)
    obtain ⟨hlisted, -⟩ := hsame sampleRequest
    obtain ⟨-, hnull, -⟩ := hsame nullImpressions
    exact ⟨c, hc, hlisted (.inr ⟨_, rfl⟩), hnull rfl⟩

/-- A null is no list that could be put back, yet a run puts one in its place. -/
theorem run_replaces_null_impressions :
    ∃ c r, ({ idle with imp := [] } : Adapter).compile = .ok c ∧ c.imp = none ∧
      c.run (.object nullImpressions) = .ok r ∧
      nullImpressions.get? "imp" = some .null ∧ r.get? "imp" = some (.array []) ∧
      r ≠ .object nullImpressions ∧
      c.expected.evaluate (.object nullImpressions) = .ok (.object nullImpressions) := by
  have hnull : nullImpressions.get? "imp" = some .null := rfl
  have himps : impressions nullImpressions = .ok [] := rfl
  have hlist : (Json.object (listNullImp nullImpressions)).get? "imp" = some (.array []) := rfl
  refine ⟨_, _, rfl, rfl, Compiled.run_of_no_programs _ himps, hnull, hlist, ?_, rfl⟩
  intro heq
  rw [heq] at hlist
  cases hlist

end Adapter

end AdapterForge

import AdapterForge.Proofs.PipelineWriting
import AdapterForge.Proofs.Resolution

/-!
Impressions are modified each on its own. The rest of a request sees of them only the bidder's
extension of the first one, as it was given.
-/
namespace AdapterForge

def AgreeOutsideImp (f g : Fields Json) : Prop := ∀ k, k ≠ "imp" → f.get? k = g.get? k

section

variable {s t : Sources} {l : List Assignment} {f g after after' : Fields Json}

theorem get?_foldlM_write?_of_ne {k : String} (hl : ∀ a ∈ l, a.target.first ≠ k)
    (h : l.foldlM (Assignment.write? s) f = some after) : after.get? k = f.get? k := by
  refine view_foldlM (·.get? k) (fun a ha f g hwrite => ?_) h
  obtain ⟨v, -, hwrite⟩ := Option.bind_eq_some_iff.1 hwrite
  exact Json.get?_write?_of_ne hwrite (hl a ha).symm

theorem AgreeOutsideImp.write? (h : AgreeOutsideImp f g) {k : String} (hk : k ≠ "imp") {raw : Bool}
    {p : List String} {v : Json} (hf : Json.write? raw f (k :: p) v = some after)
    (hg : Json.write? raw g (k :: p) v = some after') : AgreeOutsideImp after after' := by
  rw [Json.write?_eq_slot, Option.map_eq_some_iff] at hf hg
  rw [← h k hk] at hg
  obtain ⟨o, ho, rfl⟩ := hf
  obtain ⟨u, hu, rfl⟩ := hg
  obtain rfl : o = u := Option.some.inj (ho.symm.trans hu)
  intro j hj
  rw [Fields.get?_replace, Fields.get?_replace, h j hj]

theorem AgreeOutsideImp.foldlM_write? (h : AgreeOutsideImp f g)
    (hl : ∀ a ∈ l, a.target.first ≠ "imp") (hvalue : ∀ a ∈ l, a.value? s = a.value? t)
    (hf : l.foldlM (Assignment.write? s) f = some after)
    (hg : l.foldlM (Assignment.write? t) g = some after') : AgreeOutsideImp after after' := by
  induction l generalizing f g with
  | nil =>
    obtain rfl : f = after := by simpa using hf
    obtain rfl : g = after' := by simpa using hg
    exact h
  | cons a l ih =>
    rw [List.foldlM_cons, Option.bind_eq_bind, Option.bind_eq_some_iff] at hf hg
    obtain ⟨nextf, haf, hf⟩ := hf
    obtain ⟨nextg, hag, hg⟩ := hg
    obtain ⟨v, hv, haf⟩ := Option.bind_eq_some_iff.1 haf
    obtain ⟨w, hw, hag⟩ := Option.bind_eq_some_iff.1 hag
    obtain rfl : v = w := by
      rw [hvalue a (by simp), hw] at hv
      exact (Option.some.inj hv).symm
    exact ih (h.write? (hl a (by simp)) haf hag) (fun b hb => hl b (List.mem_cons_of_mem _ hb))
      (fun b hb => hvalue b (List.mem_cons_of_mem _ hb)) hf hg

theorem Assignment.value?_of_fixed {a : Assignment} {v : Written} (h : a.value = .fixed v) :
    a.value? s = a.value? t := by
  simp only [value?, operand, h]
  cases v <;> rfl

/-- A request assignment reads the same of two requests that differ in their impressions. -/
theorem AgreeOutsideImp.value? (h : AgreeOutsideImp f g) {a : Assignment}
    (ha : Scope.request.Admits a) (ext : Option Json) :
    a.value? ⟨none, ext, some (.object f)⟩ = a.value? ⟨none, ext, some (.object g)⟩ := by
  cases hv : a.value with
  | fixed v => exact Assignment.value?_of_fixed hv
  | copy x =>
    rw [Assignment.value?_of_copy hv, Assignment.value?_of_copy hv]
    rcases ha.source_root x hv with hroot | hroot
    · rw [hroot]
      rfl
    · have hfirst := h _ (ha.source_ne x hv hroot)
      rw [hroot]
      show (Json.object f).follow? x.path.segments = (Json.object g).follow? x.path.segments
      rw [FieldPath.segments, Json.follow?_cons, Json.follow?_cons, hfirst]

end

theorem head?_map_bidderExt? {request : Fields Json} {imps : List Json}
    (h : impressions request = .ok imps) :
    (imps.map bidderExt?).head?.join = (firstImp? (.object request)).bind bidderExt? := by
  have hget : (Json.object request).get? "imp" = request.get? "imp" := rfl
  unfold impressions at h
  split at h
  · next himp =>
    cases h
    simp only [firstImp?, hget, himp]
    rfl
  · next himp =>
    cases h
    simp only [firstImp?, hget, himp]
    rfl
  · next imps' himp =>
    cases h
    simp only [firstImp?, hget, himp]
    cases imps with
    | nil => rfl
    | cons imp imps => cases imp <;> rfl
  · cases h

namespace Compiled

variable {c : Compiled} {p q : Plan}

theorem run_eq_ok {bidRequest r : Json} (h : c.run bidRequest = .ok r) :
    ∃ request imps modified, bidRequest = .object request ∧ impressions request = .ok imps ∧
      imps.mapM c.runImp = .ok modified := by
  cases bidRequest with
  | object request =>
    rw [run_object, Outcome.bind_eq_ok] at h
    obtain ⟨imps, himps, h⟩ := h
    obtain ⟨modified, hmodified, -⟩ := Outcome.bind_eq_ok.1 h
    exact ⟨request, imps, modified, rfl, himps, hmodified⟩
  | _ => cases h

/-- What a request becomes is what the writes of its scope make of it, with the modified impressions
in place. -/
theorem Planned.run_eq_ok (h : c.Planned p q) {request : Fields Json} {r : Json}
    (hrun : c.run (.object request) = .ok r) :
    ∃ imps modified after, impressions request = .ok imps ∧ imps.mapM c.runImp = .ok modified ∧
      r = .object after ∧
      q.assignments.foldlM (Assignment.write?
        ⟨none, (firstImp? (.object request)).bind bidderExt?, some (.object request)⟩)
        (if request.contains "imp" then request.set "imp" (.array modified) else request) =
          some after := by
  obtain ⟨_, imps, modified, hrequest, himps, hmodified⟩ := Compiled.run_eq_ok hrun
  cases hrequest
  rw [← Outcome.toOption_eq_some, h.toOption_run, himps] at hrun
  simp only [Except.toOption, Option.bind_some, hmodified, head?_map_bidderExt? himps] at hrun
  obtain ⟨after, hafter, rfl⟩ := Option.map_eq_some_iff.1 hrun
  exact ⟨imps, modified, after, himps, hmodified, rfl, hafter⟩

end Compiled

theorem agreeOutsideImp_builder (request : Fields Json) (modified : List Json) :
    AgreeOutsideImp
      (if request.contains "imp" then request.set "imp" (.array modified) else request) request := by
  intro k hk
  split
  · rw [Fields.get?_set, if_neg hk]
  · rfl

theorem AgreeOutsideImp.symm {f g : Fields Json} (h : AgreeOutsideImp f g) :
    AgreeOutsideImp g f := fun k hk => (h k hk).symm

theorem AgreeOutsideImp.trans {f g e : Fields Json} (h : AgreeOutsideImp f g)
    (hg : AgreeOutsideImp g e) : AgreeOutsideImp f e := fun k hk => (h k hk).trans (hg k hk)

namespace Compiled.Planned

variable {c : Compiled} {p q : Plan}

theorem get?_imp_run (h : c.Planned p q) {request : Fields Json} {r : Json} {imps : List Json}
    (himp : request.get? "imp" = some (.array imps)) (hrun : c.run (.object request) = .ok r) :
    ∃ modified, r.get? "imp" = some (.array modified) ∧
      List.Forall₂ (fun imp m => c.runImp imp = .ok m) imps modified := by
  obtain ⟨_, modified, after, himps, hmodified, rfl, hafter⟩ := h.run_eq_ok hrun
  rw [impressions_of_get? himp] at himps
  cases himps
  have hcontains : request.contains "imp" = true := by rw [Fields.contains_eq, himp]; rfl
  have hget := get?_foldlM_write?_of_ne (fun a ha => (h.requestAdmits a ha).target_ne rfl) hafter
  rw [if_pos hcontains, Fields.get?_set, if_pos rfl] at hget
  exact ⟨modified, hget, Outcome.mapM_eq_ok_iff.1 hmodified⟩

theorem run_agree (h : c.Planned p q) {f g : Fields Json} {r r' : Json}
    (hfields : AgreeOutsideImp f g)
    (hext : (firstImp? (.object f)).bind bidderExt? = (firstImp? (.object g)).bind bidderExt?)
    (hf : c.run (.object f) = .ok r) (hg : c.run (.object g) = .ok r') {k : String}
    (hk : k ≠ "imp") : r.get? k = r'.get? k := by
  obtain ⟨-, modified, after, -, -, rfl, hafter⟩ := h.run_eq_ok hf
  obtain ⟨-, modified', after', -, -, rfl, hafter'⟩ := h.run_eq_ok hg
  rw [hext] at hafter
  have hbuilders := ((agreeOutsideImp_builder f modified).trans hfields).trans
    (agreeOutsideImp_builder g modified').symm
  exact hbuilders.foldlM_write? (fun a ha => (h.requestAdmits a ha).target_ne rfl)
    (fun a ha => hfields.value? (h.requestAdmits a ha) _) hafter hafter' k hk

end Compiled.Planned

namespace Adapter

/-- Every impression becomes what its own program makes of it with its own extension. What else
becomes of a request depends on the impressions only through the extension of the first one. -/
theorem run_isolates_impressions {d : Description} {a : Adapter} {c : Compiled}
    (ha : ofDescription d = .ok a) (hc : a.compile = .ok c) :
    (∀ bidRequest imps r, bidRequest.get? "imp" = some (.array imps) → c.run bidRequest = .ok r →
      ∃ modified, r.get? "imp" = some (.array modified) ∧ modified.length = imps.length ∧
        ∀ (i : Nat) imp, imps[i]? = some imp → ∃ m, modified[i]? = some m ∧
          (∀ p, c.imp = some p → p.runImp imp (bidderExt? imp) = .ok m) ∧
          (c.imp = none → m = imp)) ∧
    ∀ bidRequest bidRequest' r r',
      (∀ k, k ≠ "imp" → bidRequest.get? k = bidRequest'.get? k) →
      (firstImp? bidRequest).bind bidderExt? = (firstImp? bidRequest').bind bidderExt? →
      c.run bidRequest = .ok r → c.run bidRequest' = .ok r' →
        ∀ k, k ≠ "imp" → r.get? k = r'.get? k := by
  obtain ⟨himps, hrequest⟩ := admits_of_ofDescription ha
  obtain ⟨p, q, -, -, hplanned⟩ := exists_planned himps hrequest hc
  constructor
  · intro bidRequest imps r himp hrun
    obtain ⟨request, -, -, rfl, -⟩ := Compiled.run_eq_ok hrun
    obtain ⟨modified, hget, hmodified⟩ := hplanned.get?_imp_run himp hrun
    refine ⟨modified, hget, hmodified.length_eq.symm, ?_⟩
    intro i imp hi
    obtain ⟨hlt, rfl⟩ := List.getElem?_eq_some_iff.1 hi
    have hlt' : i < modified.length := hmodified.length_eq ▸ hlt
    have hrunImp : c.runImp imps[i] = .ok modified[i] := hmodified.get hlt hlt'
    refine ⟨modified[i], List.getElem?_eq_getElem hlt', ?_, ?_⟩
    · intro p hp
      simpa only [Compiled.runImp, hp] using hrunImp
    · intro hnone
      simp only [Compiled.runImp, hnone] at hrunImp
      exact (Except.ok.inj hrunImp).symm
  · intro bidRequest bidRequest' r r' hfields hext hrun hrun' k hk
    obtain ⟨f, -, -, rfl, -⟩ := Compiled.run_eq_ok hrun
    obtain ⟨g, -, -, rfl, -⟩ := Compiled.run_eq_ok hrun'
    exact hplanned.run_agree hfields hext hrun hrun' hk

/-- The publisher is read from the extension, which the impressions lose. -/
def isolationDescription : Description :=
  { sampleAdapter.description with
    rules := [⟨"imp.ext.bidder", some (.string "gone"), none⟩,
      ⟨"site.publisher.id", none, some "impExt.placement"⟩] }

def isolationRequest (second : Json) : Json :=
  .object (sampleRequest.set "imp" (.array [.object sampleImp, second]))

theorem run_isolates_impressions_sample :
    ∃ a c r r', ofDescription isolationDescription = .ok a ∧ a.compile = .ok c ∧
      c.run (isolationRequest (.object .empty)) = .ok r ∧
      c.run (isolationRequest (.object sampleImp)) = .ok r' ∧
      (∃ modified, r.get? "imp" = some (.array modified) ∧ modified.length = 2) ∧
      r.get? "site" = r'.get? "site" := by
  have hsome : ((ofDescription isolationDescription).toOption.bind fun a =>
      a.compile.toOption.bind fun c =>
        (c.run (isolationRequest (.object .empty))).toOption.bind fun _ =>
          (c.run (isolationRequest (.object sampleImp))).toOption).isSome = true := by
    decide +kernel
  obtain ⟨r', hsome⟩ := Option.isSome_iff_exists.1 hsome
  obtain ⟨a, ha, hsome⟩ := Option.bind_eq_some_iff.1 hsome
  obtain ⟨c, hc, hsome⟩ := Option.bind_eq_some_iff.1 hsome
  obtain ⟨r, hr, hr'⟩ := Option.bind_eq_some_iff.1 hsome
  rw [Outcome.toOption_eq_some] at ha hc hr hr'
  obtain ⟨himps, hrest⟩ := run_isolates_impressions ha hc
  obtain ⟨modified, hget, hlength, -⟩ := himps _ _ r rfl hr
  have hfields : ∀ k, k ≠ "imp" → (isolationRequest (.object .empty)).get? k =
      (isolationRequest (.object sampleImp)).get? k := by
    intro k hk
    simp only [isolationRequest, Json.get?, Fields.get?_set, if_neg hk]
  exact ⟨a, c, r, r', ha, hc, hr, hr', ⟨modified, hget, hlength⟩,
    hrest _ _ r r' hfields rfl hr hr' "site" (by decide)⟩

end Adapter

end AdapterForge

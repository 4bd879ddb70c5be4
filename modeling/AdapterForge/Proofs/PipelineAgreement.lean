import AdapterForge.Proofs.Planning
import AdapterForge.Proofs.RunAgreement

/-!
The programs of an adapter make of a request what the adapter expects, and they fail on a request
when its evaluation fails.
-/
namespace AdapterForge

theorem Assignment.value_of_operand {a : Assignment} {s : Source} (h : a.operand = .ok (.field s)) :
    a.value = .copy s := by
  unfold operand at h
  split at h <;> cases h
  assumption

theorem Assignment.readsExt_of_copy {a : Assignment} {s : Source} (h : a.value = .copy s)
    (hs : s.root = .impExt) : a.readsExt = true := by
  simp [readsExt, source?, h, hs]

theorem Sources.eval_congr {s t : Sources} {x : Operand}
    (h : ∀ f, x = .field f → s.root? f.root = t.root? f.root) : s.eval x = t.eval x := by
  cases x with
  | literal l => rfl
  | field f => simp only [eval, read, h f rfl]

namespace Plan

variable {p : Plan} {root : ExpectedRoot} {os : List Override}

theorem overrides_operand (h : p.overrides root = .ok os) {c : Builder} {k : String} {x : Operand}
    (hx : .assign c k x ∈ statementsOf .root os) : ∃ a ∈ p.assignments, a.operand = .ok x := by
  obtain ⟨parts, hparts, h⟩ := Outcome.bind_eq_ok.1 h
  obtain rfl := Outcome.pure_eq_ok.1 h
  rw [statementsOf_flatten, List.mem_flatten] at hx
  obtain ⟨_, hmap, hx⟩ := hx
  obtain ⟨part, hpart, rfl⟩ := List.mem_map.1 hmap
  obtain ⟨g, hg, hmade⟩ := Outcome.exists_of_mem_mapM hparts hpart
  obtain ⟨a, ha, hax⟩ := overridesOf_operand (stepsTo_nil ▸ hmade) hx
  exact ⟨a, List.mem_flatMap.2 ⟨g, hg, ha⟩, hax⟩

/-- Started with the sources that its copies read, a program does what its overrides do. -/
theorem run_agrees (hos : p.overrides root = .ok os) {s : Setting} {t : Sources} {bidRequest : Json}
    (hgiven : givenRoot t bidRequest root = some (.object s.base)) {m : Machine} {fields : Fields Json}
    (hm : m.Holds fields .root)
    (hread : ∀ a ∈ p.assignments, ∀ x, a.value = .copy x → m.sources.root? x.root = t.root? x.root) :
    ((s.run m (statementsOf .root os)).map fun m => Json.object m.root).mapError (·.fault) =
      ((evalOverrides t bidRequest os fields).map Json.object).mapError (·.fault) := by
  have heval : ∀ c k x, .assign c k x ∈ statementsOf .root os → m.sources.eval x = t.eval x := by
    intro c k x hx
    obtain ⟨a, ha, hax⟩ := overrides_operand hos hx
    apply Sources.eval_congr
    rintro f rfl
    exact hread a ha f (Assignment.value_of_operand hax)
  have hrun := run_statementsOf hgiven (overrides_placed hos) rfl hm heval
  refine (Outcome.mapError_map_congr (fun m : Machine => Json.object m.root) hrun).trans ?_
  rw [Outcome.map_map]
  rfl

theorem runImp_agrees (hscope : p.scope = .impression) (hos : p.overrides .firstImp = .ok os)
    (hadmits : ∀ a ∈ p.assignments, Scope.impression.Admits a) (imp : Fields Json)
    (ext request : Option Json) (bidRequest : Json) :
    ((Program.mk p.scope (p.located ++ statementsOf .root os)).runImp (.object imp) ext).mapError
        (·.fault) =
      ((evalOverrides ⟨some (.object imp), ext, request⟩ bidRequest os imp).map
        Json.object).mapError (·.fault) := by
  have hlocated : p.located = [] := by simp [located, hscope]
  rw [hlocated, List.nil_append, Program.runImp_object]
  refine run_agrees hos rfl ⟨rfl, rfl⟩ fun a ha x hx => ?_
  obtain hroot | hroot := (hadmits a ha).source_root x hx
  · rw [hroot]
    rfl
  · rw [hroot]
    rfl

/-- A program that reads the extension starts with finding it. -/
theorem run_located (hscope : p.scope = .request) {s : Setting} {ext : Option Json}
    (hexts : p.readsExt = true → s.exts.head? = some ext) (m : Machine) (l : List Statement) :
    ∃ e, (p.readsExt = true → e = ext) ∧
      s.run { m with sources.impExt := none } (p.located ++ l) =
        s.run { m with sources.impExt := e } l := by
  obtain ⟨scope, base, exts⟩ := s
  cases hreads : p.readsExt with
  | true =>
    obtain ⟨r, rfl⟩ := List.head?_eq_some_iff.1 (hexts hreads)
    exact ⟨ext, fun _ => rfl, by simp only [located, hscope, hreads]; rfl⟩
  | false => exact ⟨none, by simp, by simp [located, hreads]⟩

theorem runRequest_agrees (hscope : p.scope = .request) (hos : p.overrides .request = .ok os)
    (hadmits : ∀ a ∈ p.assignments, Scope.request.Admits a) (base builder : Fields Json)
    (imp ext : Option Json) {exts : List (Option Json)}
    (hexts : p.readsExt = true → exts.head? = some ext) :
    ((Program.mk p.scope (p.located ++ statementsOf .root os)).runRequest (.object base)
        (.object builder) exts).mapError (·.fault) =
      ((evalOverrides ⟨imp, ext, some (.object base)⟩ (.object base) os builder).map
        Json.object).mapError (·.fault) := by
  let s : Setting := ⟨p.scope, base, exts⟩
  obtain ⟨e, he, hstart⟩ := run_located hscope (s := s) hexts
    ⟨builder, [], ⟨none, none, some (.object base)⟩⟩ (statementsOf .root os)
  rw [Program.runRequest_object, hstart]
  refine run_agrees hos rfl ⟨rfl, rfl⟩ fun a ha x hx => ?_
  obtain hroot | hroot := (hadmits a ha).source_root x hx
  · have hreads : p.readsExt = true := List.any_eq_true.2 ⟨a, ha, Assignment.readsExt_of_copy hx hroot⟩
    rw [hroot, he hreads]
    rfl
  · rw [hroot]
    rfl

end Plan

/-- The program of a scope with assignments, and nothing for one without. -/
def programOf (p : Plan) (os : List Override) : Option Program :=
  if p.isEmpty then none else some ⟨p.scope, p.located ++ statementsOf .root os⟩

theorem programOf_of_isEmpty {p : Plan} (h : p.isEmpty = true) (os : List Override) :
    programOf p os = none := if_pos h

theorem Plan.program?_of_overrides {p : Plan} {root : ExpectedRoot} {os : List Override}
    (h : p.overrides root = .ok os) : p.program? = .ok (programOf p os) := by
  rw [program?, programOf, program_of_overrides h]
  split <;> rfl

theorem Adapter.compile_eq_ok {a : Adapter} {c : Compiled} (h : a.compile = .ok c) :
    ∃ imp request first rest, Plan.ofAssignments .impression a.imp = .ok imp ∧
      Plan.ofAssignments .request a.request = .ok request ∧
      imp.overrides .firstImp = .ok first ∧ request.overrides .request = .ok rest ∧
      c = ⟨programOf imp first, programOf request rest, expectationOf imp first rest⟩ := by
  obtain ⟨imp, himp, h⟩ := Outcome.bind_eq_ok.1 h
  obtain ⟨request, hrequest, h⟩ := Outcome.bind_eq_ok.1 h
  obtain ⟨o, ho, h⟩ := Outcome.bind_eq_ok.1 h
  obtain ⟨first, rest, hfirst, hrest, rfl⟩ := expectedRequest_eq_ok ho
  rw [Plan.program?_of_overrides hfirst, Plan.program?_of_overrides hrest] at h
  exact ⟨imp, request, first, rest, himp, hrequest, hfirst, hrest, (Outcome.pure_eq_ok.1 h).symm⟩

theorem eval_top {t : Sources} {bidRequest : Json} {root : ExpectedRoot} {fields : Fields Json}
    (h : givenRoot t bidRequest root = some (.object fields)) (os : List Override) :
    (ExpectedObject.mk root [] os).eval t bidRequest = evalOverrides t bidRequest os fields := by
  rw [ExpectedObject.eval, expectedSeed_eq h]
  rfl

theorem evaluate_object (o : ExpectedObject) (request : Fields Json) :
    o.evaluate (.object request) =
      (o.eval ⟨firstImp? (.object request), (firstImp? (.object request)).bind bidderExt?,
        some (.object request)⟩ (.object request)).map Json.object :=
  Outcome.bind_pure_eq _ _

namespace Compiled

variable {c : Compiled} {p : Plan} {os : List Override}

theorem runImp_of_imp_eq_none (h : c.imp = none) (imp : Json) : c.runImp imp = .ok imp := by
  simp only [runImp, h]

theorem runImp_of_isEmpty (hc : c.imp = programOf p os) (he : p.isEmpty = true) (imp : Json) :
    c.runImp imp = .ok imp :=
  runImp_of_imp_eq_none (hc.trans (programOf_of_isEmpty he os)) imp

theorem runImp_of_isEmpty_eq_false (hc : c.imp = programOf p os) (he : p.isEmpty = false)
    (imp : Json) :
    c.runImp imp =
      (Program.mk p.scope (p.located ++ statementsOf .root os)).runImp imp (bidderExt? imp) := by
  simp only [runImp, hc, programOf, he]
  rfl

def finish (c : Compiled) (request builder : Fields Json) (exts : List (Option Json)) :
    Except RunError Json :=
  match c.request with
  | some p => p.runRequest (.object request) (.object builder) exts
  | none => .ok (.object builder)

theorem run_object (c : Compiled) (request : Fields Json) :
    c.run (.object request) =
      impressions request >>= fun imps => imps.mapM c.runImp >>= fun modified =>
        c.finish request
          (if request.contains "imp" then request.set "imp" (.array modified) else request)
          (imps.map bidderExt?) := rfl

theorem finish_of_isEmpty (hc : c.request = programOf p os) (he : p.isEmpty = true)
    (request builder : Fields Json) (exts : List (Option Json)) :
    c.finish request builder exts = .ok (.object builder) := by
  simp only [finish, hc, programOf, he, if_true]

theorem finish_of_isEmpty_eq_false (hc : c.request = programOf p os) (he : p.isEmpty = false)
    (request builder : Fields Json) (exts : List (Option Json)) :
    c.finish request builder exts =
      (Program.mk p.scope (p.located ++ statementsOf .root os)).runRequest (.object request)
        (.object builder) exts := by
  simp only [finish, hc, programOf, he]
  rfl

theorem finish_agrees
    (hc : c.request = programOf p os) (hscope : p.scope = .request)
    (hos : p.overrides .request = .ok os) (hadmits : ∀ a ∈ p.assignments, Scope.request.Admits a)
    (base builder : Fields Json) (imp ext : Option Json) (exts : List (Option Json)) :
    (c.finish base builder (ext :: exts)).mapError (·.fault) =
      ((evalOverrides ⟨imp, ext, some (.object base)⟩ (.object base) os builder).map
        Json.object).mapError (·.fault) := by
  cases he : p.isEmpty with
  | true =>
    rw [Plan.overrides_of_isEmpty he] at hos
    cases hos
    rw [finish_of_isEmpty hc he, evalOverrides]
    rfl
  | false =>
    rw [finish_of_isEmpty_eq_false hc he]
    exact Plan.runRequest_agrees hscope hos hadmits base builder imp ext fun _ => rfl

theorem firstImp?_bind {request : Fields Json} {imp : Json} {imps : List Json}
    (h : request.get? "imp" = some (.array (imp :: imps))) :
    (firstImp? (.object request)).bind bidderExt? = bidderExt? imp := by
  have hi : (Json.object request).get? "imp" = some (.array (imp :: imps)) := h
  simp only [firstImp?, hi]
  cases imp <;> rfl

theorem impressions_of_get? {request : Fields Json} {imps : List Json}
    (h : request.get? "imp" = some (.array imps)) : impressions request = .ok imps := by
  simp only [impressions, h]

theorem run_of_get? (c : Compiled) {request : Fields Json} {imps : List Json}
    (h : request.get? "imp" = some (.array imps)) :
    c.run (.object request) = imps.mapM c.runImp >>= fun modified =>
      c.finish request (request.set "imp" (.array modified)) (imps.map bidderExt?) := by
  have hcontains : request.contains "imp" = true := by rw [Fields.contains_eq, h]; rfl
  simp only [run_object, impressions_of_get? h, hcontains, if_true]
  rfl

theorem mapM_runImp_of_imp_eq_none (h : c.imp = none) (imps : List Json) :
    imps.mapM c.runImp = .ok imps := by
  have hrun : c.runImp = Except.ok := funext (runImp_of_imp_eq_none h)
  rw [hrun]
  induction imps with
  | nil => rfl
  | cons imp imps ih =>
    rw [List.mapM_cons, ih]
    rfl

theorem run_agrees_of_isEmpty {q : Plan} {first rest : List Override}
    (hc : c = ⟨programOf p first, programOf q rest, expectationOf p first rest⟩)
    (he : p.isEmpty = true) (hscope : q.scope = .request) (hrest : q.overrides .request = .ok rest)
    (hadmits : ∀ a ∈ q.assignments, Scope.request.Admits a) {request : Fields Json} {imp : Json}
    {imps : List Json} (h : request.get? "imp" = some (.array (imp :: imps))) :
    (c.run (.object request)).mapError (·.fault) =
      (c.expected.evaluate (.object request)).mapError (·.fault) := by
  have hexpected : c.expected = .mk .request [] rest := by
    simp only [hc, expectationOf, he, if_true, List.nil_append]
  have himp : c.imp = none := (congrArg Compiled.imp hc).trans (programOf_of_isEmpty he first)
  rw [run_of_get? c h, mapM_runImp_of_imp_eq_none himp, hexpected, evaluate_object,
    eval_top rfl, firstImp?_bind h]
  have hset : request.set "imp" (.array (imp :: imps)) = request := Fields.set_of_get? h
  have hfinish := finish_agrees (congrArg Compiled.request hc) hscope hrest hadmits request
    (request.set "imp" (.array (imp :: imps))) (firstImp? (.object request)) (bidderExt? imp)
    (imps.map bidderExt?)
  rw [hset] at hfinish
  exact (congrArg _ (congrArg (c.finish request · _) hset)).trans hfinish

theorem run_agrees_of_single {q : Plan} {first rest : List Override}
    (hc : c = ⟨programOf p first, programOf q rest, expectationOf p first rest⟩)
    (hne : p.isEmpty = false) (hpscope : p.scope = .impression) (hqscope : q.scope = .request)
    (hfirst : p.overrides .firstImp = .ok first) (hrest : q.overrides .request = .ok rest)
    (hp : ∀ a ∈ p.assignments, Scope.impression.Admits a)
    (hq : ∀ a ∈ q.assignments, Scope.request.Admits a) {request imp : Fields Json}
    (h : request.get? "imp" = some (.array [.object imp])) :
    (c.run (.object request)).mapError (·.fault) =
      (c.expected.evaluate (.object request)).mapError (·.fault) := by
  have himp : firstImp? (.object request) = some (.object imp) := by
    have hi : (Json.object request).get? "imp" = some (.array [.object imp]) := h
    simp only [firstImp?, hi]
    rfl
  let ext := bidderExt? (.object imp)
  let t : Sources := ⟨some (.object imp), ext, some (.object request)⟩
  have hgiven : givenRoot t (.object request) .firstImp = some (.object imp) := rfl
  have hexpected : c.expected.evaluate (.object request) =
      evalOverrides t (.object request) first imp >>= fun o =>
        (evalOverrides t (.object request) rest
          (request.set "imp" (.array [.object o]))).map Json.object := by
    rw [evaluate_object, hc, himp, Option.bind_some]
    simp only [expectationOf, hne]
    rw [eval_top rfl]
    simp only [Bool.false_eq_true, if_false, List.singleton_append, evalOverrides]
    rw [eval_top hgiven]
    exact Outcome.map_bind Json.object (evalOverrides t (.object request) first imp) _
  have hrun : c.run (.object request) = c.runImp (.object imp) >>= fun o =>
      c.finish request (request.set "imp" (.array [o])) [ext] := by
    rw [run_of_get? c h, List.mapM_cons, List.mapM_nil]
    cases c.runImp (.object imp) <;> rfl
  have hrunImp : (c.runImp (.object imp)).mapError (·.fault) =
      ((evalOverrides t (.object request) first imp).map Json.object).mapError (·.fault) := by
    rw [runImp_of_isEmpty_eq_false (congrArg Compiled.imp hc) hne]
    exact Plan.runImp_agrees hpscope hfirst hp imp ext _ _
  rw [hrun, hexpected]
  apply Outcome.mapError_bind_map_congr hrunImp
  intro o
  exact finish_agrees (congrArg Compiled.request hc) hqscope hrest hq request _ _ _ []

end Compiled

theorem Adapter.run_meets_expectation {a : Adapter} {impRules requestRules : List Rule}
    (himp : impRules.mapM (Rule.resolve .impression) = .ok a.imp)
    (hrequest : requestRules.mapM (Rule.resolve .request) = .ok a.request) {c : Compiled}
    (hc : a.compile = .ok c) {request : Fields Json}
    (h : (∃ imp, request.get? "imp" = some (.array [.object imp])) ∨
      (∀ r ∈ impRules, r.staticValue = some .null) ∧
        ∃ imp imps, request.get? "imp" = some (.array (imp :: imps))) :
    (c.run (.object request)).mapError (·.fault) =
      (c.expected.evaluate (.object request)).mapError (·.fault) := by
  obtain ⟨p, q, first, rest, hp, hq, hfirst, hrest, hcompiled⟩ := compile_eq_ok hc
  have hpscope := Plan.scope_of_ofAssignments hp
  have hqscope := Plan.scope_of_ofAssignments hq
  have hpadmits := Plan.admits_assignments hp (admits_of_resolved himp)
  have hqadmits := Plan.admits_assignments hq (admits_of_resolved hrequest)
  rcases h with ⟨imp, hone⟩ | ⟨hnull, imp, imps, hmany⟩
  · cases he : p.isEmpty with
    | true => exact Compiled.run_agrees_of_isEmpty hcompiled he hqscope hrest hqadmits hone
    | false =>
      exact Compiled.run_agrees_of_single hcompiled he hpscope hqscope hfirst hrest hpadmits
        hqadmits hone
  · have he : p.isEmpty = true := by
      rw [Plan.isEmpty_iff hp]
      intro b hb
      obtain ⟨r, hr, hrb⟩ := Outcome.exists_of_mem_mapM himp hb
      exact r.isNoop_of_resolve hrb (hnull r hr)
    exact Compiled.run_agrees_of_isEmpty hcompiled he hqscope hrest hqadmits hmany

def sampleImpRules : List Rule :=
  [⟨"imp.banner.w", some (.number (.ofNat 300)), none⟩,
    ⟨"imp.ext.data", none, some "impExt.placement"⟩, ⟨"tagid", some .null, none⟩]

def sampleRequestRules : List Rule :=
  [⟨"site.publisher.id", none, some "impExt.publisher"⟩, ⟨"site.page", none, some "site.ref"⟩]

/-- An adapter that copies the params of its bidder. -/
def sampleAdapter : Adapter where
  description := ⟨"sample", .singleRequest, ⟨"https://sample.test", none⟩, .none, .none,
    [⟨"placement", .string⟩, ⟨"publisher", .string⟩], sampleImpRules ++ sampleRequestRules⟩
  imp := [⟨"imp.banner.w", ⟨"banner", ["w"]⟩, .fixed (.number (.ofNat 300))⟩,
    ⟨"imp.ext.data", ⟨"ext", ["data"]⟩, .copy ⟨.impExt, ⟨"placement", []⟩⟩⟩,
    ⟨"tagid", ⟨"tagid", []⟩, .fixed .null⟩]
  request := [⟨"site.publisher.id", ⟨"site", ["publisher", "id"]⟩,
      .copy ⟨.impExt, ⟨"publisher", []⟩⟩⟩,
    ⟨"site.page", ⟨"site", ["page"]⟩, .copy ⟨.request, ⟨"site", ["ref"]⟩⟩⟩]

theorem sampleImpRules_resolve :
    sampleImpRules.mapM (Rule.resolve .impression) = .ok sampleAdapter.imp := rfl

theorem sampleRequestRules_resolve :
    sampleRequestRules.mapM (Rule.resolve .request) = .ok sampleAdapter.request := rfl

theorem exists_compile_sampleAdapter : ∃ c, sampleAdapter.compile = .ok c := ⟨_, rfl⟩

def sampleImp : Fields Json :=
  .ofList [("ext", .object (.ofList [("bidder", .object (.ofList [("placement", .string "p")]))]))]

def sampleRequest : Fields Json :=
  .ofList [("imp", .array [.object sampleImp]), ("site", .object (.ofList [("ref", .string "r")]))]

theorem Adapter.run_meets_expectation_sample :
    ∃ c, sampleAdapter.compile = .ok c ∧
      (c.run (.object sampleRequest)).mapError (·.fault) =
        (c.expected.evaluate (.object sampleRequest)).mapError (·.fault) := by
  obtain ⟨c, hc⟩ := exists_compile_sampleAdapter
  have himp : sampleRequest.get? "imp" = some (.array [.object sampleImp]) := rfl
  exact ⟨c, hc, Adapter.run_meets_expectation sampleImpRules_resolve sampleRequestRules_resolve hc
    (.inl ⟨_, himp⟩)⟩

end AdapterForge

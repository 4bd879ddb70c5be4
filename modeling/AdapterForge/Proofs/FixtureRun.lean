import AdapterForge.Proofs.Idempotence
import AdapterForge.Proofs.PipelineWriting
import AdapterForge.Proofs.Resolution
import AdapterForge.Proofs.Sampling

/-!
Programs on the request of their own fixture. Everything that is copied is found there, except below
fields of the impression's extension that are not the bidder's.
-/
namespace AdapterForge

theorem throughExt_iff {names : List String} : throughExt names = true ↔ "ext" ∈ names := by
  induction names using List.reverseRecOn with
  | nil => simp [throughExt, ObjectKind.along]
  | append_singleton names k ih =>
    rw [throughExt_append, Bool.or_eq_true, ih]
    simp [eq_comm]

theorem ObjectKind.isJson_ofPath {p : FieldPath} :
    (ofPath p).isJson = true ↔ "ext" ∈ p.segments := by
  obtain ⟨names, k, hp⟩ := (List.eq_nil_or_concat p.segments).resolve_left p.segments_ne_nil
  rw [ofPath, hp, List.concat_eq_append, along_append, ← throughExt_iff, throughExt_append,
    ← isJson_ofField]
  rfl

theorem Assignment.exists_value? {b : Assignment} {s : Sources}
    (hoperand : ∃ x, b.operand = .ok x)
    (hcopy : ∀ x, b.value = .copy x →
      ∃ v, (s.root? x.root).bind (·.follow? x.path.segments) = some v) :
    ∃ v, b.value? s = some v := by
  obtain ⟨x, hx⟩ := hoperand
  cases x with
  | literal l =>
    rw [value?_of_operand hx]
    exact ⟨_, rfl⟩
  | field x =>
    have hvalue := value_of_operand hx
    rw [value?_of_copy hvalue]
    exact hcopy x hvalue

/-- No plain value is in the place of a model object that is rebuilt. -/
def NoneRebuilt (plain : List FieldPath) (l : List Assignment) : Prop :=
  ∀ p ∈ plain, ∀ b ∈ Plan.writing l, p.StrictlyAbove b.target → (ObjectKind.ofPath p).isJson = true

instance (plain : List FieldPath) (l : List Assignment) : Decidable (NoneRebuilt plain l) :=
  inferInstanceAs (Decidable (∀ p ∈ plain, ∀ b ∈ Plan.writing l, _ → _))

/-- No object that an adapter rebuilds as a model object is a plain value in its fixture: neither a
sample nor the id of the impression. -/
structure Adapter.RebuildsNoSample (a : Adapter) : Prop where
  imp : NoneRebuilt (innermost (⟨"id", []⟩ :: a.impPaths)) a.imp
  request : NoneRebuilt (innermost a.requestPaths) a.request

/-- Whether a source leads through a field of the impression's extension other than the bidder's. -/
def Source.PassesForeignExt (x : Source) : Prop :=
  x.root = .imp ∧ x.path.first = "ext" ∧ 2 < x.path.depth ∧ x.path.segment? 1 ≠ some "bidder"

instance (x : Source) : Decidable x.PassesForeignExt := inferInstanceAs (Decidable (_ ∧ _))

section

variable {plain paths : List FieldPath} {l : List Assignment} {b : Assignment} {q : List String}

theorem not_sampled_above (h : NoneRebuilt plain l) (hb : b ∈ Plan.writing l)
    (hq : q <+: b.target.segments) (hne : q ≠ b.target.segments) (hext : "ext" ∉ q) :
    ∀ p ∈ plain, ¬ p.segments <+: q := by
  intro p hp hpq
  have habove : p.StrictlyAbove b.target := by
    refine ⟨hpq.trans hq, ?_⟩
    rintro rfl
    exact hne (hq.eq_of_length_le hpq.length_le)
  exact hext (hpq.subset (ObjectKind.isJson_ofPath.1 (h p hp b hb habove)))

theorem innermost_subset_cons (k : String) :
    ∀ p ∈ innermost paths, p ∈ innermost (⟨k, []⟩ :: paths) := by
  intro p hp
  obtain ⟨hp, hmost⟩ := mem_innermost_iff.1 hp
  refine mem_innermost_iff.2 ⟨List.mem_cons_of_mem _ hp, ?_⟩
  intro q hq hpq
  rcases List.mem_cons.1 hq with rfl | hq
  · exact FieldPath.segments_inj.1 (hpq.eq_of_length_le p.depth_pos)
  · exact hmost q hq hpq

theorem head_mem_innermost {k : String} (h : ∀ p ∈ paths, ¬ [k] <+: p.segments) :
    ⟨k, []⟩ ∈ innermost (⟨k, []⟩ :: paths) := by
  refine mem_innermost_iff.2 ⟨by simp, ?_⟩
  intro p hp hk
  rcases List.mem_cons.1 hp with rfl | hp
  · rfl
  · exact absurd hk (h p hp)

end

namespace Adapter

variable {a : Adapter}

theorem mem_sources_iff {x : Source} :
    x ∈ a.sources ↔ ∃ b ∈ a.imp ++ a.request, b.value = .copy x := by
  simp only [sources, List.mem_filterMap]
  refine exists_congr fun b => and_congr_right fun _ => ?_
  unfold Assignment.source?
  cases b.value <;> simp

theorem mem_impPaths_iff {p : FieldPath} :
    p ∈ a.impPaths ↔ ∃ x ∈ a.sources, x.root = .imp ∧ x.path.first ≠ "ext" ∧ x.path = p := by
  simp only [impPaths, List.mem_eraseDups, List.mem_map, List.mem_filter, decide_eq_true_eq, and_assoc]

theorem mem_requestPaths_iff {p : FieldPath} :
    p ∈ a.requestPaths ↔ ∃ x ∈ a.sources, x.root = .request ∧ x.path = p := by
  simp only [requestPaths, List.mem_eraseDups, List.mem_map, List.mem_filter, decide_eq_true_eq,
    and_assoc]

theorem first_ne_of_mem_requestPaths (himp : ∀ b ∈ a.imp, Scope.impression.Admits b)
    (hrequest : ∀ b ∈ a.request, Scope.request.Admits b) {p : FieldPath}
    (hp : p ∈ a.requestPaths) : p.first ≠ "imp" := by
  obtain ⟨x, hx, hroot, rfl⟩ := mem_requestPaths_iff.1 hp
  obtain ⟨b, hb, hcopy⟩ := mem_sources_iff.1 hx
  rcases List.mem_append.1 hb with hb | hb
  · rcases (himp b hb).source_root x hcopy with h | h <;> rw [hroot] at h <;> cases h
  · exact (hrequest b hb).source_ne x hcopy hroot

def sampledImp (a : Adapter) : Fields Json :=
  (sampleFields 1 a.impPaths).foldl SampleField.setIn
    (Fields.empty.set "id" (.string Fixture.impId))

def fixtureImp (a : Adapter) : Fields Json :=
  a.sampledImp.set "ext" (.object (Fields.empty.set "bidder" a.fixture.bidderExt))

def fixtureRequest (a : Adapter) : Fields Json :=
  a.fixture.requestFields.foldl SampleField.setIn
    (Fields.empty.set "imp" (.array [.object a.fixtureImp]))

theorem fixture_bidRequest (a : Adapter) : a.fixture.bidRequest = .object a.fixtureRequest := rfl

theorem follow?_fixtureImp_ext (a : Adapter) (r : List String) :
    (Json.object a.fixtureImp).follow? ("ext" :: r) =
      (Json.object (Fields.empty.set "bidder" a.fixture.bidderExt)).follow? r := by
  rw [Json.follow?_cons, fixtureImp, Fields.get?_set, if_pos rfl]
  rfl

theorem exists_follow?_bidder (a : Adapter) (k : String) :
    ∃ v, (Json.object a.fixtureImp).follow? ["ext", "bidder", k] = some v := by
  rw [follow?_fixtureImp_ext, Json.follow?_cons, Fields.get?_set, if_pos rfl]
  exact ⟨_, rfl⟩

theorem dig?_fixtureImp {p : FieldPath} (h : p.first ≠ "ext") :
    (Json.object a.fixtureImp).dig? p.segments = (Json.object a.sampledImp).dig? p.segments := by
  rw [fixtureImp, FieldPath.segments, Json.dig?_set_of_ne h]

theorem first_ne_of_mem_impPaths {p : FieldPath} (hp : p ∈ a.impPaths) : p.first ≠ "ext" := by
  obtain ⟨x, -, -, hfirst, rfl⟩ := mem_impPaths_iff.1 hp
  exact hfirst

theorem exists_follow?_of_mem_impPaths {p : FieldPath} (hp : p ∈ a.impPaths) :
    ∃ v, v ≠ .null ∧ (Json.object a.fixtureImp).follow? p.segments = some v := by
  obtain ⟨v, hne, hv⟩ := exists_dig?_sampled 1 (Fields.empty.set "id" (.string Fixture.impId))
    (nodup_eraseDups _) hp
  refine ⟨v, hne, Json.follow?_of_dig? ?_⟩
  rw [dig?_fixtureImp (first_ne_of_mem_impPaths hp)]
  exact hv

theorem exists_follow?_impPath? {x : Source}
    (hpath : x.root = .imp → x.path.first ≠ "ext" → x.path ∈ a.impPaths)
    (hdepth : x.path.depth ≤ maxSourceDepth ∧ (x.root = .impExt → x.path.depth = 1))
    (hforeign : ¬ x.PassesForeignExt) {names : List String} (hnames : x.impPath? = some names) :
    ∃ v, (Json.object a.fixtureImp).follow? names = some v := by
  obtain ⟨root, first, rest⟩ := x
  cases root with
  | request => cases hnames
  | impExt =>
    cases hnames
    obtain rfl : rest = [] := by simpa [FieldPath.depth] using hdepth.2 rfl
    exact exists_follow?_bidder a first
  | imp =>
    cases hnames
    by_cases hext : first = "ext"
    · subst hext
      match rest, hdepth.1 with
      | [], _ => exact ⟨_, rfl⟩
      | [j], _ =>
        rw [FieldPath.segments, follow?_fixtureImp_ext]
        exact ⟨_, rfl⟩
      | [j, k], _ =>
        have hj : j = "bidder" := by
          by_contra hj
          exact hforeign ⟨rfl, rfl, Nat.lt_succ_self 2, fun h => hj (Option.some.inj h)⟩
        subst hj
        exact exists_follow?_bidder a k
      | _ :: _ :: _ :: r, hlen =>
        have hlong : r.length + 3 + 1 ≤ 3 := hlen
        omega
    · obtain ⟨v, -, hv⟩ := exists_follow?_of_mem_impPaths (hpath rfl hext)
      exact ⟨v, hv⟩

theorem follow?_of_passesForeignExt {x : Source} (h : x.PassesForeignExt) :
    (Json.object a.fixtureImp).follow? x.path.segments = none := by
  obtain ⟨root, first, rest⟩ := x
  obtain ⟨-, hfirst, hdepth, hj⟩ := h
  obtain rfl : first = "ext" := hfirst
  match rest, hdepth, hj with
  | [], hdepth, _ => exact absurd hdepth (by simp [FieldPath.depth])
  | [_], hdepth, _ => exact absurd hdepth (by simp [FieldPath.depth])
  | j :: k :: r, _, hj =>
    have hj : j ≠ "bidder" := fun e => hj (congrArg some e)
    rw [FieldPath.segments, follow?_fixtureImp_ext, Json.follow?_cons, Fields.get?_set, if_neg hj]
    rfl

theorem opensAbove_fixtureImp (h : a.RebuildsNoSample) {b : Assignment}
    (hb : b ∈ Plan.writing a.imp) : Json.OpensAbove false a.fixtureImp b.target.segments := by
  intro q hq hqb hne
  refine .inr (Classical.or_iff_not_imp_left.2 fun hext => ?_)
  obtain ⟨k, r, rfl⟩ := List.exists_cons_of_ne_nil hq
  have hnot := not_sampled_above h.imp hb hqb hne hext
  have hk : k ≠ "ext" := fun e => hext (by simp [e])
  rw [fixtureImp, Json.dig?_set_of_ne hk]
  apply opens_sampled fun p hp => hnot p (innermost_subset_cons "id" p hp)
  by_cases hid : ∃ p ∈ a.impPaths, k :: r <+: p.segments
  · obtain ⟨p, hp, hkp⟩ := hid
    obtain ⟨s, hs, hps⟩ := exists_innermost hp
    exact .inr ⟨s, hs, hkp.trans hps⟩
  -- nothing is sampled here: of the id alone there was a value before, and it lies above no target
  · left
    intro w hw
    rw [Json.dig?_cons, Fields.get?_set] at hw
    split at hw
    · next hkid =>
      subst hkid
      cases r with
      | cons j r => cases hw
      | nil =>
        have hmem := head_mem_innermost fun p hp hidp => hid ⟨p, hp, hidp⟩
        exact absurd List.prefix_rfl (hnot _ hmem)
    · cases hw

theorem opensAbove_fixtureRequest (h : a.RebuildsNoSample) {b : Assignment}
    (hb : b ∈ Plan.writing a.request) (hne : b.target.first ≠ "imp") (imps : Json) :
    Json.OpensAbove false (a.fixtureRequest.set "imp" imps) b.target.segments := by
  intro q hq hqb hqne
  refine .inr (Classical.or_iff_not_imp_left.2 fun hext => ?_)
  obtain ⟨k, r, rfl⟩ := List.exists_cons_of_ne_nil hq
  have hk : k ≠ "imp" := by
    rw [(List.cons_prefix_cons.1 hqb).1]
    exact hne
  rw [Json.dig?_set_of_ne hk]
  apply opens_sampled (not_sampled_above h.request hb hqb hqne hext)
  left
  rw [Json.dig?_set_of_ne hk, Json.dig?_emptyObject (by simp)]
  exact nofun

theorem get?_imp_fixtureRequest (hpaths : ∀ p ∈ a.requestPaths, p.first ≠ "imp") :
    a.fixtureRequest.get? "imp" = some (.array [.object a.fixtureImp]) := by
  have hdig : (Json.object a.fixtureRequest).dig? ["imp"] =
      (Json.object (Fields.empty.set "imp" (.array [.object a.fixtureImp]))).dig? ["imp"] := by
    apply SampleField.dig?_foldl_of_apart
    intro s hs
    refine apart_cons.2 (.inl (Ne.symm ?_))
    exact hpaths _ (mem_innermost_iff.1 (path_mem_innermost hs)).1
  rw [Json.dig?_cons, Json.dig?_cons, Fields.get?_set, if_pos rfl] at hdig
  simpa [Json.dig?] using hdig

theorem exists_follow?_of_mem_requestPaths {p : FieldPath} (hp : p ∈ a.requestPaths) :
    ∃ v, v ≠ .null ∧ (Json.object a.fixtureRequest).follow? p.segments = some v := by
  obtain ⟨v, hne, hv⟩ := exists_dig?_sampled _ _ (nodup_eraseDups _) hp
  exact ⟨v, hne, Json.follow?_of_dig? hv⟩

section

variable {d : Description} {c : Compiled} {p q : Plan}

theorem not_passesForeignExt_of_runImp (hp : Plan.ofAssignments .impression a.imp = .ok p)
    (hplanned : c.Planned p q) {r : Json} (hrun : c.runImp (.object a.fixtureImp) = .ok r)
    {b : Assignment} (hb : b ∈ a.imp) {x : Source} (hx : b.value = .copy x) :
    ¬ x.PassesForeignExt := by
  intro hforeign
  have hmem : b ∈ p.assignments := by
    rw [Plan.mem_assignments hp]
    exact ⟨hb, by simp [Assignment.isNoop, hx]⟩
  have hne : ¬ p.isEmpty = true := fun he => by
    rw [Plan.assignments_of_isEmpty he] at hmem
    cases hmem
  rw [← Outcome.toOption_eq_some, hplanned.toOption_runImp, if_neg hne] at hrun
  obtain ⟨after, hafter, -⟩ := Option.map_eq_some_iff.1 hrun
  obtain ⟨v, hv⟩ := exists_value?_of_foldlM hafter b hmem
  have hpath : x.impPath? = some x.path.segments := by rw [Source.impPath?, hforeign.1]
  rw [Assignment.value?_of_copy hx, root?_bind_follow? _ _ hpath,
    follow?_of_passesForeignExt hforeign] at hv
  cases hv

theorem exists_runImp (ha : ofDescription d = .ok a)
    (hp : Plan.ofAssignments .impression a.imp = .ok p) (hplanned : c.Planned p q)
    (h : a.RebuildsNoSample) (hsources : ∀ x ∈ a.sources, ¬ x.PassesForeignExt) :
    ∃ r, c.runImp (.object a.fixtureImp) = .ok r := by
  let imp := Json.object a.fixtureImp
  have hvalue : ∀ b ∈ p.assignments, ∃ v, b.value? ⟨some imp, bidderExt? imp, none⟩ = some v := by
    intro b hb
    apply Assignment.exists_value? (Plan.operand_assignments hp b hb)
    intro x hx
    have hbimp := ((Plan.mem_assignments hp).1 hb).1
    have hmem : b ∈ a.imp ++ a.request := List.mem_append_left _ hbimp
    obtain ⟨names, hnames⟩ := exists_impPath? (hplanned.impAdmits b hb) hx
    have hsource : x ∈ a.sources := mem_sources_iff.2 ⟨b, hmem, hx⟩
    rw [root?_bind_follow? _ _ hnames]
    refine exists_follow?_impPath? (fun hroot hfirst => ?_)
      (source_depth_of_ofDescription ha hmem hx) (hsources x hsource) hnames
    exact mem_impPaths_iff.2 ⟨x, hsource, hroot, hfirst, rfl⟩
  have hopens : ∀ b ∈ p.assignments,
      Json.OpensAbove false a.fixtureImp b.target.segments := fun b hb =>
    opensAbove_fixtureImp h ((Plan.assignments_perm hp).mem_iff.1 hb)
  obtain ⟨after, hafter⟩ := exists_foldlM_write? (Plan.separate_assignments hp) hvalue hopens
  have hrun := hplanned.toOption_runImp imp
  cases he : p.isEmpty with
  | true =>
    rw [if_pos he] at hrun
    exact ⟨imp, Outcome.toOption_eq_some.1 hrun⟩
  | false =>
    rw [if_neg (by simp [he])] at hrun
    refine ⟨.object after, ?_⟩
    rw [← Outcome.toOption_eq_some, hrun]
    exact Option.map_eq_some_iff.2 ⟨after, hafter, rfl⟩

theorem exists_finish (ha : ofDescription d = .ok a)
    (hq : Plan.ofAssignments .request a.request = .ok q) (hplanned : c.Planned p q)
    (h : a.RebuildsNoSample) (imps : Json) :
    ∃ r, c.finish a.fixtureRequest (a.fixtureRequest.set "imp" imps)
      [bidderExt? (.object a.fixtureImp)] = .ok r := by
  have hvalue : ∀ b ∈ q.assignments, ∃ v, b.value? ⟨none, bidderExt? (.object a.fixtureImp),
      some (.object a.fixtureRequest)⟩ = some v := by
    intro b hb
    apply Assignment.exists_value? (Plan.operand_assignments hq b hb)
    intro x hx
    have hbrequest := ((Plan.mem_assignments hq).1 hb).1
    rcases (hplanned.requestAdmits b hb).source_root x hx with hroot | hroot
    · have hdepth := (source_depth_of_ofDescription ha (List.mem_append_right _ hbrequest) hx).2
      have hone : x.path.segments = [x.path.first] := by
        simpa [FieldPath.segments, FieldPath.depth] using hdepth hroot
      have hread := exists_follow?_bidder a x.path.first
      rw [← hone, ← follow?_bidderExt?] at hread
      rw [hroot]
      exact hread
    · have hsource := mem_sources_iff.2 ⟨b, List.mem_append_right _ hbrequest, hx⟩
      have hpath := mem_requestPaths_iff.2 ⟨x, hsource, hroot, rfl⟩
      obtain ⟨v, -, hv⟩ := exists_follow?_of_mem_requestPaths hpath
      rw [hroot]
      exact ⟨v, hv⟩
  have hopens : ∀ b ∈ q.assignments, Json.OpensAbove false
      (a.fixtureRequest.set "imp" imps) b.target.segments := fun b hb =>
    opensAbove_fixtureRequest h ((Plan.assignments_perm hq).mem_iff.1 hb)
      ((hplanned.requestAdmits b hb).target_ne rfl) imps
  obtain ⟨after, hafter⟩ := exists_foldlM_write? (Plan.separate_assignments hq) hvalue hopens
  refine ⟨.object after, ?_⟩
  rw [← Outcome.toOption_eq_some, hplanned.toOption_finish]
  · exact Option.map_eq_some_iff.2 ⟨after, hafter, rfl⟩
  · intro k hk
    rw [Fields.get?_set, if_neg hk]

theorem run_fixture (ha : ofDescription d = .ok a) (c : Compiled) :
    c.run a.fixture.bidRequest = c.runImp (.object a.fixtureImp) >>= fun modified =>
      c.finish a.fixtureRequest (a.fixtureRequest.set "imp" (.array [modified]))
        [bidderExt? (.object a.fixtureImp)] := by
  obtain ⟨himp, hrequest⟩ := admits_of_ofDescription ha
  have hget := get?_imp_fixtureRequest fun p hp => first_ne_of_mem_requestPaths himp hrequest hp
  rw [fixture_bidRequest, Compiled.run_of_get? c hget, List.mapM_cons, List.mapM_nil]
  cases c.runImp (.object a.fixtureImp) <;> rfl

end

/-- The programs of an adapter run on its own fixture exactly when no source leads through a foreign
field of the impression's extension, which fixtures leave out. -/
theorem fixture_runs_iff {d : Description} {c : Compiled} (ha : ofDescription d = .ok a)
    (hc : a.compile = .ok c) (h : a.RebuildsNoSample) :
    (∃ r, c.run a.fixture.bidRequest = .ok r) ↔ ∀ x ∈ a.sources, ¬ x.PassesForeignExt := by
  obtain ⟨himp, hrequest⟩ := admits_of_ofDescription ha
  obtain ⟨p, q, hp, hq, hplanned⟩ := exists_planned himp hrequest hc
  constructor
  · rintro ⟨r, hr⟩ x hx hforeign
    rw [run_fixture ha] at hr
    obtain ⟨modified, hmodified, -⟩ := Outcome.bind_eq_ok.1 hr
    obtain ⟨b, hb, hbx⟩ := mem_sources_iff.1 hx
    rcases List.mem_append.1 hb with hb | hb
    · exact not_passesForeignExt_of_runImp hp hplanned hmodified hb hbx hforeign
    -- sources of the other scope are not read from the impression itself
    · rcases (hrequest b hb).source_root x hbx with hroot | hroot <;>
        rw [hforeign.1] at hroot <;> cases hroot
  · intro hsources
    obtain ⟨modified, hmodified⟩ := exists_runImp ha hp hplanned h hsources
    obtain ⟨r, hr⟩ := exists_finish ha hq hplanned h (.array [modified])
    exact ⟨r, by rw [run_fixture ha]; exact Outcome.bind_eq_ok.2 ⟨modified, hmodified, hr⟩⟩

def fixtureDescription (rules : List Rule) : Description :=
  ⟨"sample", .singleRequest, ⟨"https://sample.test", none⟩, .none, .none,
    [⟨"placement", .string⟩, ⟨"publisher", .integer⟩], rules⟩

/-- The sample of the site gives way to the one of its publisher. -/
def fixtureAdapter : Adapter where
  description := fixtureDescription [⟨"imp.banner.w", none, some "imp.banner.h"⟩,
    ⟨"imp.tagid", none, some "imp.ext.bidder.placement"⟩, ⟨"device.ua", none, some "site"⟩,
    ⟨"site.publisher.name", none, some "site.publisher.id"⟩]
  imp := [⟨"imp.banner.w", ⟨"banner", ["w"]⟩, .copy ⟨.imp, ⟨"banner", ["h"]⟩⟩⟩,
    ⟨"imp.tagid", ⟨"tagid", []⟩, .copy ⟨.imp, ⟨"ext", ["bidder", "placement"]⟩⟩⟩]
  request := [⟨"device.ua", ⟨"device", ["ua"]⟩, .copy ⟨.request, ⟨"site", []⟩⟩⟩,
    ⟨"site.publisher.name", ⟨"site", ["publisher", "name"]⟩,
      .copy ⟨.request, ⟨"site", ["publisher", "id"]⟩⟩⟩]

theorem fixture_runs_iff_sample :
    ∃ c r, ofDescription fixtureAdapter.description = .ok fixtureAdapter ∧
      fixtureAdapter.compile = .ok c ∧ fixtureAdapter.RebuildsNoSample ∧
      c.run fixtureAdapter.fixture.bidRequest = .ok r := by
  have ha : ofDescription fixtureAdapter.description = .ok fixtureAdapter := rfl
  obtain ⟨c, hc⟩ : ∃ c, fixtureAdapter.compile = .ok c := ⟨_, rfl⟩
  have hsamples : fixtureAdapter.RebuildsNoSample := ⟨by decide +kernel, by decide +kernel⟩
  have hsources : ∀ x ∈ fixtureAdapter.sources, ¬ x.PassesForeignExt := by decide +kernel
  obtain ⟨r, hr⟩ := (fixture_runs_iff ha hc hsamples).2 hsources
  exact ⟨c, r, ha, hc, hsamples, hr⟩

/-- A description without faults compiles, and its programs fail on its own fixture. -/
def FixtureFails (d : Description) (e : RunError) : Prop :=
  ∃ a c, d.check = .ok d ∧ ofDescription d = .ok a ∧ a.compile = .ok c ∧
    c.run a.fixture.bidRequest = .error e

def fixtureRun? (d : Description) : Option (Except RunError Json) :=
  (ofDescription d).toOption.bind fun a =>
    a.compile.toOption.map fun c => c.run a.fixture.bidRequest

theorem fixtureFails_of_fixtureRun? {d : Description} {e : RunError} (hcheck : d.check = .ok d)
    (h : fixtureRun? d = some (.error e)) : FixtureFails d e := by
  obtain ⟨a, ha, h⟩ := Option.bind_eq_some_iff.1 h
  obtain ⟨c, hc, h⟩ := Option.map_eq_some_iff.1 h
  exact ⟨a, c, hcheck, Outcome.toOption_eq_some.1 ha, Outcome.toOption_eq_some.1 hc, h⟩

def foreignExtDescription : Description :=
  fixtureDescription [⟨"imp.tagid", none, some "imp.ext.data.tag"⟩]

/-- The site that gets a page is copied, and so sampled as a text. -/
def sampledSiteDescription : Description :=
  fixtureDescription [⟨"device.ua", none, some "site"⟩, ⟨"site.page", some (.string "p"), none⟩]

def rebuiltIdDescription : Description :=
  fixtureDescription [⟨"imp.id.short", some (.string "1"), none⟩]

theorem fixture_run_fails :
    FixtureFails foreignExtDescription (.nullDereference "imp.getExt().getData()") ∧
      FixtureFails sampledSiteDescription (.givenNotAnObject "bidRequest" ⟨"site", []⟩) ∧
      FixtureFails rebuiltIdDescription (.givenNotAnObject "imp" ⟨"id", []⟩) :=
  ⟨fixtureFails_of_fixtureRun? (by decide +kernel) (by decide +kernel),
    fixtureFails_of_fixtureRun? (by decide +kernel) (by decide +kernel),
    fixtureFails_of_fixtureRun? (by decide +kernel) (by decide +kernel)⟩

end Adapter

end AdapterForge

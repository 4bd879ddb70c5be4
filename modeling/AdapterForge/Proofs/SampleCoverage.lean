import AdapterForge.Proofs.FixtureRun
import AdapterForge.Proofs.ScopedRules

/-!
What an adapter finds in its fixture: every sample is read where it was put, and every source that
is not left out on purpose leads to a value.
-/
namespace AdapterForge

namespace Fields

variable {α : Type} {l : List (String × α)} {k : String}

theorem get?_foldl_set_of_not_mem (h : k ∉ l.map (·.1)) (f : Fields α) :
    (l.foldl (fun f e => f.set e.1 e.2) f).get? k = f.get? k := by
  induction l generalizing f with
  | nil => rfl
  | cons e l ih =>
    rw [List.map_cons, List.mem_cons, not_or] at h
    rw [List.foldl_cons, ih h.2, get?_set, if_neg h.1]

theorem get?_ofList {v : α} (h : (l.map (·.1)).Nodup) (hmem : (k, v) ∈ l) :
    (ofList l).get? k = some v := by
  obtain ⟨pre, post, rfl⟩ := List.append_of_mem hmem
  have hpost : k ∉ post.map (·.1) := by
    rw [List.map_append, List.map_cons] at h
    exact (List.nodup_cons.1 (List.nodup_append.1 h).2.1).1
  rw [ofList, List.foldl_append, List.foldl_cons, get?_foldl_set_of_not_mem hpost, get?_set,
    if_pos rfl]

end Fields

theorem SampleParam.value_ne_null (p : SampleParam) : p.value ≠ .null := by
  unfold value
  split <;> exact nofun

theorem map_param_sampleParams (next : Nat) (l : List Param) :
    (sampleParams next l).map (·.param) = l := by
  induction l generalizing next with
  | nil => rfl
  | cons p l ih => rw [sampleParams, List.map_cons, ih]

theorem Sources.read_eq_ok {s : Sources} {x : Source} {root v : Json}
    (hroot : s.root? x.root = some root) (h : root.follow? x.path.segments = some v) :
    s.read x = .ok v := by
  rw [← Outcome.toOption_eq_some, toOption_read, hroot]
  exact h

namespace Fixture

def sources (f : Fixture) : Sources := ⟨some f.imp, bidderExt? f.imp, some f.bidRequest⟩

/-- A fixture whose samples leave each other alone and that has a value for each of some sources,
but for those below the extension of the impression. -/
structure Covers (f : Fixture) (l : List Source) : Prop where
  impApart : f.impFields.Pairwise fun s t => Apart s.path.segments t.path.segments
  requestApart : f.requestFields.Pairwise fun s t => Apart s.path.segments t.path.segments
  firstImp : f.bidRequest.get? "imp" = some (.array [f.imp])
  impSample : ∀ s ∈ f.impFields, f.sources.read ⟨.imp, s.path⟩ = .ok s.value.toJson
  requestSample : ∀ s ∈ f.requestFields, f.sources.read ⟨.request, s.path⟩ = .ok s.value.toJson
  imp : ∀ x ∈ l, x.root = .imp → x.path.first ≠ "ext" →
    (∃ s ∈ f.impFields, x.path.segments <+: s.path.segments) ∧
      ∃ v, v ≠ .null ∧ f.sources.read x = .ok v
  request : ∀ x ∈ l, x.root = .request →
    (∃ s ∈ f.requestFields, x.path.segments <+: s.path.segments) ∧
      ∃ v, v ≠ .null ∧ f.sources.read x = .ok v
  impExt : ∀ x ∈ l, x.root = .impExt → ∃ p ∈ f.ext,
    x.path = ⟨p.param.name, []⟩ ∧ p.value ≠ .null ∧ f.sources.read x = .ok p.value

end Fixture

theorem exists_sample_below {first : Nat} {paths : List FieldPath} {p : FieldPath}
    (hp : p ∈ paths) : ∃ s ∈ sampleFields first paths, p.segments <+: s.path.segments := by
  obtain ⟨q, hq, hpq⟩ := exists_innermost hp
  obtain ⟨s, hs, rfl⟩ := exists_sample first hq
  exact ⟨s, hs, hpq⟩

namespace Adapter

variable {d : Description} {a : Adapter}

theorem read_impSample {s : SampleField} (hs : s ∈ a.fixture.impFields) :
    a.fixture.sources.read ⟨.imp, s.path⟩ = .ok s.value.toJson := by
  have hpath := (mem_innermost_iff.1 (path_mem_innermost hs)).1
  have hroot : a.fixture.sources.root? .imp = some (.object a.fixtureImp) := rfl
  refine Sources.read_eq_ok hroot (Json.follow?_of_dig? ?_)
  rw [dig?_fixtureImp (first_ne_of_mem_impPaths hpath)]
  exact SampleField.dig?_foldl_self (sampleFields_apart 1 (nodup_eraseDups _)) hs

theorem read_requestSample {s : SampleField} (hs : s ∈ a.fixture.requestFields) :
    a.fixture.sources.read ⟨.request, s.path⟩ = .ok s.value.toJson := by
  have hroot : a.fixture.sources.root? .request = some (.object a.fixtureRequest) := rfl
  refine Sources.read_eq_ok hroot (Json.follow?_of_dig? ?_)
  exact SampleField.dig?_foldl_self (sampleFields_apart _ (nodup_eraseDups _)) hs

theorem follow?_param (hparams : (a.params.map (·.name)).Nodup) {p : SampleParam}
    (hp : p ∈ a.fixture.ext) :
    (Json.object a.fixtureImp).follow? ["ext", "bidder", p.param.name] = some p.value := by
  have hnames : (a.fixture.ext.map fun p => (p.param.name, p.value)).map (·.1) =
      a.params.map (·.name) := by
    rw [List.map_map, ← map_param_sampleParams 1 a.params, List.map_map]
    rfl
  have hget := Fields.get?_ofList (hnames ▸ hparams)
    (List.mem_map_of_mem (f := fun p : SampleParam => (p.param.name, p.value)) hp)
  rw [follow?_fixtureImp_ext, Json.follow?_cons, Fields.get?_set, if_pos rfl, Option.getD_some,
    Fixture.bidderExt, Json.follow?_cons, hget]
  rfl

theorem read_param (hparams : (a.params.map (·.name)).Nodup) {p : SampleParam}
    (hp : p ∈ a.fixture.ext) :
    a.fixture.sources.read ⟨.impExt, ⟨p.param.name, []⟩⟩ = .ok p.value := by
  rw [← Outcome.toOption_eq_some, Sources.toOption_read]
  exact (follow?_bidderExt? _ _).trans (follow?_param hparams hp)

theorem declared_of_mem_sources (ha : ofDescription d = .ok a) {x : Source} (hx : x ∈ a.sources) :
    x.Declared d.params := by
  obtain ⟨b, hb, hcopy⟩ := mem_sources_iff.1 hx
  obtain ⟨himp, hrequest⟩ := forall₂_ofDescription ha
  rcases List.mem_append.1 hb with hb | hb
  · obtain ⟨r, -, hr⟩ := Outcome.exists_of_forall₂ himp hb
    exact hr.declared hcopy
  · obtain ⟨r, -, hr⟩ := Outcome.exists_of_forall₂ hrequest hb
    exact hr.declared hcopy

/-- The fixture of an accepted description covers all of its sources. -/
theorem fixture_covers_sources (hd : d.fault? = none) (ha : ofDescription d = .ok a) :
    a.fixture.Covers a.sources := by
  obtain ⟨himp, hrequest⟩ := admits_of_ofDescription ha
  have heq : a.params = d.params := by rw [params, description_eq ha]
  have hparams : (a.params.map (·.name)).Nodup := by
    rw [heq]
    exact (Description.fault?_eq_none_iff.1 hd).2.2.2
  refine ⟨sampleFields_apart _ (nodup_eraseDups _), sampleFields_apart _ (nodup_eraseDups _), ?_,
    fun s => read_impSample, fun s => read_requestSample, ?_, ?_, ?_⟩
  · exact get?_imp_fixtureRequest fun p hp => first_ne_of_mem_requestPaths himp hrequest hp
  · intro x hx hroot hfirst
    have hpath : x.path ∈ a.impPaths := mem_impPaths_iff.2 ⟨x, hx, hroot, hfirst, rfl⟩
    obtain ⟨v, hne, hv⟩ := exists_follow?_of_mem_impPaths hpath
    exact ⟨exists_sample_below hpath, v, hne, Sources.read_eq_ok (by rw [hroot]; rfl) hv⟩
  · intro x hx hroot
    have hpath : x.path ∈ a.requestPaths := mem_requestPaths_iff.2 ⟨x, hx, hroot, rfl⟩
    obtain ⟨v, hne, hv⟩ := exists_follow?_of_mem_requestPaths hpath
    exact ⟨exists_sample_below hpath, v, hne, Sources.read_eq_ok (by rw [hroot]; rfl) hv⟩
  · intro x hx hroot
    obtain ⟨param, hparam, hpath⟩ := declared_of_mem_sources ha hx hroot
    rw [← heq, ← map_param_sampleParams 1 a.params] at hparam
    obtain ⟨p, hp, rfl⟩ := List.mem_map.1 hparam
    refine ⟨p, hp, hpath, p.value_ne_null, ?_⟩
    obtain ⟨root, path⟩ := x
    cases hroot
    cases hpath
    exact read_param hparams hp

theorem fixture_covers_sources_sample :
    fixtureAdapter.fixture.Covers fixtureAdapter.sources ∧
      (⟨.request, ⟨"site", []⟩⟩ : Source) ∈ fixtureAdapter.sources ∧
      fixtureAdapter.fixture.requestFields = [⟨⟨"site", ["publisher", "id"]⟩, .text "idString"⟩] := by
  have ha : ofDescription fixtureAdapter.description = .ok fixtureAdapter := rfl
  have hd : fixtureAdapter.description.fault? = none := by decide +kernel
  exact ⟨fixture_covers_sources hd ha, by decide +kernel, by decide +kernel⟩

end Adapter

end AdapterForge

import Mathlib.Data.List.MinMax
import AdapterForge.Fixture.Basic
import AdapterForge.Proofs.Grouping
import AdapterForge.Proofs.Writing

/-!
The samples of a fixture do not get into each other's way: each is found at its path, with objects
on the way to it, and everything apart from them is as it was.
-/
namespace AdapterForge

namespace Json

theorem dig?_emptyObject {q : List String} (h : q ≠ []) : (object .empty).dig? q = none := by
  obtain ⟨k, q, rfl⟩ := List.exists_cons_of_ne_nil h
  rw [dig?_cons, Fields.get?_empty]
  rfl

theorem dig?_fieldsOf {q : List String} (h : q ≠ []) (o : Option Json) :
    (object ((o.getD .null).fieldsOf)).dig? q = o.bind (·.dig? q) := by
  obtain ⟨k, q, rfl⟩ := List.exists_cons_of_ne_nil h
  cases o with
  | none => exact dig?_emptyObject h
  | some v => 
    cases v with
    | object fields => rfl
    | _ => exact dig?_emptyObject h

theorem follow?_of_dig? {v w : Json} {q : List String} (h : v.dig? q = some w) :
    v.follow? q = some w := by
  induction q generalizing v with
  | nil => exact h
  | cons k q ih =>
    obtain ⟨u, hu, hw⟩ := Option.bind_eq_some_iff.1 h
    cases v with
    | object fields =>
      have hget : fields.get? k = some u := hu
      rw [follow?_cons, hget, Option.getD_some]
      exact ih hw
    | _ => cases hu

variable {fields : Fields Json} {k : String} {r q : List String}

theorem get?_setAt_of_ne {j : String} (hj : j ≠ k) (v : Json) :
    (setAt fields k r v).get? j = fields.get? j := by
  cases r <;> simp [setAt, hj]

theorem dig?_setAt_self (fields : Fields Json) (k : String) (r : List String) (v : Json) :
    (object (setAt fields k r v)).dig? (k :: r) = some v := by
  induction r generalizing fields k with
  | nil => rw [dig?_cons, setAt, Fields.get?_set, if_pos rfl]; rfl
  | cons j r ih =>
    rw [dig?_cons, setAt, Fields.get?_set, if_pos rfl]
    exact ih _ j

theorem dig?_setAt_of_apart (h : Apart q (k :: r)) (v : Json) :
    (object (setAt fields k r v)).dig? q = (object fields).dig? q := by
  induction r generalizing fields k q with
  | nil =>
    obtain ⟨j, q, rfl⟩ := List.exists_cons_of_ne_nil h.ne_nil
    have hj : j ≠ k := (apart_cons.1 h).resolve_right fun h => h.symm.ne_nil rfl
    rw [dig?_cons, dig?_cons, get?_setAt_of_ne hj]
  | cons i r ih =>
    obtain ⟨j, q, rfl⟩ := List.exists_cons_of_ne_nil h.ne_nil
    by_cases hj : j = k
    · subst hj
      have hq : Apart q (i :: r) := (apart_cons.1 h).resolve_left (by simp)
      rw [dig?_cons, dig?_cons, setAt, Fields.get?_set, if_pos rfl, Option.bind_some, ih hq,
        dig?_fieldsOf hq.ne_nil]
    · rw [dig?_cons, dig?_cons, get?_setAt_of_ne hj]

theorem dig?_setAt_of_above (h : q <+: k :: r) (hne : q ≠ k :: r) (v : Json) :
    ∃ inner, (object (setAt fields k r v)).dig? q = some (.object inner) := by
  induction r generalizing fields k q with
  | nil =>
    cases q with
    | nil => exact ⟨_, rfl⟩
    | cons j q =>
      obtain ⟨rfl, hq⟩ := List.cons_prefix_cons.1 h
      rw [List.prefix_nil.1 hq] at hne
      exact absurd rfl hne
  | cons i r ih =>
    cases q with
    | nil => exact ⟨_, rfl⟩
    | cons j q =>
      obtain ⟨rfl, hq⟩ := List.cons_prefix_cons.1 h
      rw [dig?_cons, setAt, Fields.get?_set, if_pos rfl]
      exact ih hq fun e => hne (by rw [e])

end Json

namespace SampleField

variable {l : List SampleField} {fields : Fields Json} {q : List String}

theorem dig?_foldl_of_apart (h : ∀ s ∈ l, Apart q s.path.segments) :
    (Json.object (l.foldl setIn fields)).dig? q = (Json.object fields).dig? q := by
  induction l generalizing fields with
  | nil => rfl
  | cons s l ih =>
    rw [List.foldl_cons, ih fun t ht => h t (List.mem_cons_of_mem _ ht)]
    exact Json.dig?_setAt_of_apart (h s (by simp)) _

theorem dig?_foldl_self (hapart : l.Pairwise fun s t => Apart s.path.segments t.path.segments)
    {s : SampleField} (hs : s ∈ l) :
    (Json.object (l.foldl setIn fields)).dig? s.path.segments = some s.value.toJson := by
  obtain ⟨pre, post, rfl⟩ := List.append_of_mem hs
  have hpost : ∀ t ∈ post, Apart s.path.segments t.path.segments :=
    (List.pairwise_cons.1 (List.pairwise_append.1 hapart).2.1).1
  rw [List.foldl_append, List.foldl_cons, dig?_foldl_of_apart hpost]
  exact Json.dig?_setAt_self _ _ _ _

theorem dig?_foldl_object (hnot : ∀ s ∈ l, ¬ s.path.segments <+: q)
    (h : ∃ inner, (Json.object fields).dig? q = some (.object inner)) :
    ∃ inner, (Json.object (l.foldl setIn fields)).dig? q = some (.object inner) := by
  induction l generalizing fields with
  | nil => exact h
  | cons s l ih =>
    rw [List.foldl_cons]
    apply ih fun t ht => hnot t (List.mem_cons_of_mem _ ht)
    by_cases hq : q <+: s.path.segments
    · apply Json.dig?_setAt_of_above hq
      intro e
      exact hnot s (by simp) (by rw [e]; exact List.prefix_rfl)
    · rw [setIn, Json.dig?_setAt_of_apart ⟨hq, hnot s (by simp)⟩]
      exact h

theorem dig?_foldl_of_above (hnot : ∀ s ∈ l, ¬ s.path.segments <+: q) {s : SampleField}
    (hs : s ∈ l) (hq : q <+: s.path.segments) :
    ∃ inner, (Json.object (l.foldl setIn fields)).dig? q = some (.object inner) := by
  obtain ⟨pre, post, rfl⟩ := List.append_of_mem hs
  rw [List.foldl_append, List.foldl_cons]
  apply dig?_foldl_object fun t ht => hnot t (by simp [ht])
  apply Json.dig?_setAt_of_above hq
  intro e
  exact hnot s hs (by rw [e]; exact List.prefix_rfl)

end SampleField

section

variable {paths : List FieldPath} {p q : FieldPath}

theorem FieldPath.isAbove_iff : p.isAbove q = true ↔ p.segments <+: q.segments :=
  List.isPrefixOf_iff_prefix

theorem mem_innermost_iff :
    p ∈ innermost paths ↔ p ∈ paths ∧ ∀ q ∈ paths, p.segments <+: q.segments → p = q := by
  simp [innermost, List.mem_filter, FieldPath.isAbove_iff]

theorem exists_innermost (hp : p ∈ paths) :
    ∃ q ∈ innermost paths, p.segments <+: q.segments := by
  have hmem : p ∈ paths.filter (p.isAbove ·) :=
    List.mem_filter.2 ⟨hp, FieldPath.isAbove_iff.2 List.prefix_rfl⟩
  -- the deepest path that `p` leads to
  obtain ⟨q, hq⟩ : ∃ q, q ∈ (paths.filter (p.isAbove ·)).argmax FieldPath.depth := by
    apply Option.ne_none_iff_exists'.1
    rw [Ne, List.argmax_eq_none]
    exact List.ne_nil_of_mem hmem
  obtain ⟨hqpaths, hpq⟩ := List.mem_filter.1 (List.argmax_mem hq)
  rw [FieldPath.isAbove_iff] at hpq
  refine ⟨q, mem_innermost_iff.2 ⟨hqpaths, ?_⟩, hpq⟩
  intro t ht hqt
  have hpt : t ∈ paths.filter (p.isAbove ·) :=
    List.mem_filter.2 ⟨ht, FieldPath.isAbove_iff.2 (hpq.trans hqt)⟩
  have hdepth : t.depth ≤ q.depth := List.le_of_mem_argmax hpt hq
  exact FieldPath.segments_inj.1 (hqt.eq_of_length_le hdepth)

theorem apart_of_innermost (hp : p ∈ innermost paths) (hq : q ∈ innermost paths) (hpq : p ≠ q) :
    Apart p.segments q.segments := by
  obtain ⟨hp, hpmost⟩ := mem_innermost_iff.1 hp
  obtain ⟨hq, hqmost⟩ := mem_innermost_iff.1 hq
  exact ⟨fun h => hpq (hpmost q hq h), fun h => hpq (hqmost p hp h).symm⟩

theorem map_path_sampleFields (first : Nat) (paths : List FieldPath) :
    (sampleFields first paths).map (·.path) = innermost paths := by
  rw [sampleFields, List.map_map]
  exact List.zipIdx_map_fst first (innermost paths)

theorem exists_sample (first : Nat) (hp : p ∈ innermost paths) :
    ∃ s ∈ sampleFields first paths, s.path = p := by
  rw [← map_path_sampleFields first] at hp
  exact List.mem_map.1 hp

theorem path_mem_innermost {first : Nat} {s : SampleField} (hs : s ∈ sampleFields first paths) :
    s.path ∈ innermost paths := by
  rw [← map_path_sampleFields first]
  exact List.mem_map.2 ⟨s, hs, rfl⟩

theorem sampleFields_apart (first : Nat) (hpaths : paths.Nodup) :
    (sampleFields first paths).Pairwise fun s t => Apart s.path.segments t.path.segments := by
  rw [← List.pairwise_map (f := SampleField.path)
    (R := fun p q : FieldPath => Apart p.segments q.segments), map_path_sampleFields]
  apply List.Pairwise.imp_of_mem _ (hpaths.filter _)
  intro p q hp hq hpq
  exact apart_of_innermost hp hq hpq

theorem toJson_ne_null (l : Literal) : l.toJson ≠ .null := by cases l <;> exact nofun

/-- A value is stored at each path that is sampled or leads to a sample. -/
theorem exists_dig?_sampled (first : Nat) (fields : Fields Json) (hpaths : paths.Nodup)
    (hp : p ∈ paths) :
    ∃ v, v ≠ .null ∧ (Json.object ((sampleFields first paths).foldl SampleField.setIn fields)).dig?
      p.segments = some v := by
  obtain ⟨q, hq, hpq⟩ := exists_innermost hp
  obtain ⟨s, hs, rfl⟩ := exists_sample first hq
  by_cases hps : p = s.path
  · subst hps
    exact ⟨_, toJson_ne_null s.value,
      SampleField.dig?_foldl_self (sampleFields_apart first hpaths) hs⟩
  · have hnot : ∀ t ∈ sampleFields first paths, ¬ t.path.segments <+: p.segments := by
      intro t ht htp
      have hts : t.path = s.path :=
        (mem_innermost_iff.1 (path_mem_innermost ht)).2 _ (mem_innermost_iff.1 hq).1
          (htp.trans hpq)
      rw [hts] at htp
      exact hps (FieldPath.segments_inj.1 (hpq.eq_of_length_le htp.length_le))
    obtain ⟨inner, hinner⟩ := SampleField.dig?_foldl_of_above hnot hs hpq
    exact ⟨.object inner, by simp, hinner⟩

/-- Where no sample is put at names or above them, an object is found there if a sample lies below,
and otherwise what was there before. -/
theorem opens_sampled {first : Nat} {fields : Fields Json} {names : List String}
    (hnot : ∀ p ∈ innermost paths, ¬ p.segments <+: names)
    (h : Json.Opens ((Json.object fields).dig? names) ∨
      ∃ p ∈ innermost paths, names <+: p.segments) :
    Json.Opens ((Json.object ((sampleFields first paths).foldl SampleField.setIn fields)).dig?
      names) := by
  have hnot' : ∀ s ∈ sampleFields first paths, ¬ s.path.segments <+: names := fun s hs =>
    hnot s.path (path_mem_innermost hs)
  by_cases hbelow : ∃ p ∈ innermost paths, names <+: p.segments
  · obtain ⟨p, hp, hnames⟩ := hbelow
    obtain ⟨s, hs, rfl⟩ := exists_sample first hp
    obtain ⟨inner, hinner⟩ := SampleField.dig?_foldl_of_above hnot' hs hnames
    intro w hw
    rw [hinner] at hw
    exact .inr ⟨inner, (Option.some.inj hw).symm⟩
  · rw [SampleField.dig?_foldl_of_apart fun s hs => ⟨fun hs' => ?_, hnot' s hs⟩]
    · exact h.resolve_right hbelow
    · exact hbelow ⟨s.path, path_mem_innermost hs, hs'⟩

end

end AdapterForge

import AdapterForge.Proofs.PathNames
import AdapterForge.Proofs.Planning

/-!
Which texts name a field. A path is a list of names joined by dots and nothing else, and no name of
it is lost when it is read. What a marker leaves of a text is read as a path, with the depth and the
first name that the scope allows.
-/
namespace AdapterForge

/-- The characters of `[A-Za-z_$]`. -/
def OpensName (c : Char) : Prop := 'A' ≤ c ∧ c ≤ 'Z' ∨ 'a' ≤ c ∧ c ≤ 'z' ∨ c = '_' ∨ c = '$'

/-- The words of `[A-Za-z_$][A-Za-z0-9_$]*`. -/
def IsFieldName (s : String) : Prop :=
  ∃ c r, s.toList = c :: r ∧ OpensName c ∧ ∀ d ∈ r, OpensName d ∨ '0' ≤ d ∧ d ≤ '9'

/-- Names with dots between them, at least one name. -/
def Dotted (raw : String) (names : List String) : Prop :=
  names ≠ [] ∧ (∀ k ∈ names, IsFieldName k) ∧ raw = ".".intercalate names

namespace FieldPath

theorem isNameStart_iff {c : Char} : isNameStart c = true ↔ OpensName c := by
  have hupper : c.isUpper = true ↔ 'A' ≤ c ∧ c ≤ 'Z' := decide_eq_true_iff
  have hlower : c.isLower = true ↔ 'a' ≤ c ∧ c ≤ 'z' :=
    Bool.and_eq_true_iff.trans (and_congr decide_eq_true_iff decide_eq_true_iff)
  have halpha : c.isAlpha = true ↔ c.isUpper = true ∨ c.isLower = true := Bool.or_eq_true_iff
  simp only [isNameStart, OpensName, Bool.or_eq_true, beq_iff_eq, halpha, hupper, hlower, or_assoc]

theorem isNameChar_iff {c : Char} : isNameChar c = true ↔ OpensName c ∨ '0' ≤ c ∧ c ≤ '9' := by
  have hsplit : isNameChar c = true ↔ isNameStart c = true ∨ c.isDigit = true := by
    simp only [isNameChar, isNameStart, Char.isAlphanum, Bool.or_eq_true]
    tauto
  rw [hsplit, isNameStart_iff]
  simp only [Char.isDigit, Bool.and_eq_true, decide_eq_true_eq]
  rfl

theorem isName_toList_iff {s : String} : isName s.toList = true ↔ IsFieldName s := by
  unfold isName IsFieldName
  cases s.toList with
  | nil => simp
  | cons c r => simp [isNameStart_iff, isNameChar_iff]

end FieldPath

theorem IsFieldName.dot_not_mem {s : String} (h : IsFieldName s) : '.' ∉ s.toList := by
  obtain ⟨c, r, hs, hc, hr⟩ := h
  rw [hs, List.mem_cons]
  rintro (rfl | hdot)
  · exact absurd hc (by unfold OpensName; decide)
  · exact absurd (hr '.' hdot) (by unfold OpensName; decide)

namespace FieldPath

variable {raw : String} {p : FieldPath}

theorem parse_eq_ok_iff_parts : parse raw = .ok p ↔ raw ≠ "" ∧
    (∀ w ∈ parts '.' raw.toList, isName w = true) ∧
      p.segments = (parts '.' raw.toList).map String.ofList := by
  rw [← faultOf_eq_none_iff, parse, splitDots_eq]
  by_cases hraw : raw = ""
  · simp [hraw]
  · cases hfault : faultOf (parts '.' raw.toList) with
    | some f =>
      unfold parts at hfault
      simp [hraw, hfault]
    | none =>
      have hp : (⟨String.ofList (splitAt '.' raw.toList).1,
          (splitAt '.' raw.toList).2.map String.ofList⟩ : FieldPath) = p ↔
          p.segments = (parts '.' raw.toList).map String.ofList :=
        segments_inj.symm.trans eq_comm
      unfold parts at hfault
      simp [hraw, hfault, hp]

theorem parse_eq_ok_iff : parse raw = .ok p ↔ Dotted raw p.segments := by
  rw [parse_eq_ok_iff_parts, parts_eq_splitOn, Dotted]
  constructor
  · rintro ⟨-, hnames, hp⟩
    refine ⟨p.segments_ne_nil, fun k hk => ?_, ?_⟩
    · rw [hp] at hk
      obtain ⟨w, hw, rfl⟩ := List.mem_map.1 hk
      rw [← isName_toList_iff, String.toList_ofList]
      exact hnames w hw
    · apply String.toList_inj.1
      rw [String.toList_intercalate, hp, List.map_map]
      simp [Function.comp_def, List.intercalate_splitOn]
  · rintro ⟨hne, hnames, rfl⟩
    have hsplit : (".".intercalate p.segments).toList.splitOn '.' =
        p.segments.map String.toList := by
      rw [String.toList_intercalate]
      apply List.splitOn_intercalate
      · intro w hw
        obtain ⟨k, hk, rfl⟩ := List.mem_map.1 hw
        exact (hnames k hk).dot_not_mem
      · simpa using hne
    rw [hsplit]
    refine ⟨?_, ?_, ?_⟩
    · intro hempty
      obtain ⟨c, r, hfirst, -⟩ := hnames p.first List.mem_cons_self
      rw [hempty] at hsplit
      have hnil : [] = p.first.toList := (List.cons.inj hsplit).1
      rw [hfirst] at hnil
      cases hnil
    · intro w hw
      obtain ⟨k, hk, rfl⟩ := List.mem_map.1 hw
      exact isName_toList_iff.2 (hnames k hk)
    · simp [Function.comp_def]

theorem text_eq (p : FieldPath) : p.text = ".".intercalate p.segments := by
  obtain ⟨first, rest⟩ := p
  simp only [text, segments]
  induction rest generalizing first with
  | nil => simp
  | cons k rest ih =>
    rw [List.foldl_cons, ih, String.intercalate_cons_append, String.intercalate_cons_cons]

end FieldPath

theorem Dotted.exists_parse {raw : String} {names : List String} (h : Dotted raw names) :
    ∃ p, FieldPath.parse raw = .ok p ∧ p.segments = names := by
  obtain ⟨first, rest, rfl⟩ := List.exists_cons_of_ne_nil h.1
  exact ⟨⟨first, rest⟩, FieldPath.parse_eq_ok_iff.2 h, rfl⟩

def Carries (marker raw : String) : Prop := ∃ text, raw = marker ++ text

/-- A text without the marker in front of it, which is taken off once if it is there. -/
def Unmarked (marker raw text : String) : Prop :=
  raw = marker ++ text ∨ ¬ Carries marker raw ∧ text = raw

section

variable {marker raw text : String}

theorem afterMarker?_eq_some_iff : afterMarker? marker raw = some text ↔ raw = marker ++ text := by
  rw [← String.toList_inj, String.toList_append, afterMarker?]
  by_cases hpre : marker.toList <+: raw.toList
  · obtain ⟨r, hr⟩ := hpre
    have hpre : marker.toList.isPrefixOf (marker.toList ++ r) = true :=
      List.isPrefixOf_iff_prefix.2 ⟨r, rfl⟩
    rw [← hr, if_pos hpre, List.drop_left, Option.some.injEq, ← String.toList_inj,
      String.toList_ofList, List.append_cancel_left_eq]
  · have hne : raw.toList ≠ marker.toList ++ text.toList := fun h => hpre ⟨_, h.symm⟩
    rw [if_neg (mt List.isPrefixOf_iff_prefix.1 hpre)]
    simp [hne]

theorem afterMarker?_eq_none_iff : afterMarker? marker raw = none ↔ ¬ Carries marker raw := by
  rw [Option.eq_none_iff_forall_not_mem, Carries, not_exists]
  exact forall_congr' fun text => not_congr afterMarker?_eq_some_iff

theorem isSome_afterMarker?_iff : (afterMarker? marker raw).isSome = true ↔ Carries marker raw := by
  rw [Option.isSome_iff_exists, Carries]
  exact exists_congr fun text => afterMarker?_eq_some_iff

theorem getD_afterMarker?_eq_iff :
    (afterMarker? marker raw).getD raw = text ↔ Unmarked marker raw text := by
  cases h : afterMarker? marker raw with
  | none =>
    have hnot := afterMarker?_eq_none_iff.1 h
    have hne : raw ≠ marker ++ text := fun e => hnot ⟨text, e⟩
    rw [Option.getD_none, Unmarked, or_iff_right hne, and_iff_right hnot, eq_comm]
  | some t =>
    obtain rfl := afterMarker?_eq_some_iff.1 h
    have hcarries : Carries marker (marker ++ t) := ⟨t, rfl⟩
    rw [Option.getD_some, Unmarked, or_iff_left fun h => h.1 hcarries]
    simp [← String.toList_inj]

end

namespace SourceRoot

def marker : SourceRoot → String
  | .imp => impMarker
  | .impExt => extMarker
  | .request => requestMarker

/-- No marker begins with another one, so a text carries at most one. -/
theorem marker_unique {root root' : SourceRoot} {raw text text' : String}
    (h : raw = root.marker ++ text) (h' : raw = root'.marker ++ text') :
    root = root' ∧ text = text' := by
  have hpre : root.marker.toList <+: raw.toList := ⟨text.toList, by rw [h, String.toList_append]⟩
  have hpre' : root'.marker.toList <+: raw.toList :=
    ⟨text'.toList, by rw [h', String.toList_append]⟩
  have hroot : root = root' := by
    rcases List.prefix_or_prefix_of_prefix hpre hpre' with hle | hle <;>
      revert hle <;> cases root <;> cases root' <;> decide
  subst hroot
  rw [h, ← String.toList_inj, String.toList_append, String.toList_append] at h'
  exact ⟨rfl, String.toList_inj.1 (List.append_cancel_left h')⟩

end SourceRoot

namespace Scope

variable {scope : Scope} {raw text : String} {root : SourceRoot} {p : FieldPath} {x : Source}

theorem targetText_impression_eq_ok_iff : impression.targetText raw = .ok text ↔
    ¬ Carries requestMarker raw ∧ ¬ Carries extMarker raw ∧ Unmarked impMarker raw text := by
  rw [← isSome_afterMarker?_iff, ← isSome_afterMarker?_iff, ← getD_afterMarker?_eq_iff]
  simp only [targetText, marker]
  split
  · simp_all
  · split <;> simp_all

theorem targetText_request_eq_ok_iff : request.targetText raw = .ok text ↔
    ¬ Carries impMarker raw ∧ ¬ Carries extMarker raw ∧ Unmarked requestMarker raw text := by
  rw [← isSome_afterMarker?_iff, ← isSome_afterMarker?_iff, ← getD_afterMarker?_eq_iff]
  simp only [targetText, marker]
  split
  · next h =>
    rw [Bool.or_eq_true] at h
    simp only [reduceCtorEq, false_iff, not_and_or, not_not]
    exact h.imp_right .inl
  · simp_all

/-- The object and the path text of a source: what its marker says, or the object of the scope. -/
def Reads (scope : Scope) (raw : String) (root : SourceRoot) (text : String) : Prop :=
  raw = root.marker ++ text ∨ (∀ r : SourceRoot, ¬ Carries r.marker raw) ∧ root = scope.root ∧ text = raw

theorem exists_reads (scope : Scope) (raw : String) : ∃ root text, scope.Reads raw root text := by
  by_cases h : ∃ r : SourceRoot, Carries r.marker raw
  · obtain ⟨r, text, ht⟩ := h
    exact ⟨r, text, .inl ht⟩
  · exact ⟨_, _, .inr ⟨not_exists.1 h, rfl, rfl⟩⟩

theorem Reads.unique (h : scope.Reads raw root text) {root' : SourceRoot} {text' : String}
    (h' : scope.Reads raw root' text') : root' = root ∧ text' = text := by
  rcases h with h | ⟨hnot, rfl, rfl⟩
  · rcases h' with h' | ⟨hnot', -⟩
    · exact SourceRoot.marker_unique h' h
    · exact absurd ⟨text, h⟩ (hnot' root)
  · rcases h' with h' | ⟨-, rfl, rfl⟩
    · exact absurd ⟨text', h'⟩ (hnot root')
    · exact ⟨rfl, rfl⟩

theorem afterMarker?_marker (h : raw = root.marker ++ text) (r : SourceRoot) :
    afterMarker? r.marker raw = if r = root then some text else none := by
  split
  · next hr =>
    rw [hr]
    exact afterMarker?_eq_some_iff.2 h
  · next hr =>
    rw [afterMarker?_eq_none_iff]
    rintro ⟨text', h'⟩
    exact hr (SourceRoot.marker_unique h' h).1

theorem reads_plain (hext : afterMarker? extMarker raw = none)
    (himp : afterMarker? impMarker raw = none)
    (hrequest : afterMarker? requestMarker raw = none) : scope.Reads raw scope.root raw := by
  refine .inr ⟨fun r => ?_, rfl, rfl⟩
  cases r with
  | imp => exact afterMarker?_eq_none_iff.1 himp
  | impExt => exact afterMarker?_eq_none_iff.1 hext
  | request => exact afterMarker?_eq_none_iff.1 hrequest

theorem sourceText_eq_ok_iff : scope.sourceText raw = .ok (root, text) ↔
    scope.Reads raw root text ∧ (root = .impExt ∨ root = scope.root) := by
  constructor
  · intro h
    refine ⟨?_, sourceText_root h⟩
    unfold sourceText at h
    split at h
    · next ht =>
      cases h
      exact .inl (afterMarker?_eq_some_iff.1 ht)
    · next hext =>
      split at h
      · next ht =>
        cases h
        exact .inl (afterMarker?_eq_some_iff.1 ht)
      · cases h
      · next himp =>
        split at h
        · next ht =>
          cases h
          exact .inl (afterMarker?_eq_some_iff.1 ht)
        · cases h
        · next hrequest =>
          cases h
          exact reads_plain hext himp hrequest
        · next hrequest =>
          cases h
          exact reads_plain hext himp hrequest
  · rintro ⟨h | ⟨hnot, rfl, rfl⟩, hroot⟩
    · have hext : afterMarker? extMarker raw = _ := afterMarker?_marker h .impExt
      have himp : afterMarker? impMarker raw = _ := afterMarker?_marker h .imp
      have hrequest : afterMarker? requestMarker raw = _ := afterMarker?_marker h .request
      cases root <;> cases scope <;> simp_all [sourceText, Scope.root]
    · have hext := afterMarker?_eq_none_iff.2 (hnot .impExt)
      have himp := afterMarker?_eq_none_iff.2 (hnot .imp)
      have hrequest := afterMarker?_eq_none_iff.2 (hnot .request)
      cases scope <;> simp_all [sourceText, Scope.root, SourceRoot.marker]

theorem resolveTarget_impression_eq_ok_iff : impression.resolveTarget raw = .ok p ↔
    ¬ Carries requestMarker raw ∧ ¬ Carries extMarker raw ∧
      ∃ text, Unmarked impMarker raw text ∧ FieldPath.parse text = .ok p ∧ p.depth ≤ 2 := by
  simp only [resolveTarget_eq_ok_iff, targetText_impression_eq_ok_iff, and_assoc, exists_and_left,
    reduceCtorEq, false_imp_iff, true_and, maxDepth]

theorem resolveTarget_request_eq_ok_iff : request.resolveTarget raw = .ok p ↔
    ¬ Carries impMarker raw ∧ ¬ Carries extMarker raw ∧
      ∃ text, Unmarked requestMarker raw text ∧ FieldPath.parse text = .ok p ∧ p.depth ≤ 3 ∧
        p.first ≠ "imp" := by
  simp only [resolveTarget_eq_ok_iff, targetText_request_eq_ok_iff, and_assoc, exists_and_left,
    true_imp_iff, maxDepth, and_comm (a := p.first ≠ "imp")]

theorem Reads.resolveSource_eq_ok_iff (h : scope.Reads raw root text) (target : String) :
    scope.resolveSource target raw = .ok x ↔ (root = .impExt ∨ root = scope.root) ∧
      x.root = root ∧ FieldPath.parse text = .ok x.path ∧ x.path.depth ≤ 3 ∧
        ¬ (root = .request ∧ x.path.first = "imp") := by
  rw [Scope.resolveSource_eq_ok_iff]
  constructor
  · rintro ⟨text', htext, hparse, hne, hdepth⟩
    obtain ⟨hreads, hroot⟩ := sourceText_eq_ok_iff.1 htext
    obtain ⟨rfl, rfl⟩ := h.unique hreads
    exact ⟨hroot, rfl, hparse, hdepth, fun hi => hne hi.1 hi.2⟩
  · rintro ⟨hroot, rfl, hparse, hdepth, hne⟩
    exact ⟨text, sourceText_eq_ok_iff.2 ⟨h, hroot⟩, hparse, fun hr hi => hne ⟨hr, hi⟩, hdepth⟩

/-- Paths are the dotted lists of names, and they are read without loss. Targets and sources are the
paths behind the markers that their scope allows, with its limits on depth and first name. -/
theorem resolution_follows_grammar :
    (∀ raw, ((∃ p, FieldPath.parse raw = .ok p) ↔ ∃ names, Dotted raw names) ∧
      ∀ p names, FieldPath.parse raw = .ok p → Dotted raw names →
        p.segments = names ∧ p.text = raw) ∧
    (∀ raw p, impression.resolveTarget raw = .ok p ↔
      ¬ Carries requestMarker raw ∧ ¬ Carries extMarker raw ∧
        ∃ text, Unmarked impMarker raw text ∧ FieldPath.parse text = .ok p ∧ p.depth ≤ 2) ∧
    (∀ raw p, request.resolveTarget raw = .ok p ↔
      ¬ Carries impMarker raw ∧ ¬ Carries extMarker raw ∧
        ∃ text, Unmarked requestMarker raw text ∧ FieldPath.parse text = .ok p ∧ p.depth ≤ 3 ∧
          p.first ≠ "imp") ∧
    ∀ (scope : Scope) raw, ∃ root text, scope.Reads raw root text ∧
      (∀ root' text', scope.Reads raw root' text' → root' = root ∧ text' = text) ∧
      ∀ target x, scope.resolveSource target raw = .ok x ↔ (root = .impExt ∨ root = scope.root) ∧
        x.root = root ∧ FieldPath.parse text = .ok x.path ∧ x.path.depth ≤ 3 ∧
          ¬ (root = .request ∧ x.path.first = "imp") := by
  refine ⟨fun raw => ⟨?_, ?_⟩, fun raw p => resolveTarget_impression_eq_ok_iff,
    fun raw p => resolveTarget_request_eq_ok_iff, fun scope raw => ?_⟩
  · constructor
    · rintro ⟨p, hp⟩
      exact ⟨_, FieldPath.parse_eq_ok_iff.1 hp⟩
    · rintro ⟨names, hnames⟩
      obtain ⟨p, hp, -⟩ := hnames.exists_parse
      exact ⟨p, hp⟩
  · intro p names hp hnames
    obtain ⟨q, hq, rfl⟩ := hnames.exists_parse
    obtain rfl : p = q := Except.ok.inj (hp.symm.trans hq)
    exact ⟨rfl, (p.text_eq).trans hnames.2.2.symm⟩
  · obtain ⟨root, text, hreads⟩ := scope.exists_reads raw
    exact ⟨root, text, hreads, fun _ _ => hreads.unique, fun target x =>
      hreads.resolveSource_eq_ok_iff target⟩

theorem resolution_follows_grammar_sample :
    let names := ["site", "content", "title"]
    ∃ p x, FieldPath.parse "site.content.title" = .ok p ∧ Dotted "site.content.title" names ∧
      p.segments = names ∧ p.text = "site.content.title" ∧
      request.resolveTarget "bidRequest.site.content.title" = .ok p ∧
      impression.Reads "impExt.imp" .impExt "imp" ∧
      impression.resolveSource "imp.tagid" "impExt.imp" = .ok x ∧ x.path = ⟨"imp", []⟩ := by
  intro names
  obtain ⟨hparse, -, htarget, hsource⟩ := resolution_follows_grammar
  have hdotted : Dotted "site.content.title" names := by
    refine ⟨by decide, ?_, by decide⟩
    simp only [← FieldPath.isName_toList_iff]
    decide
  obtain ⟨hiff, hkept⟩ := hparse "site.content.title"
  obtain ⟨p, hp⟩ := hiff.2 ⟨names, hdotted⟩
  obtain ⟨hsegments, htext⟩ := hkept p names hp hdotted
  have hpath : p = ⟨"site", ["content", "title"]⟩ := FieldPath.segments_inj.1 hsegments
  have hfree : ∀ marker, afterMarker? marker "bidRequest.site.content.title" = none →
      ¬ Carries marker "bidRequest.site.content.title" := fun _ => afterMarker?_eq_none_iff.1
  have hresolved : request.resolveTarget "bidRequest.site.content.title" = .ok p :=
    (htarget _ p).2 ⟨hfree _ (by decide), hfree _ (by decide), _, .inl (by decide), hp,
      by rw [hpath]; decide, by rw [hpath]; decide⟩
  obtain ⟨root, text, -, hunique, hread⟩ := hsource .impression "impExt.imp"
  have hext : impression.Reads "impExt.imp" .impExt "imp" := .inl (by decide)
  obtain ⟨rfl, rfl⟩ := hunique .impExt "imp" hext
  have himp : FieldPath.parse "imp" = .ok ⟨"imp", []⟩ := by decide
  have hx := (hread "imp.tagid" ⟨.impExt, ⟨"imp", []⟩⟩).2
    ⟨.inl rfl, rfl, himp, by decide, by decide⟩
  exact ⟨p, _, hp, hdotted, hsegments, htext, hresolved, hext, hx, rfl⟩

end Scope

end AdapterForge

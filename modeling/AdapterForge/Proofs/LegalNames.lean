import AdapterForge.Proofs.Identifiers
import AdapterForge.Proofs.LocalNames
import AdapterForge.Proofs.PathGrammar
import AdapterForge.Proofs.SetFields

/-!
Which descriptions make Java that is legal name by name. The checks of a description leave gaps: the
bidder's name may start with a digit, or be a reserved word in small letters, params may have any
names, and a field of a model object may be a reserved word. Nothing else goes wrong.
-/
namespace AdapterForge

structure FieldPath.Legal (p : FieldPath) : Prop where
  names : ∀ k ∈ p.segments, IsName k
  fields : ∀ k ∈ modelFields p.segments, k ∉ Java.reservedWords

namespace FieldPath

variable {p q : FieldPath} {k : String}

theorem Legal.above (h : q.Legal) (hpq : p.segments <+: q.segments) : p.Legal :=
  ⟨fun k hk => h.names k (hpq.subset hk), fun k hk => h.fields k (mem_modelFields_mono hpq hk)⟩

theorem Legal.isIdentifier (h : p.Legal) (hk : k ∈ modelFields p.segments) : Java.IsIdentifier k :=
  ⟨h.names k (mem_of_mem_modelFields hk), h.fields k hk⟩

theorem Legal.isIdentifier_variable (h : p.Legal) {v : FieldPath} (hv : v ∈ Java.variablesAt p) :
    Java.IsIdentifier (Java.localVar v) := by
  rcases Java.mem_variablesAt.1 hv with rfl | rfl | ⟨-, rfl⟩
  · exact Java.isIdentifier_localVar h.names (h.fields _ (mem_modelFields_cons.2 (.inl rfl)))
  · rw [← Java.builderVar_eq]
    exact Java.isIdentifier_builderVar h.names
  · rw [← Java.nodeVar_eq]
    exact Java.isIdentifier_nodeVar h.names

theorem Legal.isIdentifier_modelName (h : p.Legal) {name : String}
    (hname : (ObjectKind.ofPath p).modelName? = some name) : Java.IsIdentifier name := by
  obtain ⟨names, k, hp⟩ := (List.eq_nil_or_concat p.segments).resolve_left p.segments_ne_nil
  rw [List.concat_eq_append] at hp
  have hkind : ObjectKind.ofPath p = .ofField k (ObjectKind.along none names) := by
    rw [ObjectKind.ofPath, hp, ObjectKind.along_append]
    rfl
  rw [hkind, ObjectKind.ofField] at hname
  split at hname
  · cases hname
  · next hjson =>
    rw [not_or] at hjson
    have hext : "ext" ∉ names := by
      rw [← throughExt_iff, throughExt]
      simpa using hjson.2
    obtain rfl := Option.some.inj hname
    have hk : k ∈ modelFields p.segments := mem_modelFields_of_prefix (hp ▸ List.prefix_rfl) hext
    exact Java.isIdentifier_className (h.names k (mem_of_mem_modelFields hk)) (h.fields k hk)

theorem names_of_parse {raw : String} (h : parse raw = .ok p) : ∀ k ∈ p.segments, IsName k := by
  obtain ⟨-, hnames, -⟩ := parse_eq_ok_iff.1 h
  exact fun k hk => isName_toList_iff.2 (hnames k hk)

end FieldPath

theorem Rule.names_of_resolve {scope : Scope} {r : Rule} {b : Assignment}
    (h : r.resolve scope = .ok b) : (∀ k ∈ b.target.segments, IsName k) ∧
      ∀ x, b.value = .copy x → ∀ k ∈ x.path.segments, IsName k := by
  obtain ⟨htarget, hvalue⟩ := resolve_eq_ok h
  obtain ⟨⟨text, htext⟩, -⟩ := Scope.resolveTarget_eq_ok htarget
  refine ⟨FieldPath.names_of_parse htext, fun x hx => ?_⟩
  rcases hvalue with ⟨v, -, hv⟩ | ⟨s, y, -, hs, hy⟩
  · rw [hv] at hx
    cases hx
  · obtain rfl : y = x := ValueSource.copy.inj (hy.symm.trans hx)
    obtain ⟨⟨text, htext⟩, -⟩ := Scope.resolveSource_eq_ok hs
    exact FieldPath.names_of_parse htext

theorem Adapter.names_of_ofDescription {d : Description} {a : Adapter}
    (h : ofDescription d = .ok a) {b : Assignment} (hb : b ∈ a.imp ++ a.request) :
    (∀ k ∈ b.target.segments, IsName k) ∧
      ∀ x, b.value = .copy x → ∀ k ∈ x.path.segments, IsName k := by
  obtain ⟨himp, hrequest⟩ := exists_rule_of_mem h
  rcases List.mem_append.1 hb with hb | hb
  · obtain ⟨r, -, hr, -⟩ := himp b hb
    exact r.names_of_resolve hr
  · obtain ⟨r, -, hr, -⟩ := hrequest b hb
    exact r.names_of_resolve hr

theorem Adapter.names_of_mem_sources {d : Description} {a : Adapter} (h : ofDescription d = .ok a)
    {x : Source} (hx : x ∈ a.sources) : ∀ k ∈ x.path.segments, IsName k := by
  obtain ⟨b, hb, hcopy⟩ := mem_sources_iff.1 hx
  exact (names_of_ofDescription h hb).2 x hcopy

namespace Plan

open Java

variable {scope : Scope} {l : List Assignment} {p : Plan} {root : ExpectedRoot}
  {os : List Override}

theorem exists_legal_of_startedKind (h : ofAssignments scope l = .ok p)
    (hos : p.overrides root = .ok os) (hlegal : ∀ b ∈ p.assignments, b.target.Legal)
    {kind : ObjectKind} (hkind : kind ∈ startedKinds (statementsOf .root os)) :
    ∃ path : FieldPath, path.Legal ∧ kind = .ofPath path := by
  obtain ⟨s, hs, hkind⟩ := List.mem_filterMap.1 hkind
  cases s with
  | locateExt => cases hkind
  | assign b k x => cases hkind
  | commit path => cases hkind
  | start path started =>
    obtain rfl := Option.some.inj hkind
    have hpath : path ∈ startedPaths (statementsOf .root os) := List.mem_filterMap.2 ⟨_, hs, rfl⟩
    obtain ⟨-, b, hb, habove, -⟩ := ((pathsAbove_overrides h hos).mem_iff path).1 hpath
    exact ⟨path, (hlegal b hb).above habove, (overrides_placed hos).start_kind rfl hs⟩

theorem isIdentifier_methodNames (h : ofAssignments scope l = .ok p)
    (hlegal : ∀ b ∈ p.assignments, b.target.Legal) {q : Program} (hq : p.program = .ok q) :
    ∀ k ∈ methodNames q, IsIdentifier k := by
  obtain ⟨q', paths, hq', -, hpaths, hnames⟩ := methodNames_program h
  obtain rfl : q' = q := Except.ok.inj (hq'.symm.trans hq)
  have hfixed : ∀ s r, ∀ v ∈ fixedPaths s r, IsIdentifier (localVar v) := by
    intro s r
    cases s <;> cases r <;> decide +kernel
  intro k hk
  rw [hnames] at hk
  obtain ⟨v, hv, rfl⟩ := List.mem_map.1 hk
  rcases List.mem_append.1 hv with hv | hv
  · exact hfixed _ _ v hv
  · obtain ⟨path, hpath, hv⟩ := List.mem_flatMap.1 hv
    obtain ⟨b, hb, hnoop, habove, -⟩ := (hpaths path).1 hpath
    exact ((hlegal b ((mem_assignments h).2 ⟨hb, hnoop⟩)).above habove).isIdentifier_variable hv

end Plan

namespace Adapter

/-- The classes of a bidder, and those of the objects that it rebuilds or samples. -/
def classNames (a : Adapter) (c : Compiled) : List String :=
  [a.bidderClass, a.testClass] ++ (if a.params.isEmpty then [] else [a.extClass]) ++
    (c.modelNames ++ a.fixture.modelNames)

/-- The fields of the extension, the adapter under test, and the variables of both methods. -/
def variableNames (a : Adapter) (c : Compiled) : List String :=
  a.params.map (·.name) ++ Java.lowerFirst a.bidderClass :: c.programs.flatMap Java.methodNames

/-- The setters that are called in the methods, the expected request and the fixture. -/
def setterNames (a : Adapter) (c : Compiled) : List String :=
  c.programs.flatMap (fun q => Java.setters q.statements) ++ (Java.objectSetters c.expected ++
    (Java.customizerSetters a.fixture.impFields ++ Java.customizerSetters a.fixture.requestFields))

def getterNames (a : Adapter) : List String :=
  ((a.imp ++ a.request).flatMap (·.target.segments) ++ a.sources.flatMap (·.path.segments)).map
    Java.getter

/-- The names that a description puts into its Java, the package of the bidder first. -/
def javaNames (a : Adapter) (c : Compiled) : List String :=
  a.lowerName :: (a.classNames c ++ (a.variableNames c ++ (a.setterNames c ++ a.getterNames)))

structure HasJavaNames (a : Adapter) : Prop where
  name : startsWithDigit a.name = false
  package : a.lowerName ∉ Java.reservedWords
  params : ∀ p ∈ a.params, Java.IsIdentifier p.name
  targets : ∀ b ∈ a.imp ++ a.request, b.isNoop = false →
    ∀ k ∈ modelFields b.target.segments, k ∉ Java.reservedWords
  sources : ∀ x ∈ a.sources, x.root ≠ .impExt →
    ∀ k ∈ modelFields x.path.segments, k ∉ Java.reservedWords

section

variable {d : Description} {a : Adapter} {c : Compiled} {k : String}

theorem startsWithDigit_bidderClass (hw : IsWord a.name) :
    startsWithDigit a.bidderClass = startsWithDigit a.name := by
  rw [bidderClass, Java.bidderClass, hw.capitalize.startsWithDigit_append,
    hw.startsWithDigit_capitalize]

theorem isIdentifier_bidderClass (hw : IsWord a.name) (hname : startsWithDigit a.name = false) :
    Java.IsIdentifier a.bidderClass := by
  have hcapital : IsName (Java.capitalize a.name) :=
    hw.capitalize.isName_iff.2 (hw.startsWithDigit_capitalize.trans hname)
  exact Java.isIdentifier_append hcapital (by decide) (c := 'B') (by decide) (by decide)

theorem isIdentifier_extClass (hw : IsWord a.name) : Java.IsIdentifier a.extClass := by
  have hext : IsName "ExtImp" := by decide
  have hcapital : ∀ c ∈ (Java.capitalize a.name).toList, FieldPath.isNameChar c = true :=
    hw.capitalize.isNameChar
  refine ⟨hext.append hcapital, Java.not_reserved (c := 'E') ?_ ?_ (by decide)⟩
  · simp [extClass, Java.extClass]
  · simp [extClass, Java.extClass]

theorem isIdentifier_adapterVariable (hw : IsWord a.name) (hname : startsWithDigit a.name = false) :
    Java.IsIdentifier (Java.lowerFirst a.bidderClass) := by
  obtain ⟨hlower, hdigit⟩ := (isWord_bidderClass hw).lowerFirst
  obtain ⟨c, r, hcapital⟩ := List.exists_cons_of_ne_nil hw.capitalize.toList_ne_nil
  have hclass : a.bidderClass.toList = c :: (r ++ "Bidder".toList) := by
    rw [bidderClass, Java.bidderClass, String.toList_append, hcapital, List.cons_append]
  have hlist := IsWord.toList_lowerFirst hclass
  have hname : startsWithDigit (Java.lowerFirst a.bidderClass) = false := by
    rw [hdigit, startsWithDigit_bidderClass hw, hname]
  refine ⟨hlower.isName_iff.2 hname, Java.not_reserved (c := 'B') ?_ ?_ (by decide)⟩
  · simp [hlist]
  · simp [hlist]

theorem legal_of_mem_assignments (ha : ofDescription d = .ok a) (h : a.HasJavaNames)
    {b : Assignment} (hb : b ∈ a.imp ++ a.request) (hnoop : b.isNoop = false) : b.target.Legal :=
  ⟨(names_of_ofDescription ha hb).1, h.targets b hb hnoop⟩

theorem legal_of_mem_sources (ha : ofDescription d = .ok a) (h : a.HasJavaNames) {x : Source}
    (hx : x ∈ a.sources) (hroot : x.root ≠ .impExt) : x.path.Legal :=
  ⟨names_of_mem_sources ha hx, h.sources x hx hroot⟩

theorem legal_targets (ha : ofDescription d = .ok a) (h : a.HasJavaNames) {scope : Scope}
    {l : List Assignment} (hl : l ⊆ a.imp ++ a.request) {p : Plan}
    (hp : Plan.ofAssignments scope l = .ok p) : ∀ b ∈ p.assignments, b.target.Legal := by
  intro b hb
  obtain ⟨hb, hnoop⟩ := (Plan.mem_assignments hp).1 hb
  exact legal_of_mem_assignments ha h (hl hb) hnoop

theorem mem_programOf_iff {p : Plan} {os : List Override} {q : Program} :
    q ∈ (programOf p os).toList ↔
      p.isEmpty = false ∧ q = ⟨p.scope, p.located ++ statementsOf .root os⟩ := by
  unfold programOf
  cases p.isEmpty <;> simp

theorem mem_startedKinds_programOf {p : Plan} {os : List Override} {kind : ObjectKind}
    (h : kind ∈ (programOf p os).toList.flatMap (·.startedKinds)) :
    kind ∈ startedKinds (statementsOf .root os) := by
  obtain ⟨q, hq, hkind⟩ := List.mem_flatMap.1 h
  obtain ⟨-, rfl⟩ := mem_programOf_iff.1 hq
  rwa [← p.startedKinds_located]

theorem isIdentifier_modelNames (ha : ofDescription d = .ok a) (hc : a.compile = .ok c)
    (h : a.HasJavaNames) (hk : k ∈ c.modelNames) : Java.IsIdentifier k := by
  obtain ⟨imp, request, first, rest, himp, hrequest, hfirst, hrest, rfl⟩ := compile_eq_ok hc
  obtain ⟨kind, hkind, hname⟩ := List.mem_filterMap.1 hk
  have hstarted : kind ∈ startedKinds (statementsOf .root first) ++
      startedKinds (statementsOf .root rest) := by
    rcases List.mem_append.1 hkind with hkind | hkind
    · rw [Compiled.programs, List.flatMap_append] at hkind
      rw [List.mem_append] at hkind ⊢
      exact hkind.imp mem_startedKinds_programOf mem_startedKinds_programOf
    · exact (mem_stepKinds_expectationOf hfirst (Plan.overrides_placed hrest)).1 hkind
  obtain ⟨path, hlegal, rfl⟩ : ∃ path : FieldPath, path.Legal ∧ kind = .ofPath path := by
    rcases List.mem_append.1 hstarted with hkind | hkind
    · have hlegal := legal_targets ha h (List.subset_append_left _ _) himp
      exact Plan.exists_legal_of_startedKind himp hfirst hlegal hkind
    · have hlegal := legal_targets ha h (List.subset_append_right _ _) hrequest
      exact Plan.exists_legal_of_startedKind hrequest hrest hlegal hkind
  exact hlegal.isIdentifier_modelName hname

theorem legal_of_mem_paths (ha : ofDescription d = .ok a) (h : a.HasJavaNames) {p : FieldPath}
    (hp : p ∈ a.impPaths ++ a.requestPaths) : p.Legal := by
  rcases List.mem_append.1 hp with hp | hp
  · obtain ⟨x, hx, hroot, -, rfl⟩ := mem_impPaths_iff.1 hp
    exact legal_of_mem_sources ha h hx (by simp [hroot])
  · obtain ⟨x, hx, hroot, rfl⟩ := mem_requestPaths_iff.1 hp
    exact legal_of_mem_sources ha h hx (by simp [hroot])

theorem path_of_mem_fixture {s : SampleField} (hs : s ∈ a.fixture.fields) :
    s.path ∈ a.impPaths ++ a.requestPaths := by
  rcases List.mem_append.1 hs with hs | hs
  · exact List.mem_append_left _ (mem_innermost_iff.1 (path_mem_innermost hs)).1
  · exact List.mem_append_right _ (mem_innermost_iff.1 (path_mem_innermost hs)).1

theorem isIdentifier_fixtureModelNames (ha : ofDescription d = .ok a) (h : a.HasJavaNames)
    (hk : k ∈ a.fixture.modelNames) : Java.IsIdentifier k := by
  obtain ⟨kind, hkind, hname⟩ := List.mem_filterMap.1 hk
  obtain ⟨s, hs, hkind⟩ := List.mem_flatMap.1 hkind
  obtain ⟨n, -, rfl⟩ := List.mem_map.1 hkind
  have hlegal := legal_of_mem_paths ha h (path_of_mem_fixture hs)
  refine (hlegal.above ?_).isIdentifier_modelName hname
  rw [FieldPath.segments_upTo _ (Nat.succ_pos n)]
  exact List.take_prefix _ _

theorem mem_setters_programOf {p : Plan} {root : ExpectedRoot} {os : List Override}
    (hos : p.overrides root = .ok os) :
    k ∈ (programOf p os).toList.flatMap (fun q => Java.setters q.statements) ↔
      ∃ b ∈ p.assignments, k ∈ modelFields b.target.segments := by
  rw [← Plan.mem_setters hos, List.mem_flatMap]
  constructor
  · rintro ⟨q, hq, hk⟩
    obtain ⟨-, rfl⟩ := mem_programOf_iff.1 hq
    exact hk
  · intro hk
    refine ⟨_, mem_programOf_iff.2 ⟨?_, rfl⟩, hk⟩
    obtain ⟨b, hb, -⟩ := (Plan.mem_setters hos).1 hk
    rw [← Bool.not_eq_true]
    intro he
    rw [Plan.assignments_of_isEmpty he] at hb
    cases hb

theorem mem_setterNames_iff (hc : a.compile = .ok c) :
    k ∈ a.setterNames c ↔ (∃ b ∈ a.imp, b.isNoop = false) ∧ k = "imp" ∨
      (∃ b ∈ a.imp ++ a.request, b.isNoop = false ∧ k ∈ modelFields b.target.segments) ∨
      ∃ p ∈ a.impPaths ++ a.requestPaths, k ∈ modelFields p.segments := by
  obtain ⟨imp, request, first, rest, himp, hrequest, hfirst, hrest, rfl⟩ := compile_eq_ok hc
  have hwrites : (∃ b ∈ imp.assignments ++ request.assignments, k ∈ modelFields b.target.segments) ↔
      ∃ b ∈ a.imp ++ a.request, b.isNoop = false ∧ k ∈ modelFields b.target.segments := by
    simp only [List.mem_append, Plan.mem_assignments himp, Plan.mem_assignments hrequest,
      ← or_and_right, and_assoc]
  have hprograms : k ∈ (programOf imp first).toList.flatMap (fun q => Java.setters q.statements) ++
      (programOf request rest).toList.flatMap (fun q => Java.setters q.statements) ↔
      ∃ b ∈ imp.assignments ++ request.assignments, k ∈ modelFields b.target.segments := by
    rw [List.mem_append, mem_setters_programOf hfirst, mem_setters_programOf hrest]
    simp only [List.mem_append, or_and_right, exists_or]
  have hsamples : k ∈ Java.customizerSetters a.fixture.impFields ++
      Java.customizerSetters a.fixture.requestFields ↔
      ∃ p ∈ a.impPaths ++ a.requestPaths, k ∈ modelFields p.segments := by
    rw [List.mem_append, fixture, Java.mem_customizerSetters, Java.mem_customizerSetters]
    simp only [List.mem_append, or_and_right, exists_or]
  have himpression : imp.isEmpty = false ↔ ∃ b ∈ a.imp, b.isNoop = false := by
    rw [← Bool.not_eq_true, Plan.isEmpty_iff himp]
    simp only [not_forall, Bool.not_eq_true, exists_prop]
  rw [setterNames, Compiled.programs, List.flatMap_append, List.mem_append, hprograms,
    List.mem_append, Java.mem_objectSetters_expectationOf hfirst hrest, hsamples, hwrites,
    himpression, or_assoc, or_left_comm, or_self_left]

theorem isIdentifier_variableNames (ha : ofDescription d = .ok a) (hc : a.compile = .ok c)
    (hw : IsWord a.name) (h : a.HasJavaNames) (hk : k ∈ a.variableNames c) :
    Java.IsIdentifier k := by
  obtain ⟨imp, request, first, rest, himp, hrequest, hfirst, hrest, rfl⟩ := compile_eq_ok hc
  rcases List.mem_append.1 hk with hk | hk
  · obtain ⟨p, hp, rfl⟩ := List.mem_map.1 hk
    exact h.params p hp
  · rcases List.mem_cons.1 hk with rfl | hk
    · exact isIdentifier_adapterVariable hw h.name
    · obtain ⟨q, hq, hk⟩ := List.mem_flatMap.1 hk
      rcases List.mem_append.1 hq with hq | hq
      · obtain ⟨-, rfl⟩ := mem_programOf_iff.1 hq
        have hlegal := legal_targets ha h (List.subset_append_left _ _) himp
        exact Plan.isIdentifier_methodNames himp hlegal (Plan.program_of_overrides hfirst) k hk
      · obtain ⟨-, rfl⟩ := mem_programOf_iff.1 hq
        have hlegal := legal_targets ha h (List.subset_append_right _ _) hrequest
        exact Plan.isIdentifier_methodNames hrequest hlegal (Plan.program_of_overrides hrest) k hk

theorem isIdentifier_getterNames (ha : ofDescription d = .ok a) (hk : k ∈ a.getterNames) :
    Java.IsIdentifier k := by
  obtain ⟨name, hname, rfl⟩ := List.mem_map.1 hk
  apply Java.isIdentifier_getter
  rcases List.mem_append.1 hname with hname | hname
  · obtain ⟨b, hb, hname⟩ := List.mem_flatMap.1 hname
    exact (names_of_ofDescription ha hb).1 name hname
  · obtain ⟨x, hx, hname⟩ := List.mem_flatMap.1 hname
    exact names_of_mem_sources ha hx name hname

theorem isIdentifier_classNames (ha : ofDescription d = .ok a) (hc : a.compile = .ok c)
    (hw : IsWord a.name) (h : a.HasJavaNames) (hk : k ∈ a.classNames c) : Java.IsIdentifier k := by
  have hclass := isIdentifier_bidderClass hw h.name
  rcases List.mem_append.1 hk with hk | hk
  · rcases List.mem_append.1 hk with hk | hk
    · rcases List.mem_pair.1 hk with rfl | rfl
      · exact hclass
      · exact Java.isIdentifier_append hclass.1 (by decide) (c := 'T') (by decide) (by decide)
    · split at hk
      · cases hk
      · obtain rfl := List.mem_singleton.1 hk
        exact isIdentifier_extClass hw
  · rcases List.mem_append.1 hk with hk | hk
    · exact isIdentifier_modelNames ha hc h hk
    · exact isIdentifier_fixtureModelNames ha h hk

/-- Each of the setters is called in one of the generated files. -/
theorem calls_files (config : CodegenConfig) (hk : k ∈ a.setterNames c) :
    ∃ f ∈ a.files config c, Java.Calls k f.contents := by
  rcases List.mem_append.1 hk with hk | hk
  · refine ⟨a.adapterFile config c, ?_, (Java.calls_adapterBody _ hk).append_left _⟩
    exact List.mem_append_left _ List.mem_cons_self
  · refine ⟨a.testFile config c, ?_, (Java.calls_testBody _ hk).append_left _⟩
    exact List.mem_append_right _ List.mem_cons_self

theorem isIdentifier_setterNames (ha : ofDescription d = .ok a) (hc : a.compile = .ok c)
    (h : a.HasJavaNames) (hk : k ∈ a.setterNames c) : Java.IsIdentifier k := by
  rcases (mem_setterNames_iff hc).1 hk with ⟨-, rfl⟩ | ⟨b, hb, hnoop, hk⟩ | ⟨p, hp, hk⟩
  · decide
  · exact (legal_of_mem_assignments ha h hb hnoop).isIdentifier hk
  · exact (legal_of_mem_paths ha h hp).isIdentifier hk

/-- What is sampled is set field by field, but for the extension of the impression. -/
theorem mem_setterNames_of_source (hc : a.compile = .ok c) {x : Source} (hx : x ∈ a.sources)
    (hroot : x.root ≠ .impExt) (hk : k ∈ modelFields x.path.segments) :
    k = "ext" ∨ k ∈ a.setterNames c := by
  have hset : x.path ∈ a.impPaths ++ a.requestPaths → k ∈ a.setterNames c := fun hp =>
    (mem_setterNames_iff hc).2 (.inr (.inr ⟨x.path, hp, hk⟩))
  cases hx' : x.root with
  | impExt => exact absurd hx' hroot
  | request =>
    have hpath := mem_requestPaths_iff.2 ⟨x, hx, hx', rfl⟩
    exact .inr (hset (List.mem_append_right _ hpath))
  | imp =>
    by_cases hfirst : x.path.first = "ext"
    · left
      rcases mem_modelFields_cons.1 hk with rfl | ⟨hne, -⟩
      · exact hfirst
      · exact absurd hfirst hne
    · have hpath := mem_impPaths_iff.2 ⟨x, hx, hx', hfirst, rfl⟩
      exact .inr (hset (List.mem_append_left _ hpath))

end

/-- The Java of a description is legal, name by name, exactly when its names are. -/
theorem javaNames_legal_iff {d : Description} {a : Adapter} {c : Compiled} (hd : d.fault? = none)
    (ha : ofDescription d = .ok a) (hc : a.compile = .ok c) :
    (∀ k ∈ a.javaNames c, Java.IsIdentifier k) ↔ a.HasJavaNames := by
  have hw : IsWord a.name := by
    rw [name, description_eq ha]
    exact Description.isWord_name hd
  simp only [javaNames, List.forall_mem_cons, List.forall_mem_append]
  constructor
  · rintro ⟨hpackage, hclasses, hvariables, hsetters, -⟩
    have hclass : Java.IsIdentifier a.bidderClass := hclasses _ (by simp [classNames])
    refine ⟨?_, hpackage.2, ?_, ?_, ?_⟩
    · rw [← startsWithDigit_bidderClass hw]
      exact (isWord_bidderClass hw).isName_iff.1 hclass.1
    · exact fun p hp => hvariables _ (List.mem_append_left _ (List.mem_map_of_mem hp))
    · intro b hb hnoop k hk
      exact (hsetters k ((mem_setterNames_iff hc).2 (.inr (.inl ⟨b, hb, hnoop, hk⟩)))).2
    · intro x hx hroot k hk
      rcases mem_setterNames_of_source hc hx hroot hk with rfl | hk
      · decide
      · exact (hsetters k hk).2
  · intro h
    refine ⟨⟨?_, h.package⟩, ?_, ?_, ?_, ?_⟩
    · exact hw.lower.isName_iff.2 (hw.startsWithDigit_lower.trans h.name)
    · exact fun k => isIdentifier_classNames ha hc hw h
    · exact fun k => isIdentifier_variableNames ha hc hw h
    · exact fun k => isIdentifier_setterNames ha hc h
    · exact fun k => isIdentifier_getterNames ha

theorem javaNames_legal_sample :
    ∃ c, fixtureAdapter.compile = .ok c ∧ (∀ k ∈ fixtureAdapter.javaNames c, Java.IsIdentifier k) ∧
      fixtureAdapter.HasJavaNames := by
  obtain ⟨c, hc⟩ : ∃ c, fixtureAdapter.compile = .ok c := ⟨_, rfl⟩
  have hd : fixtureAdapter.description.fault? = none := by decide +kernel
  have hiff := javaNames_legal_iff hd rfl hc
  have hlegal : ∀ k ∈ fixtureAdapter.javaNames c, Java.IsIdentifier k := by
    cases hc
    decide +kernel
  exact ⟨c, hc, hlegal, hiff.1 hlegal⟩

/-- A description that passes all checks and puts a name into its Java that Java does not accept. -/
def MakesIllegal (d : Description) (k : String) : Prop :=
  d.fault? = none ∧ ∃ a c, ofDescription d = .ok a ∧ a.compile = .ok c ∧ k ∈ a.javaNames c ∧
    ¬ Java.IsIdentifier k

/-- A class that starts with a digit, a package and a setter that are reserved words, and a field with
a dash. -/
theorem javaNames_illegal :
    MakesIllegal { fixtureDescription [] with name := "1abc" } "1abcBidder" ∧
      MakesIllegal { fixtureDescription [] with name := "class" } "class" ∧
      MakesIllegal (fixtureDescription [⟨"imp.class", some (.string "c"), none⟩]) "class" ∧
      MakesIllegal { fixtureDescription [] with params := [⟨"placement-id", .string⟩] }
        "placement-id" :=
  ⟨⟨by decide +kernel, _, _, rfl, rfl, by decide +kernel⟩,
    ⟨by decide +kernel, _, _, rfl, rfl, by decide +kernel⟩,
    ⟨by decide +kernel, _, _, rfl, rfl, by decide +kernel⟩,
    ⟨by decide +kernel, _, _, rfl, rfl, by decide +kernel⟩⟩

end Adapter

end AdapterForge

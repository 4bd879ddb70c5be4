import AdapterForge.Java.TestClass
import AdapterForge.Project.Config
import AdapterForge.Proofs.ExpectedLines
import AdapterForge.Proofs.FixtureNames
import AdapterForge.Proofs.MethodNames
import AdapterForge.Proofs.SampleCoverage

/-!
Generated Java imports what it names. The names of the methods of an adapter, and of the fixture and the
expected request of its test, are words of the language, variables in scope, or imported by the file.
-/
namespace AdapterForge

namespace Java

/-- What a name that stands by itself can be. -/
inductive Resolves (InScope Imported : String → Prop) (u : NameUse) : Prop where
  | word (h : u.name ∈ javaWords)
  | inScope (hplain : u.isType = false) (h : InScope u.name)
  | imported (h : Imported u.name)

def AllResolve (InScope Imported : String → Prop) (s : String) : Prop :=
  ∀ u ∈ namesIn s, Resolves InScope Imported u

def mapperField : String := "    private static final ObjectMapper mapper = new ObjectMapper();"

def DeclaresMapper (body : String) : Prop :=
  ∃ before after rest, body = unlines (before ++ mapperField :: after) ++ rest

namespace Imports

variable {i : Imports} {k : String}

theorem library_mem_lines (h : k ∈ i.libraries) : importLine k ∈ i.lines :=
  List.mem_append_left _ (List.mem_append_left _ (List.mem_cons_of_mem _ (List.mem_map_of_mem h)))

theorem mem_block {l : List String} (h : k ∈ l) : k ∈ block l := by
  rw [block, if_neg (by simpa using List.ne_nil_of_mem h)]
  exact List.mem_cons_of_mem _ h

theorem standard_mem_lines (h : k ∈ i.standard) : importLine k ∈ i.lines :=
  List.mem_append_left _ (List.mem_append_right _ (mem_block (List.mem_map_of_mem h)))

theorem member_mem_lines (h : k ∈ i.members) : staticImportLine k ∈ i.lines :=
  List.mem_append_right _ (mem_block (List.mem_map_of_mem h))

end Imports

end Java

namespace Adapter

open Java

/-- The names that are imported besides those of model classes, with the lines that import them. -/
def importTable (config : CodegenConfig) (a : Adapter) : List (String × String) :=
  [("ImpWithExt", importLine (config.frameworkClass "model.ImpWithExt")),
    (a.extClass, importLine (a.extPackage config ++ "." ++ a.extClass)),
    ("ObjectMapper", importLine jsonMapperClass), ("JsonNode", importLine jsonNodeClass),
    ("ObjectNode", importLine objectNodeClass), ("List", importLine "java.util.List"),
    ("Optional", importLine "java.util.Optional"),
    ("identity", staticImportLine "java.util.function.Function.identity"),
    ("singletonList", staticImportLine "java.util.Collections.singletonList")]

def Imported (config : CodegenConfig) (a : Adapter) (i : Imports) (name : String) : Prop :=
  importLine (config.modelClass name) ∈ i.lines ∨
    ∃ line ∈ i.lines, (name, line) ∈ a.importTable config

instance (config : CodegenConfig) (a : Adapter) (i : Imports) (name : String) :
    Decidable (a.Imported config i name) := inferInstanceAs (Decidable (_ ∨ _))

/-- What can be used in a method of an adapter without an import: the method itself, its variables, and
the mapper if the class declares it. -/
def MethodScope (config : CodegenConfig) (a : Adapter) (c : Compiled) (method : String) (q : Program)
    (name : String) : Prop :=
  name = method ∨ name ∈ methodNames q ∨
    name = "mapper" ∧ DeclaresMapper (adapterBody (a.context config) a c)

/-- The names of generated Java are resolved, fragment by fragment. The test inherits its mapper. -/
structure ImportsNames (config : CodegenConfig) (a : Adapter) (c : Compiled) : Prop where
  mapperField : c.usesJson = true →
    AllResolve (· = "mapper") (a.Imported config (adapterImports config a c)) mapperField
  modifyImp : ∀ q ∈ c.imp, AllResolve (a.MethodScope config c "modifyImp" q)
    (a.Imported config (adapterImports config a c)) (modifyImp q (a.context config))
  modifyRequest : ∀ q ∈ c.request, AllResolve (a.MethodScope config c "modifyRequest" q)
    (a.Imported config (adapterImports config a c)) (modifyRequest q (a.context config))
  impCustomizer : AllResolve (· ∈ ["impBuilder", "mapper"])
    (a.Imported config (testImports config a c)) a.fixture.impCustomizer
  requestCustomizer : AllResolve (· ∈ ["requestBuilder", "mapper"])
    (a.Imported config (testImports config a c)) a.fixture.requestCustomizer
  /-- Each param is set by its name when there are many. -/
  extension : (builderThreshold < a.params.length → ∀ p ∈ a.params, IsName p.name) →
    AllResolve (· = "mapper") (a.Imported config (testImports config a c))
      (extValue (a.context config) a.fixture.ext)
  expected : AllResolve (· ∈ ["bidRequest", "expectedRequest", "node", "mapper"])
    (a.Imported config (testImports config a c)) (Java.expectedRequest c.expected (a.context config) 2)

section

variable {config : CodegenConfig} {d : Description} {a : Adapter} {c : Compiled} {name : String}
  {InScope : String → Prop}

namespace Imported

variable {i : Imports} {k : String}

theorem model (h : config.modelClass name ∈ i.libraries) : a.Imported config i name :=
  .inl (Imports.library_mem_lines h)

theorem library (h : k ∈ i.libraries) (hname : (name, importLine k) ∈ a.importTable config) :
    a.Imported config i name := .inr ⟨_, Imports.library_mem_lines h, hname⟩

theorem standard (h : k ∈ i.standard) (hname : (name, importLine k) ∈ a.importTable config) :
    a.Imported config i name := .inr ⟨_, Imports.standard_mem_lines h, hname⟩

theorem member (h : k ∈ i.members) (hname : (name, staticImportLine k) ∈ a.importTable config) :
    a.Imported config i name := .inr ⟨_, Imports.member_mem_lines h, hname⟩

end Imported

theorem imported_adapterImports (config : CodegenConfig) (a : Adapter) (c : Compiled) :
    let Imported := a.Imported config (adapterImports config a c)
    (∀ name ∈ c.modelNames, Imported name) ∧ (c.imp.isSome = true → Imported "Imp") ∧
      (c.request.isSome = true → Imported "BidRequest" ∧ Imported "ImpWithExt" ∧ Imported "List") ∧
      (a.params.isEmpty = false → Imported a.extClass) ∧
      (c.usesJson = true → Imported "ObjectMapper" ∧ Imported "ObjectNode") ∧
      (c.programs.any readsNestedJson = true → Imported "JsonNode") := by
  intro Imported
  refine ⟨fun name hname => .model ?_, fun h => .model ?_, fun h => ⟨.model ?_, ?_, ?_⟩, fun h => ?_,
    fun h => ⟨?_, ?_⟩, fun h => ?_⟩
  · simpa [adapterImports] using .inr (.inl ⟨name, hname, rfl⟩)
  · simp [adapterImports, h]
  · simp [adapterImports, h]
  · exact .library (k := config.frameworkClass "model.ImpWithExt") (by simp [adapterImports, h])
      (by simp [importTable])
  · exact .standard (k := "java.util.List") (by simp [adapterImports, h]) (by simp [importTable])
  · exact .library (k := a.extPackage config ++ "." ++ a.extClass)
      (by simp [adapterImports, extImport, h]) (by simp [importTable])
  · exact .library (k := jsonMapperClass) (by simp [adapterImports, h]) (by simp [importTable])
  · exact .library (k := objectNodeClass) (by simp [adapterImports, h]) (by simp [importTable])
  · exact .library (k := jsonNodeClass) (by simp [adapterImports, h]) (by simp [importTable])

theorem imported_testImports (config : CodegenConfig) (a : Adapter) (c : Compiled) :
    let Imported := a.Imported config (testImports config a c)
    (∀ name ∈ c.modelNames ++ a.fixture.modelNames, Imported name) ∧ Imported "Imp" ∧
      Imported "BidRequest" ∧ Imported "singletonList" ∧
      (a.params.isEmpty = false → Imported a.extClass) ∧
      (c.usesJson = true ∨ a.fixture.usesJson = true → Imported "JsonNode" ∧ Imported "ObjectNode") ∧
      (c.expected.rebuilds = true → Imported "Optional") ∧
      (a.fixture.impCustomizer = "identity()" ∨ a.fixture.requestCustomizer = "identity()" →
        Imported "identity") := by
  intro Imported
  refine ⟨fun name hname => .model ?_, .model ?_, .model ?_, ?_, fun h => ?_, fun h => ⟨?_, ?_⟩,
    fun h => ?_, fun h => ?_⟩
  · have hmodel := List.mem_map_of_mem (f := config.modelClass) hname
    simp only [testImports, KeySet.mem_ofList, List.mem_append]
    exact .inl (.inl (.inr hmodel))
  · simp [testImports]
  · simp [testImports]
  · exact .member (k := "java.util.Collections.singletonList") (by simp [testImports])
      (by simp [importTable])
  · exact .library (k := a.extPackage config ++ "." ++ a.extClass) (by simp [testImports, extImport, h])
      (by simp [importTable])
  · exact .library (k := jsonNodeClass) (by simp [testImports, h]) (by simp [importTable])
  · exact .library (k := objectNodeClass) (by simp [testImports, h]) (by simp [importTable])
  · exact .standard (k := "java.util.Optional") (by simp [testImports, h]) (by simp [importTable])
  · exact .member (k := "java.util.function.Function.identity") (by simp [testImports, h])
      (by simp [importTable])

theorem declaresMapper (ctx : RenderContext) (a : Adapter) {c : Compiled} (h : c.usesJson = true) :
    DeclaresMapper (adapterBody ctx a c) := by
  refine ⟨["/**", " * " ++ a.name ++ " \x7b@link OpenrtbBidder\x7d implementation.", " */",
    "public class " ++ a.bidderClass ++ " extends OpenrtbBidder<" ++ ctx.extClass ++ "> \x7b", ""],
    ["", "    public " ++ a.bidderClass ++ "(String endpointUrl) \x7b",
      "        super(endpointUrl, OpenrtbBidder.RequestCreationStrategy." ++
        a.description.strategy.name ++ ", " ++ ctx.extClass ++ ".class);",
      "    \x7d"],
    methodBlock modifyImp ctx c.imp ++ methodBlock modifyRequest ctx c.request ++ "\x7d\n", ?_⟩
  rw [adapterBody, if_pos h]
  simp only [String.append_assoc]
  rfl

theorem blank_of_isIndentable (h : config.isIndentable = true) :
    ∀ c ∈ config.indent.toList, c = ' ' ∨ c = '\t' := by
  intro c hc
  simpa using List.all_eq_true.1 h c hc

theorem model_mem_modelNames {q : Program} (hq : q ∈ c.programs) (h : .model name ∈ q.startedKinds) :
    name ∈ c.modelNames :=
  List.mem_filterMap.2 ⟨_, List.mem_append_left _ (List.mem_flatMap.2 ⟨q, hq, h⟩), rfl⟩

theorem usesJson_of_mem {q : Program} (hq : q ∈ c.programs) (h : .json ∈ q.startedKinds) :
    c.usesJson = true :=
  List.any_eq_true.2 ⟨q, hq, List.any_eq_true.2 ⟨_, h, rfl⟩⟩

theorem extClass_context (config : CodegenConfig) (a : Adapter) :
    a.params.isEmpty = true ∧ (a.context config).extClass = "Void" ∨
      a.params.isEmpty = false ∧ (a.context config).extClass = a.extClass := by
  cases h : a.params.isEmpty with
  | true => exact .inl ⟨rfl, if_pos h⟩
  | false => exact .inr ⟨rfl, if_neg (Bool.not_eq_true _ ▸ h)⟩

theorem isName_extClass_context (hw : IsWord a.name) (config : CodegenConfig) :
    IsName (a.context config).extClass := by
  obtain ⟨-, hclass⟩ | ⟨-, hclass⟩ := extClass_context config a
  · rw [hclass]
    decide
  · rw [hclass]
    exact (isIdentifier_extClass hw).1

theorem methodUses (config : CodegenConfig) (a : Adapter) {q : Program} (hq : q ∈ c.programs)
    (method : String) :
    MethodUses (Resolves (a.MethodScope config c method q)
      (a.Imported config (adapterImports config a c))) q (a.context config).extClass := by
  obtain ⟨hmodels, -, -, hext, hjson, hnested⟩ := imported_adapterImports config a c
  refine ⟨fun w hw t => .word hw, fun v hv => .inScope rfl (.inr (.inl hv)), ?_, ?_, ?_, ?_⟩
  · obtain ⟨-, hclass⟩ | ⟨hparams, hclass⟩ := extClass_context config a
    · rw [hclass]
      exact .word (by decide)
    · rw [hclass]
      exact .imported (hext hparams)
  · exact fun name hname t => .imported (hmodels name (model_mem_modelNames hq hname))
  · intro h
    have huses := usesJson_of_mem hq h
    exact ⟨.inScope rfl (.inr (.inr ⟨rfl, declaresMapper _ a huses⟩)),
      fun t => .imported (hjson huses).2⟩
  · exact fun h => .imported (hnested (List.any_eq_true.2 ⟨q, hq, h⟩))

theorem supplied_programOf {scope : Scope} {l : List Assignment} {p : Plan} {root : ExpectedRoot}
    {os : List Override} (hp : Plan.ofAssignments scope l = .ok p) (hos : p.overrides root = .ok os)
    (hadmits : ∀ b ∈ l, scope.Admits b) (hnamed : ∀ b ∈ l, b.Named) {q : Program}
    (hq : q ∈ programOf p os) : q.Supplied ∧ q.scope = scope := by
  obtain ⟨-, rfl⟩ := mem_programOf_iff.1 (Option.mem_toList.2 hq)
  have hnames : ∀ b ∈ p.assignments, b.Named := fun b hb => hnamed b ((Plan.mem_assignments hp).1 hb).1
  exact ⟨Plan.supplied_program hp hos (Plan.admits_assignments hp hadmits) hnames,
    Plan.scope_of_ofAssignments hp⟩

theorem supplied_programs (ha : ofDescription d = .ok a) (hc : a.compile = .ok c) :
    (∀ q ∈ c.imp, q.Supplied ∧ q.scope = .impression) ∧
      ∀ q ∈ c.request, q.Supplied ∧ q.scope = .request := by
  obtain ⟨imp, request, first, rest, himp, hrequest, hfirst, hrest, rfl⟩ := compile_eq_ok hc
  obtain ⟨hadmits, hadmits'⟩ := admits_of_ofDescription ha
  obtain ⟨hnamed, hnamed'⟩ := List.forall_mem_append.1 (named_of_ofDescription ha)
  exact ⟨fun q => supplied_programOf himp hfirst hadmits hnamed,
    fun q => supplied_programOf hrequest hrest hadmits' hnamed'⟩

theorem stepKinds_subset (hc : a.compile = .ok c) :
    c.expected.stepKinds ⊆ c.programs.flatMap (·.startedKinds) := by
  obtain ⟨imp, request, first, rest, himp, hrequest, hfirst, hrest, rfl⟩ := compile_eq_ok hc
  have hmem {p : Plan} {root : ExpectedRoot} {os : List Override} (hos : p.overrides root = .ok os)
      {kind : ObjectKind} (hkind : kind ∈ startedKinds (statementsOf .root os)) :
      kind ∈ (programOf p os).toList.flatMap (·.startedKinds) := by
    refine List.mem_flatMap.2 ⟨_, mem_programOf_iff.2 ⟨?_, rfl⟩, ?_⟩
    · -- a plan that has no program starts nothing
      rw [← Bool.not_eq_true]
      intro hempty
      rw [Plan.overrides_of_isEmpty hempty] at hos
      cases hos
      cases hkind
    · rwa [← p.startedKinds_located] at hkind
  intro kind hkind
  have hstarted := (mem_stepKinds_expectationOf hfirst (Plan.overrides_placed hrest)).1 hkind
  rw [Compiled.programs, List.flatMap_append, List.mem_append]
  exact (List.mem_append.1 hstarted).imp (hmem hfirst) (hmem hrest)

theorem expectedUses (config : CodegenConfig) (hc : a.compile = .ok c) :
    ExpectedUses (Resolves (· ∈ ["bidRequest", "expectedRequest", "node", "mapper"])
      (a.Imported config (testImports config a c))) c.expected := by
  obtain ⟨hmodels, himp, hrequest, hlist, -, hjson, hoptional, -⟩ := imported_testImports config a c
  refine ⟨.inScope rfl (by decide), .imported himp, .imported hrequest, .imported hlist, ?_,
    fun h => .imported (hoptional h)⟩
  intro kind hkind
  cases kind with
  | model name =>
    refine .imported (hmodels name (List.mem_append_left _ ?_))
    exact List.mem_filterMap.2 ⟨_, List.mem_append_right _ hkind, rfl⟩
  | json =>
    obtain ⟨q, hq, hstarted⟩ := List.mem_flatMap.1 (stepKinds_subset hc hkind)
    obtain ⟨hjsonNode, hobjectNode⟩ := hjson (.inl (usesJson_of_mem hq hstarted))
    exact ⟨.inScope rfl (by decide), .inScope rfl (by decide), .imported hjsonNode,
      .imported hobjectNode, .imported hobjectNode⟩

theorem buildable_outerKinds (config : CodegenConfig) (a : Adapter) (c : Compiled)
    (hmapper : InScope "mapper") {f : SampleField} (hf : f ∈ a.fixture.fields) {kind : ObjectKind}
    (hkind : kind ∈ f.outerKinds) :
    Buildable (Resolves InScope (a.Imported config (testImports config a c))) kind := by
  obtain ⟨hmodels, -, -, -, -, hjson, -⟩ := imported_testImports config a c
  have hkinds : kind ∈ a.fixture.fields.flatMap (·.outerKinds) := List.mem_flatMap.2 ⟨f, hf, hkind⟩
  cases kind with
  | model name =>
    refine .imported (hmodels name (List.mem_append_right _ ?_))
    exact List.mem_filterMap.2 ⟨_, hkinds, rfl⟩
  | json =>
    have huses : a.fixture.usesJson = true := List.any_eq_true.2 ⟨_, hkinds, rfl⟩
    exact ⟨.inScope rfl hmapper, .imported (hjson (.inr huses)).2⟩

theorem names_of_mem_fixture (ha : ofDescription d = .ok a) {f : SampleField}
    (hf : f ∈ a.fixture.fields) : ∀ k ∈ f.path.segments, IsName k := by
  rcases List.mem_append.1 (path_of_mem_fixture hf) with hp | hp
  · obtain ⟨x, hx, -, -, hpath⟩ := mem_impPaths_iff.1 hp
    exact hpath ▸ names_of_mem_sources ha hx
  · obtain ⟨x, hx, -, hpath⟩ := mem_requestPaths_iff.1 hp
    exact hpath ▸ names_of_mem_sources ha hx

theorem names_mapperField (config : CodegenConfig) (a : Adapter) (h : c.usesJson = true) :
    AllResolve (· = "mapper") (a.Imported config (adapterImports config a c)) mapperField := by
  obtain ⟨-, -, -, -, hjson, -⟩ := imported_adapterImports config a c
  have hclass := (hjson h).1
  have hnames : namesIn mapperField = [⟨"private", true⟩, ⟨"static", true⟩, ⟨"final", true⟩,
      ⟨"ObjectMapper", true⟩, ⟨"mapper", false⟩, ⟨"new", true⟩, ⟨"ObjectMapper", false⟩] := by
    decide +kernel
  rw [AllResolve, hnames]
  simp only [List.forall_mem_cons]
  exact ⟨.word (by decide), .word (by decide), .word (by decide), .imported hclass, .inScope rfl rfl,
    .word (by decide), .imported hclass, List.forall_mem_nil _⟩

theorem namesIn_fixtureCustomizer (config : CodegenConfig) (ha : ofDescription d = .ok a) (c : Compiled)
    {var : String} (hvar : IsName var) {l : List SampleField} (hl : l ⊆ a.fixture.fields)
    (hidentity : customizer var l = "identity()" →
      a.fixture.impCustomizer = "identity()" ∨ a.fixture.requestCustomizer = "identity()") :
    AllResolve (· ∈ [var, "mapper"]) (a.Imported config (testImports config a c))
      (customizer var l) := by
  obtain ⟨-, -, -, -, -, -, -, hmember⟩ := imported_testImports config a c
  have hscope : var ∈ [var, "mapper"] := List.mem_cons_self
  have hmapper : "mapper" ∈ [var, "mapper"] := List.mem_cons_of_mem _ List.mem_cons_self
  exact (namesIn_customizer hvar (.inScope rfl hscope) (fun h => .imported (hmember (hidentity h)))
    (fun f hf => names_of_mem_fixture ha (hl hf))
    fun f hf kind hkind => buildable_outerKinds config a c hmapper (hl hf) hkind).names.names

theorem namesIn_fixtureExt (config : CodegenConfig) (hw : IsWord a.name) (c : Compiled)
    (hparams : builderThreshold < a.params.length → ∀ p ∈ a.params, IsName p.name) :
    AllResolve (· = "mapper") (a.Imported config (testImports config a c))
      (extValue (a.context config) a.fixture.ext) := by
  obtain ⟨-, -, -, -, hext, -⟩ := imported_testImports config a c
  have hsampled : a.fixture.ext.map (·.param) = a.params := map_param_sampleParams 1 a.params
  have hlength : a.fixture.ext.length = a.params.length := by rw [← hsampled, List.length_map]
  refine (namesIn_extValue _ _ (isName_extClass_context hw config) (.inScope rfl rfl)
    (.word (by decide)) (fun hne => ?_) fun hmany p hp => ?_).names.names
  · obtain ⟨hempty, -⟩ | ⟨hsome, hclass⟩ := extClass_context config a
    · rw [List.isEmpty_iff, ← hsampled, List.map_eq_nil_iff] at hempty
      exact absurd hempty hne
    · rw [hclass]
      exact .imported (hext hsome)
  · exact hparams (hlength ▸ hmany) _ (hsampled ▸ List.mem_map_of_mem hp)

theorem names_expected {config : CodegenConfig} (hconfig : config.isIndentable = true)
    (ha : ofDescription d = .ok a) (hc : a.compile = .ok c) :
    AllResolve (· ∈ ["bidRequest", "expectedRequest", "node", "mapper"])
      (a.Imported config (testImports config a c))
      (Java.expectedRequest c.expected (a.context config) 2) := by
  have huses := expectedUses config hc
  obtain ⟨imp, request, first, rest, himp, hrequest, hfirst, hrest, rfl⟩ := compile_eq_ok hc
  obtain ⟨hnamed, hnamed'⟩ := List.forall_mem_append.1 (named_of_ofDescription ha)
  have hfirstNames :=
    Plan.overrides_named hfirst fun b hb => hnamed b ((Plan.mem_assignments himp).1 hb).1
  have hrestNames :=
    Plan.overrides_named hrest fun b hb => hnamed' b ((Plan.mem_assignments hrequest).1 hb).1
  refine (names_expectedRequest _ 2 (blank_of_isIndentable hconfig) ?_
    (block_expectationOf _ imp (Plan.overrides_placed hfirst) (Plan.overrides_placed hrest) hfirstNames
      hrestNames huses)).names
  apply names_of_eq (l := [⟨"final", true⟩, ⟨"BidRequest", true⟩, ⟨"expectedRequest", false⟩,
    ⟨"bidRequest", false⟩]) rfl rfl rfl
  simp only [List.forall_mem_cons]
  obtain ⟨-, -, hmodel, -⟩ := imported_testImports config a _
  exact ⟨.word (by decide), .imported hmodel, .inScope rfl (by decide), .inScope rfl (by decide),
    List.forall_mem_nil _⟩

end

/-- The generated files of every description without faults import what they name, where the params of a
large extension have names that can be written in Java. -/
theorem names_imported {config : CodegenConfig} {d : Description} {a : Adapter} {c : Compiled}
    (hconfig : config.isIndentable = true) (hd : d.fault? = none) (ha : ofDescription d = .ok a)
    (hc : a.compile = .ok c) : a.ImportsNames config c := by
  have hw : IsWord a.name := by
    rw [name, description_eq ha]
    exact Description.isWord_name hd
  have hunit := blank_of_isIndentable hconfig
  have hext := isName_extClass_context hw config
  obtain ⟨himps, hrequests⟩ := supplied_programs ha hc
  obtain ⟨-, himp, hrequest, -⟩ := imported_adapterImports config a c
  exact {
    mapperField := names_mapperField config a
    modifyImp q hq := by
      obtain ⟨hsupplied, hscope⟩ := himps q hq
      have hmem : q ∈ c.programs := List.mem_append_left _ (Option.mem_toList.2 hq)
      have huses := methodUses config a hmem "modifyImp"
      exact (names_modifyImp _ huses hext hsupplied hscope (.imported (himp (Option.isSome_of_mem hq)))
        (.inScope rfl (.inl rfl)) hunit).names
    modifyRequest q hq := by
      obtain ⟨hsupplied, hscope⟩ := hrequests q hq
      obtain ⟨hmodel, hwithExt, hlist⟩ := hrequest (Option.isSome_of_mem hq)
      have hmem : q ∈ c.programs := List.mem_append_right _ (Option.mem_toList.2 hq)
      have huses := methodUses config a hmem "modifyRequest"
      exact (names_modifyRequest _ huses hext hsupplied hscope (.imported hmodel) (.imported hlist)
        (.imported hwithExt) (.inScope rfl (.inl rfl)) hunit).names
    impCustomizer :=
      namesIn_fixtureCustomizer config ha c (by decide) (List.subset_append_left _ _) .inl
    requestCustomizer :=
      namesIn_fixtureCustomizer config ha c (by decide) (List.subset_append_right _ _) .inr
    extension := namesIn_fixtureExt config hw c
    expected := names_expected hconfig ha hc }

def nodeDescription : Description :=
  fixtureDescription [⟨"imp.ext.gpid", none, some "imp.tagid"⟩,
    ⟨"ext.data.id", none, some "user.ext.id"⟩]

theorem names_imported_node :
    ∃ a c, ofDescription nodeDescription = .ok a ∧ a.compile = .ok c ∧
      (c.imp.any (·.usesJson) = true ∧ c.request.any readsNestedJson = true ∧
        ⟨"User", false⟩ ∈ namesIn a.fixture.requestCustomizer) ∧ a.ImportsNames .standard c := by
  have hd : nodeDescription.fault? = none := by decide +kernel
  obtain ⟨a, ha⟩ : ∃ a, ofDescription nodeDescription = .ok a := ⟨_, rfl⟩
  obtain ⟨c, hc⟩ : ∃ c, a.compile = .ok c := by
    cases ha
    exact ⟨_, rfl⟩
  refine ⟨a, c, ha, hc, ?_, names_imported (by decide) hd ha hc⟩
  cases ha
  cases hc
  decide +kernel

/-- Five params, the last one with a name that holds a call of its own. -/
def splicedDescription : Description where
  __ := fixtureDescription []
  params := ["a", "b", "c", "d", "e(Optional.empty()).f"].map (⟨·, .string⟩)

/-- The extension of the fixture names a class that the test does not import. -/
theorem names_not_imported :
    ∃ a c, splicedDescription.fault? = none ∧ ofDescription splicedDescription = .ok a ∧
      a.compile = .ok c ∧
      ⟨"Optional", false⟩ ∈ namesIn (extValue (a.context .standard) a.fixture.ext) ∧
      ¬ Resolves (· = "mapper") (a.Imported .standard (testImports .standard a c))
        ⟨"Optional", false⟩ := by
  refine ⟨_, _, by decide +kernel, rfl, rfl, by decide +kernel, fun h => ?_⟩
  cases h with
  | word h => exact absurd h (by decide)
  | inScope _ h => exact absurd h (by decide)
  | imported h => exact absurd h (by decide +kernel)

end Adapter

end AdapterForge

import AdapterForge.Proofs.FixtureRun
import AdapterForge.Proofs.GeneratedPaths

/-!
What the content key sees of a change. Adapters of the same key compile alike, and all of their
files are the same except for the one that configures the bidder: it shows settings that the key
leaves out.
-/
namespace AdapterForge.Adapter

variable {a b : Adapter}

/-- What adapters of the same content key share. -/
structure SameSources (a b : Adapter) : Prop where
  compile : a.compile = b.compile
  params : a.params = b.params
  adapterFile : ∀ config c, a.adapterFile config c = b.adapterFile config c
  extensionFile : ∀ config, a.extensionFile config = b.extensionFile config
  testFile : ∀ config c, a.testFile config c = b.testFile config c
  configPath : a.configFile.path = b.configFile.path
  schemaFile : a.schemaFile = b.schemaFile

theorem sameSources_of_contentKey (h : a.contentKey = b.contentKey) : SameSources a b := by
  obtain ⟨⟨name, strategy, ⟨url, usersyncUrl⟩, metaInfo, usersync, params, rules⟩, imp, request⟩ := a
  obtain ⟨⟨name', strategy', ⟨url', usersyncUrl'⟩, metaInfo', usersync', params', rules'⟩, imp',
    request'⟩ := b
  have hkey := ContentKey.mk.inj h
  obtain ⟨hname, hstrategy, hurl, hparams, himp, hrequest⟩ := hkey
  change name = name' at hname
  change strategy = strategy' at hstrategy
  change url = url' at hurl
  change params = params' at hparams
  subst hname hstrategy hurl hparams himp hrequest
  exact ⟨rfl, rfl, fun _ _ => rfl, fun _ => rfl, fun _ _ => rfl, rfl, rfl⟩

namespace SameSources

variable (h : SameSources a b) (config : CodegenConfig) (c : Compiled)

include h

theorem map_path_files :
    (a.files config c).map (·.path) = (b.files config c).map (·.path) := by
  unfold files
  rw [h.params, h.adapterFile, h.extensionFile, h.testFile, h.schemaFile]
  simp only [List.map_append, List.map_cons, List.map_nil, h.configPath]

theorem mem_files {f : GeneratedFile} (hf : f ∈ a.files config c) (hne : f ≠ a.configFile) :
    f ∈ b.files config c := by
  unfold files at hf ⊢
  rw [h.params, h.adapterFile, h.extensionFile, h.testFile, h.schemaFile] at hf
  generalize b.adapterFile config c = first, b.testFile config c = test, b.schemaFile = schema,
    a.configFile = own, b.configFile = other at *
  rcases List.mem_append.1 hf with hf | hf
  · exact List.mem_append_left _ hf
  · apply List.mem_append_right
    simp only [List.mem_cons, List.not_mem_nil, or_false] at hf ⊢
    rcases hf with hf | hf | hf
    · exact .inl hf
    · exact absurd hf hne
    · exact .inr (.inr hf)

theorem files_eq_iff : a.files config c = b.files config c ↔ a.bidderConfig = b.bidderConfig := by
  have hfile : a.configFile = b.configFile ↔ a.bidderConfig = b.bidderConfig := by
    constructor
    · exact fun heq => congrArg GeneratedFile.contents heq
    · exact fun heq => (GeneratedFile.mk.injEq ..).mpr ⟨h.configPath, heq⟩
  unfold files
  rw [h.params, h.adapterFile, h.extensionFile, h.testFile, h.schemaFile, List.append_right_inj,
    ← hfile]
  generalize a.configFile = own, b.configFile = other
  simp

end SameSources

/-- A change of what the content key leaves out shows in the configuration of the bidder alone. -/
theorem generate_of_contentKey (h : a.contentKey = b.contentKey) (config : CodegenConfig) :
    (∀ x, a.generate config = .error x ↔ b.generate config = .error x) ∧
      ∀ g g', a.generate config = .ok g → b.generate config = .ok g' →
        g.files.map (·.path) = g'.files.map (·.path) ∧
        (∀ f ∈ g.files, f ≠ a.configFile → f ∈ g'.files) ∧
        (g.files = g'.files ↔ a.bidderConfig = b.bidderConfig) := by
  have hsame := sameSources_of_contentKey h
  unfold generate
  rw [hsame.compile]
  cases b.compile with
  | error x =>
    refine ⟨fun _ => .rfl, ?_⟩
    rintro g g' ⟨⟩
  | ok c =>
    refine ⟨fun x => by simp [Except.map], ?_⟩
    rintro g g' ⟨⟩ ⟨⟩
    exact ⟨hsame.map_path_files config c, fun f => hsame.mem_files config c,
      hsame.files_eq_iff config c⟩

def vendorAdapter (id : UInt32) : Adapter :=
  ⟨{ fixtureDescription [] with metaInfo := { MetaInfo.none with vendorId := some id } }, [], []⟩

theorem generate_of_contentKey_sample :
    ∃ g g', (vendorAdapter 1).contentKey = (vendorAdapter 2).contentKey ∧
      (vendorAdapter 1).generate .standard = .ok g ∧ (vendorAdapter 2).generate .standard = .ok g' ∧
      g.files.map (·.path) = g'.files.map (·.path) ∧
      ∀ f ∈ g.files, f ≠ (vendorAdapter 1).configFile → f ∈ g'.files := by
  have hkey : (vendorAdapter 1).contentKey = (vendorAdapter 2).contentKey := rfl
  obtain ⟨c, hc⟩ : ∃ c, (vendorAdapter 1).compile = .ok c := ⟨_, rfl⟩
  have hg : (vendorAdapter 1).generate .standard = .ok _ := generate_eq_ok.2 ⟨c, hc, rfl⟩
  have hg' : (vendorAdapter 2).generate .standard = .ok _ := generate_eq_ok.2 ⟨c, hc, rfl⟩
  obtain ⟨-, hfiles⟩ := generate_of_contentKey hkey .standard
  obtain ⟨hpaths, hmem, -⟩ := hfiles _ _ hg hg'
  exact ⟨_, _, hkey, hg, hg', hpaths, hmem⟩

/-- The key does not tell two vendor ids apart, and the configuration of the bidder does. -/
theorem contentKey_misses_vendorId :
    (vendorAdapter 1).description.fault? = none ∧ (vendorAdapter 2).description.fault? = none ∧
      ofDescription (vendorAdapter 1).description = .ok (vendorAdapter 1) ∧
      ofDescription (vendorAdapter 2).description = .ok (vendorAdapter 2) ∧
      (vendorAdapter 1).contentKey = (vendorAdapter 2).contentKey ∧
      ∃ g g', (vendorAdapter 1).generate .standard = .ok g ∧
        (vendorAdapter 2).generate .standard = .ok g' ∧ g.files ≠ g'.files := by
  have hkey : (vendorAdapter 1).contentKey = (vendorAdapter 2).contentKey := rfl
  have hconfig : (vendorAdapter 1).bidderConfig ≠ (vendorAdapter 2).bidderConfig := by decide +kernel
  obtain ⟨c, hc⟩ : ∃ c, (vendorAdapter 1).compile = .ok c := ⟨_, rfl⟩
  exact ⟨by decide +kernel, by decide +kernel, rfl, rfl, hkey, _, _,
    generate_eq_ok.2 ⟨c, hc, rfl⟩, generate_eq_ok.2 ⟨c, hc, rfl⟩,
    fun h => hconfig (((sameSources_of_contentKey hkey).files_eq_iff .standard c).1 h)⟩

end AdapterForge.Adapter

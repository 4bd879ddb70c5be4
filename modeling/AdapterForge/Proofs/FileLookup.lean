import AdapterForge.Proofs.GeneratedPaths
import AdapterForge.Proofs.FixtureRun

/-!
Looking up a generated file by its name. No two files of a bidder share a name, whatever folders
they lie in, so a name leads to one file at most.
-/
namespace AdapterForge

theorem FilePath.fileName?_of_ending {path file folder : String} (h : ending path = [file, folder])
    (hfile : ∃ c ∈ file.toList, c ≠ '.') : fileName? path = some file := by
  obtain ⟨l, hl⟩ := names_of_ending h
  obtain ⟨c, hc, hne⟩ := hfile
  have hdot : file ≠ "." := by
    rintro rfl
    exact hne (by simpa using hc)
  have hdots : file ≠ ".." := by
    rintro rfl
    exact hne (by simpa using hc)
  have hlast : ((names path).filter (· ≠ ".")).getLast? = some file := by
    rw [hl, ← List.singleton_append (x := folder), ← List.append_assoc, List.filter_append,
      List.filter_cons_of_pos (by simpa using hdot)]
    simp
  unfold fileName?
  rw [hlast]
  split
  · next heq => exact absurd (Option.some.inj heq) hdots
  · rfl

namespace Adapter

variable {a : Adapter}

theorem map_fileName?_files (h : IsWord a.name) (config : CodegenConfig) (c : Compiled) :
    (a.files config c).map (fun f => FilePath.fileName? f.path) =
      (a.endings.map fun e => e.headD "").map some := by
  rw [← map_ending_files h config c, List.map_map, List.map_map]
  apply List.map_congr_left
  intro f hf
  obtain ⟨file, folder, he, hfile, -⟩ := proper_of_mem_endings h (ending_mem_endings h hf)
  rw [FilePath.fileName?_of_ending he hfile, Function.comp_apply, Function.comp_apply, he]
  rfl

theorem nodup_fileName?_files (h : IsWord a.name) (config : CodegenConfig) (c : Compiled) :
    ((a.files config c).map fun f => FilePath.fileName? f.path).Nodup := by
  rw [map_fileName?_files h]
  exact a.nodup_names_endings.map fun _ _ => Option.some.inj

theorem exists_fileName? (h : IsWord a.name) {config : CodegenConfig} {c : Compiled}
    {f : GeneratedFile} (hf : f ∈ a.files config c) : ∃ name, FilePath.fileName? f.path = some name := by
  have hmem : FilePath.fileName? f.path ∈ (a.endings.map fun e => e.headD "").map some := by
    rw [← map_fileName?_files h config c]
    exact List.mem_map_of_mem hf
  obtain ⟨name, -, hname⟩ := List.mem_map.1 hmem
  exact ⟨name, hname.symm⟩

end Adapter

theorem GeneratedBidder.file?_eq_some_iff {g : GeneratedBidder}
    (h : (g.files.map fun f => FilePath.fileName? f.path).Nodup) {name : String}
    {f : GeneratedFile} :
    g.file? name = some f ↔ f ∈ g.files ∧ FilePath.fileName? f.path = some name := by
  constructor
  · intro hf
    exact ⟨List.mem_of_find?_eq_some hf, by simpa using List.find?_some hf⟩
  · rintro ⟨hf, hname⟩
    cases hfind : g.file? name with
    | none =>
      have hnone := List.find?_eq_none.1 hfind f hf
      simp [hname] at hnone
    | some e =>
      have he : FilePath.fileName? e.path = some name := by simpa using List.find?_some hfind
      rw [List.inj_on_of_nodup_map h (List.mem_of_find?_eq_some hfind) hf (he.trans hname.symm)]

namespace Adapter

/-- Whatever the packages, the files of a bidder have file names of their own, so that a file is
found by its name and no other one is. -/
theorem files_found_by_name {d : Description} {a : Adapter} {c : Compiled} (config : CodegenConfig)
    (hd : d.fault? = none) (ha : ofDescription d = .ok a) (hc : a.compile = .ok c) :
    ∃ g, a.generate config = .ok g ∧ (g.files.map fun f => FilePath.fileName? f.path).Nodup ∧
      (∀ f ∈ g.files, ∃ name, FilePath.fileName? f.path = some name ∧ g.file? name = some f) ∧
      ∀ name f, g.file? name = some f ↔ f ∈ g.files ∧ FilePath.fileName? f.path = some name := by
  have hword : IsWord a.name := by
    rw [name, description_eq ha]
    exact Description.isWord_name hd
  have hnodup := nodup_fileName?_files hword config c
  refine ⟨⟨a.name, a.files config c, c⟩, generate_eq_ok.2 ⟨c, hc, rfl⟩, hnodup, ?_, ?_⟩
  · intro f hf
    obtain ⟨name, hname⟩ := exists_fileName? hword hf
    exact ⟨name, hname, (GeneratedBidder.file?_eq_some_iff hnodup).2 ⟨hf, hname⟩⟩
  · exact fun _ _ => GeneratedBidder.file?_eq_some_iff hnodup

def flatConfig : CodegenConfig :=
  { CodegenConfig.standard with bidderPackage := "/", extPackage := "../..a" }

theorem files_found_by_name_sample :
    ∃ c g, fixtureAdapter.description.fault? = none ∧
      ofDescription fixtureAdapter.description = .ok fixtureAdapter ∧
      fixtureAdapter.compile = .ok c ∧ fixtureAdapter.generate flatConfig = .ok g ∧
      g.file? "ExtImpSample.java" = some (fixtureAdapter.extensionFile flatConfig) := by
  have hd : fixtureAdapter.description.fault? = none := by decide
  have ha : ofDescription fixtureAdapter.description = .ok fixtureAdapter := rfl
  obtain ⟨c, hc⟩ : ∃ c, fixtureAdapter.compile = .ok c := ⟨_, rfl⟩
  obtain ⟨g, hg, -, -, hfile⟩ := files_found_by_name flatConfig hd ha hc
  refine ⟨c, g, hd, ha, hc, hg, (hfile _ _).2 ⟨?_, by decide +kernel⟩⟩
  obtain ⟨c', -, rfl⟩ := generate_eq_ok.1 hg
  simp [files, show fixtureAdapter.params.isEmpty = false from rfl]

end Adapter

end AdapterForge

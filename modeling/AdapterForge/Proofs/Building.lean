import AdapterForge.Project.Build
import AdapterForge.Proofs.DiskWork
import AdapterForge.Proofs.GeneratedPaths

/-!
What a build leaves on the disk. Every generated file has its contents, no other file has changed,
and no bidder loses a file to another one whose name differs in more than the case of its letters.
-/
namespace AdapterForge

open Work

def GeneratedFile.Apart (dir : String) (d : Disk) (f g : GeneratedFile) : Prop :=
  d.place (f.target dir) ≠ d.place (g.target dir)

theorem GeneratedFile.apart_eq {places : List (List String)} {d e : Disk}
    (h : Disk.Frame places d e) (dir : String) : Apart dir e = Apart dir d := by
  funext f g
  simp only [Apart, h.place_eq]

/-- Files that are in an output folder after a run, which has changed no other file. -/
structure Installed (dir : String) (files : List GeneratedFile) (d e : Disk) : Prop where
  frame : Disk.Frame (files.map fun f => d.place (f.target dir)) d e
  contents : ∀ f ∈ files, e.readText (f.target dir) = .ok f.contents

namespace Installed

variable {dir : String} {l r : List GeneratedFile} {d e e' : Disk}

theorem nil (dir : String) (d : Disk) : Installed dir [] d d := ⟨.refl d, by simp⟩

theorem append (h : Installed dir l d e) (h' : Installed dir r e e')
    (hapart : ∀ f ∈ l, ∀ g ∈ r, f.Apart dir d g) : Installed dir (l ++ r) d e' where
  frame := by
    have hframe := h'.frame
    simp only [h.frame.place_eq] at hframe
    rw [List.map_append]
    exact h.frame.trans hframe
  contents := by
    intro f hf
    rcases List.mem_append.1 hf with hf | hf
    · -- a file of the first run is at none of the places of the second one
      refine h'.frame.readText ?_ (h.contents f hf)
      rw [List.mem_map]
      rintro ⟨g, hg, heq⟩
      rw [h.frame.place_eq, h.frame.place_eq] at heq
      exact hapart f hf g hg heq.symm
    · exact h'.contents f hf

end Installed

namespace GeneratedFile

variable {f : GeneratedFile} {o : BuildOptions} {d e : Disk} {path contents : String}

theorem on_isUnchanged (path contents : String) (d : Disk) :
    (isUnchanged path contents).on d = (.ok (decide (d.readText path = .ok contents)), d) := by
  unfold isUnchanged
  rw [on_lift, StateT.run_bind, Disk.run_readText]
  cases d.readText path with
  | error e => rfl
  | ok text =>
    simp only [Except.ok.injEq]
    rfl

theorem write_eq_ok (h : (write path contents).on d = (.ok (), e)) :
    ∃ d', Disk.Frame [] d d' ∧ d'.writeText path contents = .ok e := by
  unfold write at h
  obtain ⟨_, d', hfolders, hwrite⟩ := on_bind_eq_ok.1 h
  refine ⟨d', ?_, Disk.run_change_eq_ok.1 (on_access_eq_ok.1 hwrite)⟩
  have hframe := Disk.onlyFolders_makeFolders ((FilePath.parent? path).getD "") d
  rwa [on_access_eq_ok.1 hfolders] at hframe

def outcome (f : GeneratedFile) (o : BuildOptions) (d : Disk) : FileOutcome :=
  if !o.force && decide (d.readText (f.target o.outputDir) = .ok f.contents) then .skipped
  else .written

theorem outcome_eq_skipped_iff : f.outcome o d = .skipped ↔
    o.force = false ∧ d.readText (f.target o.outputDir) = .ok f.contents := by
  unfold outcome
  split
  · next h => simpa using h
  · next h => simpa using h

theorem outcome_of_force (hforce : o.force = true) (f : GeneratedFile) (d : Disk) :
    f.outcome o d = .written := by
  simp [outcome, hforce]

theorem on_build_unwritten (h : o.dryRun = true ∨ f.outcome o d = .skipped) :
    (f.build o).on d = (.ok (f.target o.outputDir, f.outcome o d), d) := by
  unfold build
  rw [on_bind, on_isUnchanged]
  dsimp only
  unfold outcome at h ⊢
  split
  · rfl
  · next hwrite =>
    rw [if_neg hwrite] at h
    rw [h.resolve_right nofun]
    rfl

/-- All that the build of a file can do: nothing, or put the file where it belongs. -/
theorem build_cases {r : String × FileOutcome} (h : (f.build o).on d = (.ok r, e)) :
    r = (f.target o.outputDir, f.outcome o d) ∧
      (e = d ∧ (o.dryRun = true ∨ f.outcome o d = .skipped) ∨
        f.outcome o d = .written ∧ Disk.Frame [d.place (f.target o.outputDir)] d e ∧
          e.readText (f.target o.outputDir) = .ok f.contents) := by
  unfold build at h
  obtain ⟨same, d', hsame, h⟩ := on_bind_eq_ok.1 h
  rw [on_isUnchanged, Prod.mk.injEq, Except.ok.injEq] at hsame
  obtain ⟨rfl, rfl⟩ := hsame
  unfold outcome
  split at h
  · next hskip =>
    cases h
    rw [if_pos hskip]
    exact ⟨rfl, .inl ⟨rfl, .inr rfl⟩⟩
  · next hnot =>
    rw [if_neg hnot]
    dsimp only at h
    split at h
    · obtain ⟨_, d', hwrite, h⟩ := on_bind_eq_ok.1 h
      cases h
      obtain ⟨d'', hfolders, hwrite⟩ := write_eq_ok hwrite
      have hframe := hfolders.trans (Disk.frame_writeText hwrite)
      rw [hfolders.place_eq] at hframe
      exact ⟨rfl, .inr ⟨rfl, hframe, Disk.readText_writeText hwrite⟩⟩
    · next hdry =>
      cases h
      exact ⟨rfl, .inl ⟨rfl, .inl (by simpa using hdry)⟩⟩

theorem build_eq_ok (hdry : o.dryRun = false) {r : String × FileOutcome}
    (h : (f.build o).on d = (.ok r, e)) : Installed o.outputDir [f] d e := by
  rcases (build_cases h).2 with ⟨rfl, hskip⟩ | ⟨-, hframe, hread⟩
  · have hread := (outcome_eq_skipped_iff.1 (hskip.resolve_left (by simp [hdry]))).2
    exact ⟨(Disk.Frame.refl e).mono (List.nil_subset _), by simpa using hread⟩
  · exact ⟨hframe, by simpa using hread⟩

end GeneratedFile

namespace GeneratedBidder

variable {o : BuildOptions} {d e : Disk}

/-- A bidder with what becomes of its files, by what a disk has at their paths. -/
def predicted (g : GeneratedBidder) (o : BuildOptions) (d : Disk) : BuiltBidder :=
  ⟨g, g.files.map fun f => (f.target o.outputDir, f.outcome o d)⟩

theorem on_build_unwritten {g : GeneratedBidder}
    (h : ∀ f ∈ g.files, o.dryRun = true ∨ f.outcome o d = .skipped) :
    (g.build o).on d = (.ok (g.predicted o d), d) := by
  unfold build
  rw [on_bind, on_mapM_of_fixed fun f hf => GeneratedFile.on_build_unwritten (h f hf)]
  rfl

theorem build_files_eq_ok (hdry : o.dryRun = false) {l : List GeneratedFile}
    {r : List (String × FileOutcome)}
    (hapart : l.Pairwise (GeneratedFile.Apart o.outputDir d))
    (h : on (l.mapM fun f => f.build o) d = (.ok r, e)) : Installed o.outputDir l d e := by
  induction l generalizing d r with
  | nil =>
    cases h
    exact .nil _ _
  | cons f l ih =>
    obtain ⟨x, d', xs, hf, hl, rfl⟩ := on_mapM_cons_eq_ok.1 h
    rw [List.pairwise_cons] at hapart
    have hfirst := f.build_eq_ok hdry hf
    have hrest : Installed o.outputDir l d' e := by
      apply ih _ hl
      rw [GeneratedFile.apart_eq hfirst.frame]
      exact hapart.2
    exact hfirst.append hrest (by simpa using hapart.1)

theorem build_eq_ok {g : GeneratedBidder} (hdry : o.dryRun = false) {b : BuiltBidder}
    (hapart : g.files.Pairwise (GeneratedFile.Apart o.outputDir d))
    (h : (g.build o).on d = (.ok b, e)) : b.generated = g ∧ Installed o.outputDir g.files d e := by
  obtain ⟨r, d', hfiles, h⟩ := on_bind_eq_ok.1 h
  cases h
  exact ⟨rfl, build_files_eq_ok hdry hapart hfiles⟩

end GeneratedBidder

def GeneratedBidder.OfWord (config : CodegenConfig) (g : GeneratedBidder) : Prop :=
  ∃ (a : Adapter) (c : Compiled), IsWord a.name ∧ g = ⟨a.name, a.files config c, c⟩

namespace Adapter

variable {a b : Adapter} {config : CodegenConfig} {c c' : Compiled} {dir : String} {d e : Disk}

theorem place_target (h : IsWord a.name) {f : GeneratedFile} (hf : f ∈ a.files config c)
    (dir : String) (d : Disk) :
    (d.place (f.target dir)).reverse.take 2 = FilePath.ending f.path := by
  obtain ⟨file, folder, heq, hfile, hfolder⟩ := proper_of_mem_endings h (ending_mem_endings h hf)
  rw [heq]
  exact Disk.place_of_ending (FilePath.ending_join heq) hfile hfolder d

theorem pairwise_apart (h : IsWord a.name) (config : CodegenConfig) (c : Compiled) (dir : String)
    (d : Disk) : (a.files config c).Pairwise (GeneratedFile.Apart dir d) := by
  have hnodup := a.nodup_endings
  rw [← map_ending_files h config c, List.Nodup, List.pairwise_map] at hnodup
  refine hnodup.imp_of_mem fun {f g} hf hg hne heq => hne ?_
  rw [← place_target h hf dir d, ← place_target h hg dir d, heq]

/-- Names that differ in more than the case of their letters keep the files of two bidders apart. -/
theorem apart_of_lowerName_ne (ha : IsWord a.name) (hb : IsWord b.name)
    (hne : a.lowerName ≠ b.lowerName) {f g : GeneratedFile} (hf : f ∈ a.files config c)
    (hg : g ∈ b.files config c') (dir : String) (d : Disk) : f.Apart dir d g := by
  intro heq
  have hending : FilePath.ending f.path = FilePath.ending g.path := by
    rw [← place_target ha hf dir d, ← place_target hb hg dir d, heq]
  exact disjoint_endings ha hb hne (ending_mem_endings ha hf) (hending ▸ ending_mem_endings hb hg)

theorem on_build_dry {o : BuildOptions} (hdry : o.dryRun = true) (a : Adapter)
    (config : CodegenConfig) (d : Disk) :
    ∃ r, (a.build config o).on d = (r, d) ∧ (r.toOption.isSome ↔ a.compile.toOption.isSome) := by
  unfold build generate
  rw [on_bind, on_compiled]
  cases a.compile with
  | error x => exact ⟨_, rfl, .rfl⟩
  | ok c =>
    have hg := GeneratedBidder.on_build_unwritten (g := ⟨a.name, a.files config c, c⟩) (d := d)
      fun f _ => .inl hdry
    exact ⟨_, hg, by simp [Except.toOption]⟩

theorem build_eq_ok_iff {o : BuildOptions} {b : BuiltBidder} :
    (a.build config o).on d = (.ok b, e) ↔
      ∃ g, a.generate config = .ok g ∧ (g.build o).on d = (.ok b, e) := by
  unfold build
  rw [on_bind, on_compiled]
  cases a.generate config <;> simp [Except.mapError]

theorem buildFile_eq_ok {o : BuildOptions} (hdry : o.dryRun = false) {path : String}
    {built : BuiltBidder} (h : (buildFile config o path).on d = (.ok built, e)) :
    built.generated.OfWord config ∧
      Installed o.outputDir built.generated.files d e := by
  obtain ⟨a, d', hload, hbuild⟩ := on_bind_eq_ok.1 h
  obtain rfl := (readOnly_load path).eq_of_on hload
  obtain ⟨g, hg, hfiles⟩ := build_eq_ok_iff.1 hbuild
  have hword : IsWord a.name := Description.isWord_name (fault?_of_load hload)
  obtain ⟨c, -, rfl⟩ := generate_eq_ok.1 hg
  obtain ⟨hgenerated, hinstalled⟩ :=
    GeneratedBidder.build_eq_ok hdry (pairwise_apart hword config c _ _) hfiles
  exact ⟨⟨a, c, hword, hgenerated⟩, hgenerated ▸ hinstalled⟩

theorem buildFiles_eq_ok {o : BuildOptions} (hdry : o.dryRun = false) {paths : List String}
    {built : List BuiltBidder}
    (hnames : built.Pairwise fun b b' => Java.lower b.name ≠ Java.lower b'.name)
    (h : on (paths.mapM (buildFile config o)) d = (.ok built, e)) :
    (∀ b ∈ built, b.generated.OfWord config) ∧
      Installed o.outputDir (built.flatMap (·.generated.files)) d e := by
  induction paths generalizing d built with
  | nil =>
    cases h
    exact ⟨by simp, .nil _ _⟩
  | cons path paths ih =>
    rw [List.mapM_cons] at h
    obtain ⟨b, d', hb, h⟩ := on_bind_eq_ok.1 h
    obtain ⟨rest, d'', hrest, h⟩ := on_bind_eq_ok.1 h
    cases h
    rw [List.pairwise_cons] at hnames
    obtain ⟨hfrom, hfirst⟩ := buildFile_eq_ok hdry hb
    obtain ⟨hfroms, hlater⟩ := ih hnames.2 hrest
    refine ⟨by simpa using ⟨hfrom, hfroms⟩, ?_⟩
    rw [List.flatMap_cons]
    refine hfirst.append hlater fun f hf g hg => ?_
    obtain ⟨b', hb', hg⟩ := List.mem_flatMap.1 hg
    obtain ⟨a, c, ha, hba⟩ := hfrom
    obtain ⟨a', c', ha', hba'⟩ := hfroms b' hb'
    have hne := hnames.1 b' hb'
    unfold BuiltBidder.name at hne
    rw [hba] at hf hne
    rw [hba'] at hg hne
    exact apart_of_lowerName_ne ha ha' hne hf hg _ _

/-- Bidders whose names differ in more than the case of their letters keep their files: after all
bidders of a folder have been built, every generated file has its contents, and no other file has
changed. -/
theorem buildAll_installs (config : CodegenConfig) (o : BuildOptions) (path : String) (d e : Disk)
    (built : List BuiltBidder) (hdry : o.dryRun = false)
    (h : (buildAll config o path).on d = (.ok built, e))
    (hnames : built.Pairwise fun b b' => Java.lower b.name ≠ Java.lower b'.name) :
    Installed o.outputDir (built.flatMap (·.generated.files)) d e := by
  obtain ⟨paths, d', hpaths, hbuilt⟩ := on_bind_eq_ok.1 h
  obtain rfl := (readOnly_descriptionFiles path).eq_of_on hpaths
  exact (buildFiles_eq_ok hdry hnames hbuilt).2

end Adapter

def FileTree.ofEntries (l : List (String × FileTree)) : FileTree := .folder (.ofList l)

def descriptionText (name url : String) : String :=
  "\x7b\"bidderName\": \"" ++ name ++ "\", \"properties\": \x7b\"endpointUrl\": \"" ++ url ++ "\"\x7d\x7d"

def twoBidders (first second : String) : Disk where
  root := .ofEntries [
    ("d", .ofEntries [
      ("a.json", .file (descriptionText first "https://one.test")),
      ("b.json", .file (descriptionText second "https://two.test"))]),
    ("src", .ofEntries [
      ("main", .ofEntries [
        ("java", .ofEntries [("a", .empty), ("b", .empty)]),
        ("resources", .ofEntries [
          ("bidder-config", .empty), ("static", .ofEntries [("bidder-params", .empty)])])]),
      ("test", .ofEntries [("java", .ofEntries [("a", .empty), ("b", .empty)])])])]
  here := []

def shallowConfig : CodegenConfig := ⟨"  ", "m", "", "e"⟩

namespace Adapter

theorem buildAll_installs_sample :
    ∃ built e,
      (buildAll shallowConfig ⟨"", true, false⟩ "d").on (twoBidders "a" "b") = (.ok built, e) ∧
        built.map (·.name) = ["a", "b"] ∧
        Installed "" (built.flatMap (·.generated.files)) (twoBidders "a" "b") e := by
  have hrun : ((buildAll shallowConfig ⟨"", true, false⟩ "d").on (twoBidders "a" "b")).1.toOption.map
      (·.map (·.name)) = some ["a", "b"] := by
    decide +kernel
  generalize hon : (buildAll shallowConfig ⟨"", true, false⟩ "d").on (twoBidders "a" "b") = r at hrun
  obtain ⟨x, e⟩ := r
  obtain ⟨built, hbuilt, hnames⟩ := Option.map_eq_some_iff.1 hrun
  obtain rfl : x = .ok built := Outcome.toOption_eq_some.1 hbuilt
  have hlower : (built.map (·.name)).Pairwise fun n m => Java.lower n ≠ Java.lower m := by
    rw [hnames]
    decide +kernel
  rw [List.pairwise_map] at hlower
  exact ⟨built, e, rfl, hnames, buildAll_installs _ _ _ _ _ _ rfl hon hlower⟩

/-- With names that differ in the case of their letters alone, the second bidder takes the files of
the first one. -/
theorem buildAll_overwrites :
    ∃ built e,
      (buildAll shallowConfig ⟨"", true, false⟩ "d").on (twoBidders "a" "A") = (.ok built, e) ∧
        built.map (·.name) = ["a", "A"] ∧
        ∃ b ∈ built, ∃ f ∈ b.generated.files, e.readText (f.target "") ≠ .ok f.contents := by
  have hrun : (((buildAll shallowConfig ⟨"", true, false⟩ "d").on (twoBidders "a" "A")).1.toOption.any
      fun built => built.map (·.name) = ["a", "A"] ∧
        (built[0]?.bind (·.generated.files[2]?)).any fun f =>
          (((buildAll shallowConfig ⟨"", true, false⟩ "d").on (twoBidders "a" "A")).2.readText
            (f.target "")).toOption ≠ some f.contents) = true := by
    decide +kernel
  generalize hon : (buildAll shallowConfig ⟨"", true, false⟩ "d").on (twoBidders "a" "A") = r at hrun
  obtain ⟨x, e⟩ := r
  obtain ⟨built, hbuilt, hrun⟩ := (Option.any_eq_true ..).1 hrun
  obtain rfl : x = .ok built := Outcome.toOption_eq_some.1 hbuilt
  obtain ⟨hnames, hlost⟩ := of_decide_eq_true hrun
  obtain ⟨f, hf, hlost⟩ := (Option.any_eq_true ..).1 hlost
  obtain ⟨b, hb, hf⟩ := Option.bind_eq_some_iff.1 hf
  refine ⟨built, e, rfl, hnames, b, List.mem_of_getElem? hb, f, List.mem_of_getElem? hf, ?_⟩
  intro hread
  exact of_decide_eq_true hlost (Outcome.toOption_eq_some.2 hread)

end Adapter

end AdapterForge

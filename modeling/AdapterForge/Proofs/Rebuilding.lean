import Mathlib.Data.List.Induction
import AdapterForge.Proofs.Building

/-!
What a build that succeeds says about other runs. Run again at once it finds all files as they are,
and a dry run before it tells what it writes, unless the output folder is reached through folders
that the build itself makes.
-/
namespace AdapterForge

namespace FilePath

theorem isAbsolute_join {base path : String} (h : isAbsolute path = false) :
    isAbsolute (join base path) = isAbsolute base := by
  unfold join
  rw [h, if_neg Bool.false_ne_true]
  split
  · next hbase =>
    rw [h, hbase]
    rfl
  · next hbase =>
    have hhead : ∀ s, isAbsolute (base ++ s) = isAbsolute base := by
      intro s
      obtain ⟨c, r, hc⟩ := List.exists_cons_of_ne_nil (mt String.toList_eq_nil_iff.1 hbase)
      simp [isAbsolute, hc]
    split
    · exact hhead path
    · rw [String.append_assoc, hhead]

/-- A path makes no other steps than its names, apart from one that stays. -/
theorem exists_steps (path : String) : ∃ rest, steps path = names path ++ rest ∧ ".." ∉ rest := by
  refine ⟨_, rfl, ?_⟩
  split <;> decide

end FilePath

namespace Disk

variable {t u : FileTree} {d e : Disk} {p q : List String} {path text : String}

def UpFromFolders (t : FileTree) (p steps : List String) : Prop :=
  ∀ l r, steps = l ++ ".." :: r → t.isFolderAt (l.foldl move p) = true

namespace UpFromFolders

variable {steps : List String}

theorem left {rest : List String} (h : UpFromFolders t p (steps ++ rest)) :
    UpFromFolders t p steps :=
  fun l r heq => h l (r ++ rest) (by simp [heq])

theorem last {s : String} (h : UpFromFolders t p (steps ++ [s])) (hs : s = "..") :
    t.isFolderAt (steps.foldl move p) = true :=
  h steps [] (by rw [hs])

theorem append (h : UpFromFolders t p steps) {rest : List String} (hrest : ".." ∉ rest) :
    UpFromFolders t p (steps ++ rest) := by
  intro l r heq
  rcases List.append_eq_append_iff.1 heq with ⟨m, -, hm⟩ | ⟨m, hm, hm'⟩
  · exact absurd (by simp [hm]) hrest
  · cases m with
    | nil => exact absurd (by simp [show rest = ".." :: r from hm'.symm]) hrest
    | cons s m =>
      obtain ⟨rfl, -⟩ := List.cons.inj hm'
      exact h l m hm

theorem of_not_mem (h : ".." ∉ steps) : UpFromFolders t p steps :=
  fun l r heq => absurd (by simp [heq]) h

end UpFromFolders

/-- A step that leads to a folder of `t`, or to a file of both trees, starts in a folder of `t`. -/
theorem isFolderAt_of_move {s : String} (hlater : u.isFolderAt p = true)
    (hup : s = ".." → t.isFolderAt p = true)
    (h : t.isFolderAt (move p s) = true ∨ ∃ text text',
      t.textAt? (move p s) = some text ∧ u.textAt? (move p s) = some text') :
    t.isFolderAt p = true := by
  by_cases hdots : s = ".."
  · exact hup hdots
  · rw [move, if_neg hdots] at h
    split at h
    · rcases h with h | ⟨text, text', -, htext'⟩
      · exact h
      · rw [FileTree.textAt?_of_isFolderAt hlater] at htext'
        cases htext'
    · rcases h with h | ⟨text, text', htext, -⟩
      · simpa using FileTree.isFolderAt_dropLast h
      · exact FileTree.isFolderAt_of_textAt? htext

/-- What can be reached later, and was there before, could be reached before. -/
theorem walk_of_later {steps : List String} (hup : UpFromFolders t p steps)
    (h : walk u p steps = .ok q)
    (hq : t.isFolderAt q = true ∨ ∃ text text', t.textAt? q = some text ∧ u.textAt? q = some text') :
    walk t p steps = .ok q := by
  -- from the last step on, since only the end is known to have been there before
  induction steps using List.reverseRecOn generalizing q with
  | nil => exact h
  | append_singleton steps s ih =>
    obtain ⟨hbefore, hlast⟩ := walk_append_eq_ok.1 h
    obtain ⟨hlater, hs, hmove⟩ := walk_cons_eq_ok.1 hlast
    cases hmove
    have hfolder := isFolderAt_of_move hlater hup.last hq
    have hsteps := ih hup.left hbefore (.inl hfolder)
    exact walk_append_eq_ok.2 ⟨hsteps, walk_cons_eq_ok.2 ⟨hfolder, hs, rfl⟩⟩

def StepsUpFromFolders (d : Disk) (path : String) : Prop :=
  UpFromFolders d.root (d.start path) (FilePath.steps path)

namespace Frame

variable {places : List (List String)}

theorem stepsUpFromFolders (h : Frame places d e) (hup : d.StepsUpFromFolders path) :
    e.StepsUpFromFolders path := by
  intro l r heq
  rw [h.start_eq]
  exact h.folders _ (hup l r heq)

theorem readText_iff (h : Frame places d e) (hpath : d.place path ∉ places)
    (hup : d.StepsUpFromFolders path) :
    e.readText path = .ok text ↔ d.readText path = .ok text := by
  refine ⟨fun hread => ?_, h.readText hpath⟩
  obtain ⟨q, hq, hlater⟩ := readText_eq_ok.1 hread
  have hbefore : d.root.textAt? q = some text := by
    rw [← h.texts q, hlater]
    rwa [locate_eq_place hq, h.place_eq]
  obtain ⟨hfault, hwalk⟩ := follow_eq_ok.1 hq
  rw [h.start_eq] at hwalk
  have hback := walk_of_later hup hwalk (.inr ⟨text, text, hbefore, hlater⟩)
  exact readText_eq_ok.2 ⟨q, follow_eq_ok.2 ⟨hfault, hback⟩, hbefore⟩

end Frame

theorem StepsUpFromFolders.join {dir : String} (h : d.StepsUpFromFolders dir)
    (hpath : ".." ∉ FilePath.names path) : d.StepsUpFromFolders (FilePath.join dir path) := by
  unfold StepsUpFromFolders at h ⊢
  obtain ⟨rest, hsteps, hrest⟩ := FilePath.exists_steps (FilePath.join dir path)
  rw [hsteps]
  cases habs : FilePath.isAbsolute path with
  | true =>
    have hjoin : FilePath.join dir path = path := by simp [FilePath.join, habs]
    rw [hjoin]
    exact (UpFromFolders.of_not_mem hpath).append hrest
  | false =>
    obtain ⟨rest', hdir, -⟩ := FilePath.exists_steps dir
    rw [hdir] at h
    rw [FilePath.names_join habs, start, FilePath.isAbsolute_join habs, ← start]
    exact (h.left.append hpath).append hrest

end Disk

namespace GeneratedFile

variable {f : GeneratedFile} {o : BuildOptions} {d e : Disk}

theorem outcome_eq {places : List (List String)} (h : Disk.Frame places d e)
    (hpath : d.place (f.target o.outputDir) ∉ places)
    (hup : o.force = true ∨ d.StepsUpFromFolders (f.target o.outputDir)) :
    f.outcome o e = f.outcome o d := by
  rcases hup with hforce | hup
  · rw [outcome_of_force hforce, outcome_of_force hforce]
  · simp only [outcome, h.readText_iff hpath hup]

end GeneratedFile

namespace BuiltBidder

theorem written_append_skipped_perm (b : BuiltBidder) :
    (b.written ++ b.skipped).Perm (b.outcomes.map (·.1)) := by
  have hskipped : ∀ r : String × FileOutcome, (r.2 = .skipped : Bool) = !(r.2 = .written : Bool) := by
    rintro ⟨path, _ | _⟩ <;> rfl
  rw [written, skipped, pathsOf, pathsOf, ← List.map_append, funext hskipped]
  exact (List.filter_append_perm _ b.outcomes).map _

end BuiltBidder

namespace GeneratedBidder

open Work

variable {g : GeneratedBidder} {o : BuildOptions} {d e : Disk} {l : List GeneratedFile}
  {r : List (String × FileOutcome)}

def targets (g : GeneratedBidder) (dir : String) : List String := g.files.map (·.target dir)

theorem targets_of_build_files (h : on (l.mapM fun f => f.build o) d = (.ok r, e)) :
    r.map (·.1) = l.map (·.target o.outputDir) := by
  induction l generalizing d r with
  | nil =>
    cases h
    rfl
  | cons f l ih =>
    obtain ⟨x, d', xs, hf, hl, rfl⟩ := on_mapM_cons_eq_ok.1 h
    rw [List.map_cons, List.map_cons, ih hl, (GeneratedFile.build_cases hf).1]

/-- What a run writes can be told from the disk that it starts on. -/
theorem result_of_build_files (hdry : o.dryRun = false)
    (hapart : l.Pairwise (GeneratedFile.Apart o.outputDir d))
    (hup : o.force = true ∨ ∀ f ∈ l, d.StepsUpFromFolders (f.target o.outputDir))
    (h : on (l.mapM fun f => f.build o) d = (.ok r, e)) :
    r = l.map fun f => (f.target o.outputDir, f.outcome o d) := by
  induction l generalizing d r with
  | nil =>
    cases h
    rfl
  | cons f l ih =>
    obtain ⟨x, d', xs, hf, hl, rfl⟩ := on_mapM_cons_eq_ok.1 h
    rw [List.pairwise_cons] at hapart
    have hframe := (f.build_eq_ok hdry hf).frame
    have hrest : xs = l.map fun g => (g.target o.outputDir, g.outcome o d') := by
      apply ih _ _ hl
      · rw [GeneratedFile.apart_eq hframe]
        exact hapart.2
      · exact hup.imp_right fun hup g hg =>
          hframe.stepsUpFromFolders (hup g (List.mem_cons_of_mem _ hg))
    -- the first file goes elsewhere, so the others find their paths as they were
    have hsame : ∀ g ∈ l, g.outcome o d' = g.outcome o d := by
      intro g hg
      apply GeneratedFile.outcome_eq hframe
      · simpa using (hapart.1 g hg).symm
      · exact hup.imp_right fun hup => hup g (List.mem_cons_of_mem _ hg)
    rw [List.map_cons, (GeneratedFile.build_cases hf).1, hrest,
      List.map_congr_left fun g hg => by rw [hsame g hg]]

theorem targets_of_build {b : BuiltBidder} (h : (g.build o).on d = (.ok b, e)) :
    b.outcomes.map (·.1) = g.targets o.outputDir := by
  obtain ⟨r, d', hfiles, hpure⟩ := on_bind_eq_ok.1 h
  cases hpure
  exact targets_of_build_files hfiles

theorem build_eq_predicted {b : BuiltBidder} (hdry : o.dryRun = false)
    (hapart : g.files.Pairwise (GeneratedFile.Apart o.outputDir d))
    (hup : o.force = true ∨ ∀ f ∈ g.files, d.StepsUpFromFolders (f.target o.outputDir))
    (h : (g.build o).on d = (.ok b, e)) : b = g.predicted o d := by
  obtain ⟨r, d', hfiles, hpure⟩ := on_bind_eq_ok.1 h
  cases hpure
  rw [predicted, ← result_of_build_files hdry hapart hup hfiles]

theorem predicted_of_skipped (h : ∀ f ∈ g.files, f.outcome o d = .skipped) :
    (g.predicted o d).written = [] ∧ (g.predicted o d).skipped = g.targets o.outputDir := by
  have houtcomes : (g.predicted o d).outcomes =
      g.files.map fun f => (f.target o.outputDir, FileOutcome.skipped) :=
    List.map_congr_left fun f hf => by rw [h f hf]
  simp only [BuiltBidder.written, BuiltBidder.skipped, BuiltBidder.pathsOf, houtcomes]
  simp [targets, List.filter_map, Function.comp_def]

end GeneratedBidder

namespace Adapter

open Work

variable {a : Adapter} {config : CodegenConfig} {o : BuildOptions} {d e : Disk} {b : BuiltBidder}

theorem nodup_targets (h : IsWord a.name) {g : GeneratedBidder} (hg : a.generate config = .ok g)
    (dir : String) : (g.targets dir).Nodup := by
  obtain ⟨c, -, rfl⟩ := generate_eq_ok.1 hg
  rw [GeneratedBidder.targets, List.Nodup, List.pairwise_map]
  refine (pairwise_apart h config c dir ⟨.empty, []⟩).imp fun hapart heq => hapart ?_
  rw [heq]

/-- A build of a bidder that succeeds leaves every generated file with its contents and no other file
changed, and tells of each file once. Run again at once it finds all files as they are. A dry run
before it tells the same and changes nothing, as long as the output folder is not reached by going up
from a folder that is missing: such a folder is made for the first file that is written. -/
theorem build_predicts (hname : IsWord a.name) (hdry : o.dryRun = false)
    (h : (a.build config o).on d = (.ok b, e)) :
    a.generate config = .ok b.generated ∧ Installed o.outputDir b.generated.files d e ∧
      (b.written ++ b.skipped).Perm (b.generated.targets o.outputDir) ∧
      (b.generated.targets o.outputDir).Nodup ∧
      (∃ again, (a.build config { o with force := false }).on e = (.ok again, e) ∧
        again.written = [] ∧ again.skipped = b.generated.targets o.outputDir) ∧
      ∃ dry, (a.build config { o with dryRun := true }).on d = (.ok dry, d) ∧
        (o.force = true ∨ d.StepsUpFromFolders o.outputDir → dry = b) := by
  obtain ⟨g, hg, hbuild⟩ := build_eq_ok_iff.1 h
  obtain ⟨c, -, hfiles⟩ := generate_eq_ok.1 hg
  have hapart : g.files.Pairwise (GeneratedFile.Apart o.outputDir d) := by
    rw [hfiles]
    exact pairwise_apart hname config c o.outputDir d
  have hdots : ∀ f ∈ g.files, ".." ∉ FilePath.names f.path := by
    rw [hfiles]
    exact fun f => dots_not_mem_names_files hname
  obtain ⟨rfl, hinstalled⟩ := GeneratedBidder.build_eq_ok hdry hapart hbuild
  refine ⟨hg, hinstalled, ?_, nodup_targets hname hg _, ?_, ?_⟩
  · rw [← GeneratedBidder.targets_of_build hbuild]
    exact b.written_append_skipped_perm
  · have hagain : ∀ f ∈ b.generated.files, f.outcome { o with force := false } e = .skipped :=
      fun f hf => GeneratedFile.outcome_eq_skipped_iff.2 ⟨rfl, hinstalled.contents f hf⟩
    have hrun := GeneratedBidder.on_build_unwritten fun f hf => .inr (hagain f hf)
    exact ⟨_, build_eq_ok_iff.2 ⟨_, hg, hrun⟩, GeneratedBidder.predicted_of_skipped hagain⟩
  · have hrun : (b.generated.build { o with dryRun := true }).on d =
        (.ok (b.generated.predicted { o with dryRun := true } d), d) :=
      GeneratedBidder.on_build_unwritten fun f _ => .inl rfl
    refine ⟨_, build_eq_ok_iff.2 ⟨_, hg, hrun⟩, fun hup => ?_⟩
    have hups := hup.imp_right fun hdir f (hf : f ∈ b.generated.files) => hdir.join (hdots f hf)
    exact (GeneratedBidder.build_eq_predicted hdry hapart hups hbuild).symm

def plainAdapter : Adapter :=
  ⟨⟨"a", .singleRequest, ⟨"https://one.test", none⟩, .none, .none, [], []⟩, [], []⟩

/-- A disk with the folders of a bidder, another one that is empty, and one of the bidder's files. -/
def schemaDisk : Disk where
  root := .ofEntries [("b", .empty),
    ("src", .ofEntries [
      ("main", .ofEntries [
        ("java", .ofEntries [("a", .empty)]),
        ("resources", .ofEntries [
          ("bidder-config", .empty),
          ("static", .ofEntries [
            ("bidder-params", .ofEntries [("a.json", .file plainAdapter.schemaFile.contents)])])])]),
      ("test", .ofEntries [("java", .ofEntries [("a", .empty)])])])]
  here := []

theorem build_predicts_sample :
    ∃ b e dry, (plainAdapter.build shallowConfig ⟨"b/..", false, false⟩).on schemaDisk = (.ok b, e) ∧
      (plainAdapter.build shallowConfig ⟨"b/..", false, true⟩).on schemaDisk = (.ok dry, schemaDisk) ∧
      dry = b ∧ dry.skipped = ["b/../src/main/resources/static/bidder-params/a.json"] := by
  have hrun : ((plainAdapter.build shallowConfig ⟨"b/..", false, false⟩).on schemaDisk).1.toOption.map
      (·.skipped) = some ["b/../src/main/resources/static/bidder-params/a.json"] := by
    decide +kernel
  obtain ⟨b, e, hon, hskipped⟩ := exists_on_of_map hrun
  have hname : IsWord plainAdapter.name := Description.isWord_name (by decide +kernel)
  have hup : schemaDisk.StepsUpFromFolders "b/.." := by
    have hfolder : schemaDisk.root.isFolderAt ["b"] = true := by decide
    rintro (_ | ⟨s, _ | ⟨s', l⟩⟩) r heq
    · exact absurd heq (by simp [show FilePath.steps "b/.." = ["b", ".."] by decide])
    · obtain ⟨rfl, -⟩ : "b" = s ∧ _ := List.cons.inj heq
      exact hfolder
    · exact absurd (congrArg List.length heq)
        (by simp [show FilePath.steps "b/.." = ["b", ".."] by decide])
  obtain ⟨-, -, -, -, -, dry, hdry, hsame⟩ := build_predicts hname rfl hon
  obtain rfl := hsame (.inr hup)
  exact ⟨_, e, _, hon, hdry, rfl, hskipped⟩

/-- The first file makes the folder that the others go up from, so that one of them is found as it is.
The dry run does not find it. -/
theorem dryRun_misses_folder :
    ∃ b e dry, (plainAdapter.build shallowConfig ⟨"c/..", false, false⟩).on schemaDisk = (.ok b, e) ∧
      (plainAdapter.build shallowConfig ⟨"c/..", false, true⟩).on schemaDisk = (.ok dry, schemaDisk) ∧
      b.skipped = ["c/../src/main/resources/static/bidder-params/a.json"] ∧
      dry.skipped = [] := by
  have hrun : ((plainAdapter.build shallowConfig ⟨"c/..", false, false⟩).on schemaDisk).1.toOption.map
      (·.skipped) = some ["c/../src/main/resources/static/bidder-params/a.json"] := by
    decide +kernel
  have hpredicted : ((plainAdapter.build shallowConfig ⟨"c/..", false, true⟩).on
      schemaDisk).1.toOption.map (·.skipped) = some [] := by
    decide +kernel
  obtain ⟨b, e, hon, hskipped⟩ := exists_on_of_map hrun
  obtain ⟨dry, _, hdry, hnone⟩ := exists_on_of_map hpredicted
  obtain ⟨y, hfixed, -⟩ := on_build_dry (o := ⟨"c/..", false, true⟩) rfl plainAdapter shallowConfig
    schemaDisk
  cases hfixed.symm.trans hdry
  exact ⟨b, e, dry, hon, hdry, hskipped, hnone⟩

end Adapter

end AdapterForge

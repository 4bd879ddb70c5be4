import AdapterForge.Command.Basic
import AdapterForge.Proofs.Building

/-!
Validation and dry runs of generation. Both leave the disk as it is, and they accept the same
projects where the folder of the descriptions is there and has files alone under the names of
descriptions.
-/
namespace AdapterForge

open Work

namespace Running

variable {α β : Type} {r : Running (StateM Disk) α} {d : Disk} {o : Option α}

/-- A running command leaves a disk as it is and gives a value, or fails with some error, whatever it
has told before. -/
def Gives (r : Running (StateM Disk) α) (d : Disk) : Option α → Prop
  | some a => ∀ t, ∃ t', (r.run.run t).run d = ((.ok a, t'), d)
  | none => ∀ t, ∃ e errors t', (r.run.run t).run d = ((.error (e :: errors), t'), d)

theorem gives_pure (a : α) (d : Disk) : Gives (pure a) d (some a) := fun t => ⟨t, rfl⟩

theorem gives_throw (e : String) (errors : List String) (d : Disk) :
    Gives (throw (e :: errors) : Running (StateM Disk) α) d none := fun t => ⟨e, errors, t, rfl⟩

theorem gives_log (level : LogLevel) (message : String) (d : Disk) :
    Gives (log level message) d (some ()) := fun _ => ⟨_, rfl⟩

theorem run_bind_of_ok {f : α → Running (StateM Disk) β} {t t' : Transcript} {a : α} {e : Disk}
    (h : (r.run.run t).run d = ((.ok a, t'), e)) :
    ((r >>= f).run.run t).run d = ((f a).run.run t').run e := by
  rw [ExceptT.run_bind, StateT.run_bind, StateT.run_bind, h]
  rfl

theorem run_bind_of_error {f : α → Running (StateM Disk) β} {t t' : Transcript}
    {errors : List String} {e : Disk} (h : (r.run.run t).run d = ((.error errors, t'), e)) :
    ((r >>= f).run.run t).run d = ((.error errors, t'), e) := by
  rw [ExceptT.run_bind, StateT.run_bind, StateT.run_bind, h]
  rfl

theorem Gives.bind {f : α → Running (StateM Disk) β} {k : α → Option β} (h : Gives r d o)
    (hf : ∀ a, o = some a → Gives (f a) d (k a)) : Gives (r >>= f) d (o.bind k) := by
  cases o with
  | none =>
    intro t
    obtain ⟨e, errors, t', hr⟩ := h t
    exact ⟨e, errors, t', run_bind_of_error hr⟩
  | some a =>
    have hfa := hf a rfl
    rw [Option.bind_some]
    cases hk : k a with
    | none =>
      rw [hk] at hfa
      intro t
      obtain ⟨t', hr⟩ := h t
      obtain ⟨e, errors, t'', ha⟩ := hfa t'
      exact ⟨e, errors, t'', (run_bind_of_ok hr).trans ha⟩
    | some b =>
      rw [hk] at hfa
      intro t
      obtain ⟨t', hr⟩ := h t
      obtain ⟨t'', ha⟩ := hfa t'
      exact ⟨t'', (run_bind_of_ok hr).trans ha⟩

theorem gives_log_bind (level : LogLevel) (message : String)
    {f : Unit → Running (StateM Disk) α} (h : Gives (f ()) d o) :
    Gives (log level message >>= f) d o :=
  (gives_log level message d).bind (k := fun _ => o) fun _ _ => h

theorem gives_attempt {w : Work (StateM Disk) α} (hw : w.ReadOnly) (d : Disk) :
    Gives (attempt w) d (some (w.value d)) := by
  intro t
  have hon : ((attempt w).run.run t).run d = ((.ok (w.on d).1, t), (w.on d).2) := rfl
  exact ⟨t, by rw [hon, hw.on_eq]⟩

theorem gives_within {w : Work (StateM Disk) α} (hw : w.ReadOnly) (context : String) (d : Disk) :
    Gives (within context w) d (w.value d).toOption := by
  unfold within
  refine (gives_attempt hw d).bind (k := Except.toOption) ?_
  rintro x -
  cases x with
  | ok a => exact gives_pure a d
  | error e => exact gives_throw _ _ d

theorem gives_mapM {f : α → Running (StateM Disk) β} {k : α → Option β} {l : List α}
    (hf : ∀ a ∈ l, Gives (f a) d (k a)) : Gives (l.mapM f) d (l.mapM k) := by
  induction l with
  | nil => exact gives_pure [] d
  | cons a l ih =>
    rw [List.mapM_cons, List.mapM_cons]
    refine (hf a (by simp)).bind fun b _ => ?_
    exact (ih fun c hc => hf c (List.mem_cons_of_mem _ hc)).bind fun bs _ => gives_pure _ d

theorem gives_forM {f : α → Running (StateM Disk) Unit} {l : List α}
    (hf : ∀ a ∈ l, Gives (f a) d (some ())) : Gives (l.forM f) d (some ()) := by
  induction l with
  | nil => exact gives_pure () d
  | cons a l ih =>
    exact (hf a (by simp)).bind (k := fun _ => some ()) fun _ _ =>
      ih fun c hc => hf c (List.mem_cons_of_mem _ hc)

theorem exitCode_result {r : Running (StateM Disk) Unit} {o : Option Unit} (h : Gives r d o) :
    ((result r).run d).1.exitCode = 0 ↔ o.isSome = true := by
  unfold result
  rw [StateT.run_bind]
  cases o with
  | none =>
    obtain ⟨e, errors, t, hr⟩ := h ⟨[], ""⟩
    rw [hr]
    constructor <;> rintro ⟨⟩
  | some _ =>
    obtain ⟨t, hr⟩ := h ⟨[], ""⟩
    rw [hr]
    exact ⟨fun _ => rfl, fun _ => rfl⟩

end Running

namespace Project

theorem readOnly_load (config : String) : ReadOnly (load config) := by
  unfold load
  refine (readOnly_isFolder config).bind fun isFolder => ?_
  split
  refine (readOnly_isThere _).bind fun isThere => ?_
  dsimp only
  split
  · exact fun _ => rfl
  · refine (readOnly_readText _).bind fun text => ?_
    split
    · exact readOnly_throw _
    · split
      · exact readOnly_pure _
      · exact readOnly_throw _

variable {p : Project} {d : Disk}

theorem on_descriptionPaths_of_folder {entries : Fields FileTree}
    (h : d.find? p.biddersDir = some (.folder entries)) :
    p.descriptionPaths.on d = (.ok ((entries.keys.names.map (FilePath.join p.biddersDir)).filter
      FilePath.isDescription), d) := by
  unfold descriptionPaths
  rw [on_bind, on_isThere, h]
  dsimp only [Option.isSome_some]
  rw [if_pos rfl, on_bind, on_namesIn h]
  rfl

theorem on_descriptionPaths_of_missing (h : d.find? p.biddersDir = none) :
    p.descriptionPaths.on d = (.ok [], d) := by
  unfold descriptionPaths
  rw [on_bind, on_isThere, h]
  rfl

theorem readOnly_descriptionPaths (p : Project) : ReadOnly p.descriptionPaths := by
  refine (readOnly_isThere _).bind fun isThere => ?_
  split
  · exact (readOnly_namesIn _).bind fun names => readOnly_pure _
  · exact readOnly_pure _

end Project

namespace Adapter

def compilesAt (d : Disk) (path : String) : Bool :=
  ((load path).value d).toOption.any fun a => a.compile.toOption.isSome

variable {config : CodegenConfig} {o : BuildOptions}

theorem readOnly_build (hdry : o.dryRun = true) (a : Adapter) : ReadOnly (a.build config o) := by
  intro d
  obtain ⟨r, hr, -⟩ := on_build_dry hdry a config d
  rw [hr]

theorem readOnly_buildFile (hdry : o.dryRun = true) (path : String) :
    ReadOnly (buildFile config o path) :=
  (readOnly_load path).bind (readOnly_build hdry)

theorem isSome_buildFile (hdry : o.dryRun = true) (path : String) (d : Disk) :
    ((buildFile config o path).value d).toOption.isSome = compilesAt d path := by
  unfold buildFile compilesAt
  rw [(readOnly_load path).value_bind, Outcome.toOption_bind]
  cases ((load path).value d).toOption with
  | none => rfl
  | some a =>
    obtain ⟨r, hr, hiff⟩ := on_build_dry hdry a config d
    rw [Option.bind_some, Option.any_some, value, hr, Bool.eq_iff_iff]
    exact hiff

theorem isSome_buildAll (hdry : o.dryRun = true) {path : String} {d : Disk} {files : List String}
    (hfiles : (descriptionFiles path).on d = (.ok files, d)) :
    ((buildAll config o path).value d).toOption.isSome = files.all (compilesAt d) := by
  unfold buildAll
  rw [(readOnly_descriptionFiles path).value_bind, value, hfiles]
  change (value (files.mapM (buildFile config o)) d).toOption.isSome = _
  rw [ReadOnly.value_mapM (readOnly_buildFile hdry), Outcome.toOption_mapM, Outcome.isSome_mapM]
  congr 1
  funext file
  exact isSome_buildFile hdry file d

theorem readOnly_buildAll (hdry : o.dryRun = true) (path : String) :
    ReadOnly (buildAll config o path) :=
  (readOnly_descriptionFiles path).bind (ReadOnly.mapM (readOnly_buildFile hdry))

end Adapter

namespace Command

open Running

theorem gives_checkDescription (path : String) (d : Disk) :
    Gives (checkDescription path) d (some (Adapter.compilesAt d path)) := by
  have hfail : ∀ message, Gives (checkDescription.fail path message) d (some false) :=
    fun message => gives_log_bind .error _ (gives_pure false d)
  unfold checkDescription Adapter.compilesAt
  refine (gives_attempt (Adapter.readOnly_load path) d).bind (k := fun x =>
    some (x.toOption.any fun a => a.compile.toOption.isSome)) ?_
  rintro x -
  cases x with
  | error e => exact hfail _
  | ok a =>
    simp only [Except.toOption, Option.any_some]
    cases a.compile with
    | error e => exact hfail _
    | ok c => exact gives_log_bind .info _ (gives_pure true d)

theorem gives_loadProject (config : String) (d : Disk) :
    Gives (loadProject config) d ((Project.load config).value d).toOption :=
  gives_within (Project.readOnly_load config) _ d

/-- Validation succeeds when every listed description can be compiled. -/
theorem gives_runValidate (config : String) (d : Disk) :
    Gives (runValidate config) d (((Project.load config).value d).toOption.bind fun p =>
      (p.descriptionPaths.value d).toOption.bind fun paths =>
        if paths.all (Adapter.compilesAt d) then some () else none) := by
  unfold runValidate
  refine gives_log_bind .info _ ?_
  refine (gives_loadProject config d).bind fun p _ => ?_
  refine gives_log_bind .info _ ?_
  refine gives_log_bind .info _ ?_
  refine (gives_within p.readOnly_descriptionPaths _ d).bind fun paths _ => ?_
  have hpassed := gives_mapM (l := paths) fun path _ => gives_checkDescription path d
  rw [show (paths.mapM fun path => some (Adapter.compilesAt d path)) =
    some (paths.map (Adapter.compilesAt d)) from List.mapM_pure] at hpassed
  have hfailures : 0 < (paths.map (Adapter.compilesAt d)).countP (!·) ↔
      ¬ paths.all (Adapter.compilesAt d) = true := by
    simp [List.countP_pos_iff]
  have hlast : ∀ passed, some (paths.map (Adapter.compilesAt d)) = some passed →
      Gives (do
        if 0 < passed.countP (!·) then
          throw [number (passed.countP (!·)) ++ " of " ++ number paths.length ++
            " bidder descriptions are invalid"]
        info ("✓ " ++ number paths.length ++ " bidder descriptions are valid")) d
        (if paths.all (Adapter.compilesAt d) then some () else none) := by
    rintro _ ⟨⟩
    by_cases hall : paths.all (Adapter.compilesAt d) = true
    · rw [if_neg (mt hfailures.1 (not_not.2 hall)), if_pos hall]
      exact gives_log .info _ d
    · rw [if_pos (hfailures.2 hall), if_neg hall]
      refine (gives_throw _ _ d).bind (k := fun _ => some ()) ?_
      rintro _ ⟨⟩
  exact hpassed.bind hlast

theorem gives_tellBuilt (dryRun : Bool) (b : BuiltBidder) (d : Disk) :
    Gives (tellBuilt dryRun b) d (some ()) :=
  gives_log_bind .info _ (gives_forM fun _ _ => gives_log .info _ d)

theorem gives_runGenerate_dry (config : String) (force : Bool) (d : Disk) :
    Gives (runGenerate config none force true) d
      (((Project.load config).value d).toOption.bind fun p =>
        ((Adapter.buildAll p.config.codegen ⟨p.outputDir, force, true⟩ p.biddersDir).value d).toOption.bind
          fun _ => some ()) := by
  unfold runGenerate
  refine gives_log_bind .info _ ?_
  refine (gives_loadProject config d).bind fun p _ => ?_
  refine gives_log_bind .info _ ?_
  refine (gives_within (Adapter.readOnly_buildAll rfl p.biddersDir) _ d).bind fun built _ => ?_
  exact (gives_forM fun b _ => gives_tellBuilt true b d).bind (k := fun _ => some ()) fun _ _ =>
    gives_log .info _ d

end Command

namespace Invocation

def exitOn (i : Invocation) (d : Disk) : Nat := ((i.run : StateM Disk CommandResult).run d).1.exitCode

variable {config : String} {force : Bool} {d : Disk} {p : Project}

theorem exitOn_validate_of_error {x : ProjectError} (h : (Project.load config).value d = .error x) :
    exitOn ⟨config, .validate⟩ d ≠ 0 := by
  have hexit := Running.exitCode_result (Command.gives_runValidate config d)
  rw [h] at hexit
  intro hzero
  cases hexit.1 hzero

theorem exitOn_dryRun_of_error {x : ProjectError} (h : (Project.load config).value d = .error x) :
    exitOn ⟨config, .generate none force true⟩ d ≠ 0 := by
  have hexit := Running.exitCode_result (Command.gives_runGenerate_dry config force d)
  rw [h] at hexit
  intro hzero
  cases hexit.1 hzero

theorem exitOn_validate_eq_zero_iff (h : (Project.load config).value d = .ok p)
    {paths : List String} (hpaths : p.descriptionPaths.on d = (.ok paths, d)) :
    exitOn ⟨config, .validate⟩ d = 0 ↔ paths.all (Adapter.compilesAt d) = true := by
  have hexit := Running.exitCode_result (Command.gives_runValidate config d)
  have hvalue : p.descriptionPaths.value d = .ok paths := congrArg Prod.fst hpaths
  rw [h] at hexit
  simp only [Except.toOption, Option.bind_some, hvalue] at hexit
  refine hexit.trans ?_
  split <;> simp_all

theorem exitOn_dryRun_eq_zero_iff (h : (Project.load config).value d = .ok p) :
    exitOn ⟨config, .generate none force true⟩ d = 0 ↔
      ((Adapter.buildAll p.config.codegen ⟨p.outputDir, force, true⟩ p.biddersDir).value
        d).toOption.isSome = true := by
  have hexit := Running.exitCode_result (Command.gives_runGenerate_dry config force d)
  rw [h] at hexit
  refine hexit.trans ?_
  change (Option.bind _ fun _ => some ()).isSome = true ↔ _
  rw [Option.isSome_bind]
  simp

theorem exitOn_dryRun_of_missing (h : (Project.load config).value d = .ok p)
    (hmissing : d.find? p.biddersDir = none) :
    exitOn ⟨config, .generate none force true⟩ d ≠ 0 := by
  rw [Ne, exitOn_dryRun_eq_zero_iff h, Adapter.buildAll,
    (Adapter.readOnly_descriptionFiles p.biddersDir).value_bind, value,
    Adapter.on_descriptionFiles_of_missing hmissing]
  rintro ⟨⟩

/-- A configuration that does not load fails both. A missing folder of descriptions is fine for
validation and fails generation. Where the folder has files alone under the names of descriptions,
validation succeeds exactly when a dry run of generation does. -/
theorem validate_agrees (config : String) (force : Bool) (d : Disk) :
    (∀ x, (Project.load config).value d = .error x →
      exitOn ⟨config, .validate⟩ d ≠ 0 ∧ exitOn ⟨config, .generate none force true⟩ d ≠ 0) ∧
    ∀ p, (Project.load config).value d = .ok p →
      (d.find? p.biddersDir = none →
        exitOn ⟨config, .validate⟩ d = 0 ∧ exitOn ⟨config, .generate none force true⟩ d ≠ 0) ∧
      ∀ entries, d.find? p.biddersDir = some (.folder entries) →
        (∀ k ∈ entries.keys.names, FilePath.isDescription (FilePath.join p.biddersDir k) = true →
          d.hasFolder (FilePath.join p.biddersDir k) = false) →
        (exitOn ⟨config, .validate⟩ d = 0 ↔ exitOn ⟨config, .generate none force true⟩ d = 0) := by
  refine ⟨fun x hx => ⟨exitOn_validate_of_error hx, exitOn_dryRun_of_error hx⟩, fun p hp => ⟨?_, ?_⟩⟩
  · intro hmissing
    refine ⟨?_, exitOn_dryRun_of_missing hp hmissing⟩
    rw [exitOn_validate_eq_zero_iff hp (Project.on_descriptionPaths_of_missing hmissing)]
    rfl
  · intro entries hdir hfiles
    rw [exitOn_validate_eq_zero_iff hp (Project.on_descriptionPaths_of_folder hdir),
      exitOn_dryRun_eq_zero_iff hp,
      Adapter.isSome_buildAll rfl (Adapter.on_descriptionFiles_of_folder hdir)]
    have hall : ((entries.keys.names.map (FilePath.join p.biddersDir)).filter
        FilePath.isDescription).filter (fun path => !d.hasFolder path) =
          (entries.keys.names.map (FilePath.join p.biddersDir)).filter FilePath.isDescription := by
      rw [List.filter_eq_self]
      intro path hpath
      obtain ⟨hmem, hname⟩ := List.mem_filter.1 hpath
      obtain ⟨k, hk, rfl⟩ := List.mem_map.1 hmem
      rw [hfiles k hk hname]
      rfl
    rw [hall]

def projectDisk (l : List (String × FileTree)) : Disk where
  root := .ofEntries (("bidgen.yaml", .file "name: sample\n") :: l)
  here := []

def bareDisk : Disk := projectDisk []

def fullDisk : Disk :=
  projectDisk [("bidders", .ofEntries [
    ("a.json", .file (descriptionText "sample" "https://sample.test")), ("notes", .empty)])]

theorem validate_agrees_sample :
    (exitOn ⟨"bidgen", .validate⟩ bareDisk ≠ 0 ∧
      exitOn ⟨"bidgen", .generate none false true⟩ bareDisk ≠ 0) ∧
    (exitOn ⟨"bidgen.yaml", .validate⟩ bareDisk = 0 ∧
      exitOn ⟨"bidgen.yaml", .generate none false true⟩ bareDisk ≠ 0) ∧
    exitOn ⟨"bidgen.yaml", .validate⟩ fullDisk = 0 ∧
      exitOn ⟨"bidgen.yaml", .generate none false true⟩ fullDisk = 0 := by
  have hnone : ((Project.load "bidgen").value bareDisk).toOption.isNone = true := by
    decide +kernel
  have hbare : ((Project.load "bidgen.yaml").value bareDisk).toOption.any (fun p =>
      (bareDisk.find? p.biddersDir).isNone) = true := by
    decide +kernel
  have hfull : ((Project.load "bidgen.yaml").value fullDisk).toOption.any (fun p =>
      fullDisk.hasFolder p.biddersDir && (fullDisk.namesIn p.biddersDir).toOption.any fun names =>
        names.all fun k => !FilePath.isDescription (FilePath.join p.biddersDir k) ||
          !fullDisk.hasFolder (FilePath.join p.biddersDir k)) = true := by
    decide +kernel
  refine ⟨?_, ?_, ?_⟩
  · cases hload : (Project.load "bidgen").value bareDisk with
    | error x => exact (validate_agrees "bidgen" false bareDisk).1 x hload
    | ok p => simp [hload, Except.toOption] at hnone
  · obtain ⟨p, hload, hdir⟩ := (Option.any_eq_true ..).1 hbare
    exact ((validate_agrees "bidgen.yaml" false bareDisk).2 p
      (Outcome.toOption_eq_some.1 hload)).1 (Option.isNone_iff_eq_none.1 hdir)
  · obtain ⟨p, hload, hdir⟩ := (Option.any_eq_true ..).1 hfull
    obtain ⟨hfolder, hnames⟩ := Bool.and_eq_true_iff.1 hdir
    obtain ⟨entries, hentries⟩ := Disk.hasFolder_iff.1 hfolder
    rw [Disk.namesIn_eq hentries] at hnames
    have hfiles : ∀ k ∈ entries.keys.names,
        FilePath.isDescription (FilePath.join p.biddersDir k) = true →
          fullDisk.hasFolder (FilePath.join p.biddersDir k) = false := by
      intro k hk hname
      have hk := List.all_eq_true.1 hnames k hk
      rw [hname] at hk
      simpa using hk
    have hvalid : exitOn ⟨"bidgen.yaml", .validate⟩ fullDisk = 0 := by decide +kernel
    have hagree := ((validate_agrees "bidgen.yaml" false fullDisk).2 p
      (Outcome.toOption_eq_some.1 hload)).2 entries hentries hfiles
    exact ⟨hvalid, hagree.1 hvalid⟩

/-- Without a folder of descriptions there is nothing to find fault with, and nothing to build from. -/
theorem validate_disagrees :
    exitOn ⟨"bidgen.yaml", .validate⟩ bareDisk = 0 ∧
      exitOn ⟨"bidgen.yaml", .generate none false true⟩ bareDisk = 1 := by
  decide +kernel

end Invocation

end AdapterForge

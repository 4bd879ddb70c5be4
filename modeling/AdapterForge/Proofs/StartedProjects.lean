import AdapterForge.Proofs.Rebuilding
import AdapterForge.Proofs.StartedConfigs
import AdapterForge.Proofs.Validation

/-!
New projects on a disk: what the start of a project leaves, and which of the new projects can be
loaded under their names.
-/
namespace AdapterForge

open Work

namespace Running

variable {α β : Type} {r : Running (StateM Disk) α} {f : α → Running (StateM Disk) β} {a : α} {b : β}
  {d e : Disk}

/-- A running command that told something before gives a value and leaves a disk. -/
def Leaves (r : Running (StateM Disk) α) (d : Disk) (a : α) (e : Disk) : Prop :=
  ∃ t t', (r.run.run t).run d = ((.ok a, t'), e)

theorem Leaves.bind (h : Leaves (r >>= f) d b e) :
    ∃ a d', Leaves r d a d' ∧ Leaves (f a) d' b e := by
  obtain ⟨t, t'', h⟩ := h
  rcases first : (r.run.run t).run d with ⟨⟨errors | a, t'⟩, d'⟩
  · rw [run_bind_of_error first] at h
    cases h
  · exact ⟨a, d', ⟨t, t', first⟩, t', t'', (run_bind_of_ok first).symm.trans h⟩

/-- A step that is taken on a condition only. -/
theorem Leaves.when {c : Prop} [Decidable c] {r : Running (StateM Disk) Unit}
    {f : Unit → Running (StateM Disk) β} (h : Leaves (if c then r >>= f else f ()) d b e) :
    ∃ d', (c ∧ Leaves r d () d' ∨ ¬c ∧ d = d') ∧ Leaves (f ()) d' b e := by
  split at h
  · next holds =>
    obtain ⟨_, d', first, h⟩ := h.bind
    exact ⟨d', .inl ⟨holds, first⟩, h⟩
  · next fails => exact ⟨d, .inr ⟨fails, rfl⟩, h⟩

theorem Leaves.pure {a' : α} (h : Leaves (Pure.pure a') d a e) : a' = a ∧ d = e := by
  obtain ⟨t, t', h⟩ := h
  cases h
  exact ⟨rfl, rfl⟩

theorem Leaves.throw {errors : List String} (h : Leaves (throw errors) d a e) : False := by
  obtain ⟨t, t', h⟩ := h
  cases h

theorem Leaves.log {level : LogLevel} {message : String} {u : Unit}
    (h : Leaves (Running.log level message) d u e) : d = e := by
  obtain ⟨t, t', h⟩ := h
  cases h
  rfl

theorem Leaves.log_bind {level : LogLevel} {message : String} {f : Unit → Running (StateM Disk) β}
    (h : Leaves (Running.log level message >>= f) d b e) : Leaves (f ()) d b e := by
  obtain ⟨_, d', told, h⟩ := h.bind
  exact told.log ▸ h

theorem Leaves.isThere {path : String} {there : Bool} (h : Leaves (Running.isThere path) d there e) :
    (d.find? path).isSome = there ∧ d = e := by
  obtain ⟨t, t', h⟩ := h
  cases h
  exact ⟨rfl, rfl⟩

theorem Leaves.access {act : StateM Disk (Except IoFault α)} (h : Leaves (Running.access act) d a e) :
    act.run d = (.ok a, e) := by
  obtain ⟨x, d', ⟨t, t', first⟩, h⟩ := h.bind
  have same : (((Except.ok (act.run d).1 : Except (List String) _), t), (act.run d).2) =
      ((Except.ok x, t'), d') := first
  simp only [Prod.mk.injEq, Except.ok.injEq] at same
  obtain ⟨⟨value, -⟩, left⟩ := same
  cases x with
  | ok a' =>
    obtain ⟨rfl, rfl⟩ := h.pure
    exact Prod.ext value left
  | error fault => exact h.throw.elim

def TellsErrors (r : Running (StateM Disk) α) : Prop :=
  ∀ t d errors t' e, (r.run.run t).run d = ((.error errors, t'), e) → errors ≠ []

theorem tellsErrors_pure (a : α) : TellsErrors (Pure.pure a) := by
  rintro t d errors t' e ⟨⟩

theorem tellsErrors_throw (error : String) (errors : List String) :
    TellsErrors (throw (error :: errors) : Running (StateM Disk) α) := by
  rintro t d errors t' e ⟨⟩
  exact List.cons_ne_nil _ _

theorem tellsErrors_log (level : LogLevel) (message : String) : TellsErrors (log level message) := by
  rintro t d errors t' e ⟨⟩

theorem tellsErrors_isThere (path : String) : TellsErrors (isThere path) := by
  rintro t d errors t' e ⟨⟩

theorem TellsErrors.bind (h : TellsErrors r) (hf : ∀ a, TellsErrors (f a)) : TellsErrors (r >>= f) := by
  intro t d errors t'' e failed
  rcases first : (r.run.run t).run d with ⟨⟨_ | a, t'⟩, d'⟩
  · rw [run_bind_of_error first] at failed
    cases failed
    exact h _ _ _ _ _ first
  · rw [run_bind_of_ok first] at failed
    exact hf a _ _ _ _ _ failed

theorem TellsErrors.when {c : Prop} [Decidable c] {r : Running (StateM Disk) Unit}
    {f : Unit → Running (StateM Disk) β} (h : TellsErrors r) (hf : ∀ u, TellsErrors (f u)) :
    TellsErrors (if c then r >>= f else f ()) := by
  split
  · exact h.bind hf
  · exact hf ()

theorem tellsErrors_access (act : StateM Disk (Except IoFault α)) : TellsErrors (access act) := by
  refine TellsErrors.bind (fun t d errors t' e failed => ?_) fun x => ?_
  · cases failed
  · cases x with
    | ok a => exact tellsErrors_pure a
    | error fault => exact tellsErrors_throw _ _

theorem leaves_of_result {r : Running (StateM Disk) Unit} {told : CommandResult}
    (tells : TellsErrors r) (h : (result r).run d = (told, e)) (well : told.exitCode = 0) :
    Leaves r d () e := by
  rw [result, StateT.run_bind] at h
  rcases first : (r.run.run ⟨[], ""⟩).run d with ⟨⟨errors | u, t'⟩, d'⟩
  · rw [first] at h
    cases h
    have some_ := tells _ _ _ _ _ first
    simp [CommandResult.exitCode, some_] at well
  · rw [first] at h
    cases h
    exact ⟨_, _, first⟩

end Running

namespace Command

open Running

theorem leaves_runInit {path : String} {name : Option String} {d e : Disk} {u : Unit}
    (h : Leaves (runInit path name) d u e) :
    ∃ d₁ d₂ d₃ absolute own, d₁.realPath path = .ok absolute ∧
      name.or (FilePath.fileName? absolute) = some own ∧
      Disk.Frame [] d₁ d₂ ∧
      d₂.writeText (FilePath.join path Project.configName) (Project.startConfig own) = .ok d₃ ∧
      d₃.writeText (FilePath.join path "bidders/example.yaml") Project.startDescription = .ok e := by
  unfold runInit at h
  obtain ⟨there, d₀, -, h⟩ := h.bind
  obtain ⟨d₁, -, h⟩ := h.when
  obtain ⟨absolute, d', found, h⟩ := h.bind
  obtain ⟨real, rfl⟩ := Prod.mk.inj found.access
  extract_lets file ends rest at h
  -- where the name comes from does not matter to the rest
  have named : ∃ own, name.or (FilePath.fileName? absolute) = some own ∧ Leaves (rest own) d₁ u e := by
    match name with
    | some own =>
      obtain ⟨_, d', chosen, h⟩ := h.bind
      obtain ⟨rfl, rfl⟩ := chosen.pure
      exact ⟨_, rfl, h⟩
    | none =>
      match found : FilePath.fileName? absolute with
      | some own =>
        rw [found] at h
        obtain ⟨_, d', chosen, h⟩ := h.bind
        obtain ⟨rfl, rfl⟩ := chosen.pure
        exact ⟨_, rfl, h⟩
      | none =>
        rw [found] at h
        obtain ⟨_, d', chosen, h⟩ := h.bind
        exact chosen.throw.elim
  obtain ⟨own, chosen, h⟩ := named
  obtain ⟨_, d', there, h⟩ := h.bind
  obtain ⟨-, rfl⟩ := there.isThere
  obtain ⟨d', ⟨-, refused⟩ | ⟨-, rfl⟩, h⟩ := h.when
  · exact refused.throw.elim
  obtain ⟨_, d₂, folders, h⟩ := h.log_bind.bind
  obtain ⟨_, d₃, config, h⟩ := h.bind
  obtain ⟨_, d₄, example_, h⟩ := h.bind
  obtain ⟨d', folder, h⟩ := h.log_bind.log_bind.when
  obtain rfl : d₄ = d' := folder.elim (fun told => told.2.log) (·.2)
  obtain rfl := h.log_bind.log
  refine ⟨d₁, d₂, d₃, absolute, own, real, chosen, ?_, Disk.run_change_eq_ok.1 config.access,
    Disk.run_change_eq_ok.1 example_.access⟩
  have frame := Disk.onlyFolders_makeFolders (FilePath.join path "bidders") d₁
  rwa [folders.access] at frame

theorem tellsErrors_runInit (path : String) (name : Option String) :
    TellsErrors (runInit (m := StateM Disk) path name) := by
  unfold runInit
  refine (tellsErrors_isThere _).bind fun _ => ?_
  refine (tellsErrors_access _).when fun _ => (tellsErrors_access _).bind fun absolute => ?_
  extract_lets file ends rest
  have loud : ∀ own, TellsErrors (rest own) := by
    intro own
    refine (tellsErrors_isThere _).bind fun _ => (tellsErrors_throw _ _).when fun _ => ?_
    refine (tellsErrors_log _ _).bind fun _ => (tellsErrors_access _).bind fun _ => ?_
    refine (tellsErrors_access _).bind fun _ => (tellsErrors_access _).bind fun _ => ?_
    refine (tellsErrors_log _ _).bind fun _ => (tellsErrors_log _ _).bind fun _ => ?_
    exact (tellsErrors_log _ _).when fun _ => (tellsErrors_log _ _).bind fun _ => tellsErrors_log _ _
  match name with
  | some own => exact (tellsErrors_pure own).bind loud
  | none =>
    match FilePath.fileName? absolute with
    | some own => exact (tellsErrors_pure own).bind loud
    | none => exact (tellsErrors_throw _ _).bind loud

end Command

namespace Disk

open FilePath

variable {d e : Disk} {path file text : String} {p q : List String}

theorem start_join (h : isAbsolute file = false) : d.start (join path file) = d.start path := by
  rw [start, start, isAbsolute_join h]

theorem hasFolder_of_locate (h : d.locate path = .ok p) (folder : d.root.isFolderAt p = true) :
    d.hasFolder path = true := by
  unfold FileTree.isFolderAt at folder
  unfold hasFolder find?
  rw [h]
  exact folder

theorem isFolderAt_of_locate_join (name : '/' ∉ file.toList) (some_ : file ≠ "")
    (found : d.locate (join path file) = .ok q) : d.root.isFolderAt (d.place path) = true := by
  obtain ⟨-, walked⟩ := follow_eq_ok.1 found
  rw [steps, names_join_name name some_, List.append_assoc, start_join (isAbsolute_of_not_mem name),
    walk_append_eq_ok] at walked
  rw [place_eq_names]
  exact (walk_cons_eq_ok.1 walked.2).1

theorem place_join (name : '/' ∉ file.toList) (some_ : ∃ c ∈ file.toList, c ≠ '.') :
    d.place (join path file) = d.place path ++ [file] := by
  obtain ⟨c, mem, other⟩ := some_
  have some_ : file ≠ "" := by
    rintro rfl
    cases mem
  rw [place_eq_names, place_eq_names, names_join_name name some_, List.foldl_append,
    start_join (isAbsolute_of_not_mem name), List.foldl_cons, List.foldl_nil, move_of_mem mem other]

theorem Frame.realPath {places : List (List String)} {absolute : String} (h : Frame places d e)
    (real : d.realPath path = .ok absolute) (folder : e.hasFolder path = true) :
    e.realPath path = .ok absolute := by
  obtain ⟨p, found, real⟩ := Outcome.bind_eq_ok.1 real
  have later := h.locate found
  obtain ⟨entries, there⟩ := hasFolder_iff.1 folder
  simp only [find?, later] at there
  refine Outcome.bind_eq_ok.2 ⟨p, later, ?_⟩
  rw [there]
  cases before : d.root.at? p with
  | none =>
    rw [before] at real
    cases real
  | some v =>
    rw [before] at real
    exact real

theorem find?_of_readText (h : d.readText path = .ok text) : (d.find? path).isSome = true := by
  obtain ⟨p, found, own⟩ := readText_eq_ok.1 h
  simp only [find?, found]
  unfold FileTree.textAt? at own
  cases there : d.root.at? p with
  | none =>
    rw [there] at own
    cases own
  | some v => rfl

end Disk

namespace Project

open Disk

theorem on_load_of_folder {d : Disk} {path text : String} (folder : d.hasFolder path = true)
    (read : d.readText (FilePath.join path configName) = .ok text) :
    (load path).on d =
      (match ProjectConfig.ofText? text with
        | none => .error .configMalformed
        | some c => if c.codegen.isIndentable then .ok ⟨c, path⟩ else .error .indentMalformed, d) := by
  have there := find?_of_readText read
  have place : located path true = (FilePath.join path configName, path) := rfl
  unfold load
  rw [on_bind, on_isFolder, folder]
  dsimp only
  rw [place]
  dsimp only
  rw [on_bind, on_isThere, there]
  dsimp only
  rw [if_neg (by decide), on_bind, on_access, run_readText, read]
  dsimp only [Except.mapError]
  cases ProjectConfig.ofText? text with
  | none => rfl
  | some c =>
    dsimp only
    split <;> rfl

theorem isIndentable_standard : CodegenConfig.standard.isIndentable = true := by
  decide

theorem exists_on_load_iff {d : Disk} {path name : String} (folder : d.hasFolder path = true)
    (read : d.readText (FilePath.join path configName) = .ok (startConfig name)) :
    (∃ p, (load path).on d = (.ok p, d) ∧ p.config.name = name) ↔
      name = "" ∨ Yaml.isPlainLine name.toList = true := by
  rw [on_load_of_folder folder read, ← ofText?_startConfig_name_iff]
  constructor
  · rintro ⟨p, loaded, own⟩
    split at loaded
    · cases loaded
    · next c config =>
      split at loaded
      · cases loaded
        exact ⟨c, config, own⟩
      · cases loaded
  · intro h
    have indentable : (startedConfig name).codegen.isIndentable = true := isIndentable_standard
    refine ⟨⟨startedConfig name, path⟩, ?_, rfl⟩
    rw [ofText?_startConfig ((ofText?_startConfig_name_iff name).1 h)]
    dsimp only
    rw [if_pos indentable]

end Project

namespace Command

open Disk

theorem started_of_leaves {path : String} {name : Option String} {d e : Disk} {u : Unit}
    (h : Running.Leaves (runInit path name) d u e) :
    ∃ own, name.or ((e.realPath path).toOption.bind FilePath.fileName?) = some own ∧
      e.hasFolder path = true ∧
      e.readText (FilePath.join path Project.configName) = .ok (Project.startConfig own) := by
  obtain ⟨d₁, d₂, d₃, absolute, own, real, chosen, made, config, description⟩ := leaves_runInit h
  have kept := frame_writeText description
  have folders := (made.trans (frame_writeText config)).trans kept
  have read : e.readText (FilePath.join path Project.configName) = .ok (Project.startConfig own) := by
    -- the example goes to a folder below, so the configuration stays as it was written
    refine kept.readText (fun same => ?_) (readText_writeText config)
    have ends : FilePath.ending (FilePath.join path "bidders/example.yaml") =
        ["example.yaml", "bidders"] := FilePath.ending_join (by decide)
    have other := place_of_ending ends ⟨'e', by decide, by decide⟩ ⟨'b', by decide, by decide⟩ d₃
    rw [← List.mem_singleton.1 same, place_join (by decide) ⟨'b', by decide, by decide⟩] at other
    simp [Project.configName] at other
  have folder : e.hasFolder path = true := by
    obtain ⟨q, found, -⟩ := readText_eq_ok.1 read
    obtain ⟨p, there, -⟩ := Outcome.bind_eq_ok.1 real
    have there := folders.locate there
    refine hasFolder_of_locate there ?_
    rw [locate_eq_place there]
    exact isFolderAt_of_locate_join (by decide) (by decide) found
  refine ⟨own, ?_, folder, read⟩
  rw [folders.realPath real folder]
  exact chosen

end Command

namespace Invocation

/-- A new project can be loaded under its name when the name is empty or a plain line, and under no
other name. -/
theorem load_of_init_iff {config path : String} {name : Option String} {d e : Disk}
    {told : CommandResult}
    (ran : (Invocation.run ⟨config, .init path name⟩ : StateM Disk CommandResult).run d = (told, e))
    (well : told.exitCode = 0) :
    ∃ own, name.or ((e.realPath path).toOption.bind FilePath.fileName?) = some own ∧
      ((∃ p, (Project.load path).on e = (.ok p, e) ∧ p.config.name = own) ↔
        own = "" ∨ Yaml.isPlainLine own.toList = true) := by
  have leaves := Running.leaves_of_result (Command.tellsErrors_runInit path name) ran well
  obtain ⟨own, chosen, folder, read⟩ := Command.started_of_leaves leaves
  exact ⟨own, chosen, Project.exists_on_load_iff folder read⟩

def newProject (name : String) : CommandResult × Disk :=
  (Invocation.run ⟨"bidgen.yaml", .init "app" (some name)⟩ : StateM Disk CommandResult).run ⟨.empty, []⟩

theorem run_newProject (name : String) :
    (Invocation.run ⟨"bidgen.yaml", .init "app" (some name)⟩ : StateM Disk CommandResult).run
      ⟨.empty, []⟩ = ((newProject name).1, (newProject name).2) :=
  (Prod.eta _).symm

theorem load_of_init_sample :
    (newProject "ads").1.exitCode = 0 ∧ ∃ p,
      (Project.load "app").on (newProject "ads").2 = (.ok p, (newProject "ads").2) ∧
        p.config.name = "ads" := by
  have well : (newProject "ads").1.exitCode = 0 := by decide
  obtain ⟨own, chosen, loaded⟩ := load_of_init_iff (run_newProject "ads") well
  cases chosen
  exact ⟨well, loaded.2 (.inr (by cbv))⟩

/-- A colon with a blank behind it makes a mapping of the name. -/
theorem init_not_loaded :
    (newProject "ads: eu").1.exitCode = 0 ∧ ¬∃ p,
      (Project.load "app").on (newProject "ads: eu").2 = (.ok p, (newProject "ads: eu").2) ∧
        p.config.name = "ads: eu" := by
  have well : (newProject "ads: eu").1.exitCode = 0 := by decide
  have leaves := Running.leaves_of_result (Command.tellsErrors_runInit "app" (some "ads: eu"))
    (run_newProject "ads: eu") well
  obtain ⟨own, chosen, folder, read⟩ := Command.started_of_leaves leaves
  cases chosen
  refine ⟨well, fun loaded => ?_⟩
  obtain none_ | plain := (Project.exists_on_load_iff folder read).1 loaded
  · exact absurd none_ (by decide)
  · have broken : Yaml.isPlainLine "ads: eu".toList = false := by cbv
    rw [broken] at plain
    cases plain

end Invocation

end AdapterForge

import AdapterForge.Project.Build
import AdapterForge.Proofs.DiskFrame
import AdapterForge.Proofs.Resolution

/-!
Work on a disk: what it gives and the disk that it leaves. Work that only reads leaves the disk as
it is.
-/
namespace AdapterForge

namespace Disk

variable {α β : Type} {d e : Disk}

def OnlyFolders (act : StateM Disk α) : Prop := ∀ d, Frame [] d (act.run d).2

theorem onlyFolders_pure (a : α) : OnlyFolders (pure a) := fun d => .refl d

theorem OnlyFolders.bind {act : StateM Disk α} {f : α → StateM Disk β} (h : OnlyFolders act)
    (hf : ∀ a, OnlyFolders (f a)) : OnlyFolders (act >>= f) :=
  fun d => (h d).trans (hf _ _)

def hasFolder (d : Disk) (path : String) : Bool :=
  match d.find? path with
  | some (.folder _) => true
  | _ => false

theorem hasFolder_iff {path : String} :
    d.hasFolder path = true ↔ ∃ entries, d.find? path = some (.folder entries) := by
  unfold hasFolder
  cases d.find? path with
  | none => simp
  | some t => cases t <;> simp

theorem namesIn_eq {path : String} {entries : Fields FileTree}
    (h : d.find? path = some (.folder entries)) : d.namesIn path = .ok entries.keys.names := by
  unfold find? at h
  unfold namesIn
  cases hp : d.locate path with
  | error fault => simp [hp] at h
  | ok place =>
    rw [hp] at h
    simp [h, bind, Except.bind, pure, Except.pure]

@[simp] theorem run_readText (path : String) (d : Disk) :
    (Storage.readText path : StateM Disk _).run d = (d.readText path, d) := rfl

theorem run_change_of_ok {act : Disk → Except IoFault Disk} (h : act d = .ok e) :
    (change act).run d = (.ok (), e) := by
  simp only [change, StateT.run_bind, StateT.run_get, pure_bind, h]
  rfl

theorem run_change_of_error {act : Disk → Except IoFault Disk} {fault : IoFault}
    (h : act d = .error fault) : (change act).run d = (.error fault, d) := by
  simp only [change, StateT.run_bind, StateT.run_get, pure_bind, h]
  rfl

theorem run_change_eq_ok {act : Disk → Except IoFault Disk} {u : Unit} :
    (change act).run d = (.ok u, e) ↔ act d = .ok e := by
  cases h : act d with
  | error fault =>
    rw [run_change_of_error h]
    constructor <;> rintro ⟨⟩
  | ok e' =>
    rw [run_change_of_ok h]
    constructor <;>
    · rintro ⟨⟩
      rfl

theorem onlyFolders_makeFolder (path : String) :
    OnlyFolders (Storage.makeFolder path : StateM Disk _) := by
  intro d
  change Frame [] d ((change (·.makeFolder path)).run d).2
  cases h : d.makeFolder path with
  | ok e =>
    rw [run_change_of_ok h]
    exact frame_makeFolder h
  | error fault =>
    rw [run_change_of_error h]
    exact .refl d

theorem onlyFolders_orFolder (path : String) (made : Except IoFault Unit) :
    OnlyFolders (Storage.orFolder path made : StateM Disk _) := by
  cases made with
  | ok _ => exact onlyFolders_pure _
  | error e => exact fun d => .refl d

theorem onlyFolders_makeFirst (paths : List String) :
    OnlyFolders (Storage.makeFirst paths : StateM Disk _) := by
  induction paths with
  | nil => exact onlyFolders_pure _
  | cons path above ih =>
    unfold Storage.makeFirst
    refine (onlyFolders_makeFolder path).bind fun made => ?_
    split
    · refine ih.bind fun r => ?_
      cases r with
      | ok _ => exact (onlyFolders_makeFolder path).bind (onlyFolders_orFolder path)
      | error e => exact onlyFolders_pure _
    · exact onlyFolders_orFolder path _

theorem onlyFolders_makeFolders (path : String) :
    OnlyFolders (Storage.makeFolders path : StateM Disk _) :=
  onlyFolders_makeFirst _

end Disk

namespace Work

variable {α β : Type} {d e : Disk} {a : α} {b : β}

/-- What some work gives on a disk, and the disk that it leaves. -/
def on (w : Work (StateM Disk) α) (d : Disk) : Except ProjectError α × Disk := w.run.run d

@[simp] theorem on_pure (a : α) (d : Disk) : (pure a : Work (StateM Disk) α).on d = (.ok a, d) := rfl

@[simp] theorem on_compiled (r : Except RuleError α) (d : Disk) :
    (compiled r : Work (StateM Disk) α).on d = (r.mapError .rule, d) := rfl

@[simp] theorem on_lift (act : StateM Disk α) (d : Disk) :
    on (ExceptT.lift act) d = (.ok (act.run d).1, (act.run d).2) := rfl

@[simp] theorem on_access (act : StateM Disk (Except IoFault α)) (d : Disk) :
    (access act).on d = ((act.run d).1.mapError .io, (act.run d).2) := rfl

theorem on_access_eq_ok {act : StateM Disk (Except IoFault α)} :
    (access act).on d = (.ok a, e) ↔ act.run d = (.ok a, e) := by
  rw [on_access, Prod.mk.injEq, Outcome.mapError_eq_ok, Prod.ext_iff]

theorem on_bind (w : Work (StateM Disk) α) (f : α → Work (StateM Disk) β) (d : Disk) :
    (w >>= f).on d = match w.on d with
      | (.ok a, e) => (f a).on e
      | (.error x, e) => (.error x, e) := by
  unfold on
  rw [ExceptT.run_bind, StateT.run_bind]
  rcases w.run.run d with ⟨_ | _, e⟩ <;> rfl

theorem on_bind_eq_ok {w : Work (StateM Disk) α} {f : α → Work (StateM Disk) β} :
    (w >>= f).on d = (.ok b, e) ↔ ∃ a d', w.on d = (.ok a, d') ∧ (f a).on d' = (.ok b, e) := by
  rw [on_bind]
  rcases w.on d with ⟨_ | _, d'⟩ <;> simp

theorem on_mapM_cons_eq_ok {f : α → Work (StateM Disk) β} {l : List α} {r : List β} :
    on ((a :: l).mapM f) d = (.ok r, e) ↔
      ∃ b d' s, (f a).on d = (.ok b, d') ∧ on (l.mapM f) d' = (.ok s, e) ∧ r = b :: s := by
  rw [List.mapM_cons, on_bind_eq_ok]
  constructor
  · rintro ⟨b, d', hb, h⟩
    obtain ⟨s, d'', hs, h⟩ := on_bind_eq_ok.1 h
    cases h
    exact ⟨b, d', s, hb, hs, rfl⟩
  · rintro ⟨b, d', s, hb, hs, rfl⟩
    exact ⟨b, d', hb, on_bind_eq_ok.2 ⟨s, e, hs, rfl⟩⟩

theorem exists_on_of_map {w : Work (StateM Disk) α} {f : α → β}
    (h : (w.on d).1.toOption.map f = some b) : ∃ a e, w.on d = (.ok a, e) ∧ f a = b := by
  obtain ⟨a, ha, hf⟩ := Option.map_eq_some_iff.1 h
  exact ⟨a, _, Prod.ext (Outcome.toOption_eq_some.1 ha) rfl, hf⟩

theorem on_bind_eq_error {w : Work (StateM Disk) α} {f : α → Work (StateM Disk) β}
    {x : ProjectError} :
    (w >>= f).on d = (.error x, e) ↔
      w.on d = (.error x, e) ∨ ∃ a d', w.on d = (.ok a, d') ∧ (f a).on d' = (.error x, e) := by
  rw [on_bind]
  rcases w.on d with ⟨_ | _, d'⟩ <;> simp

theorem on_mapM_of_fixed {f : α → Work (StateM Disk) β} {g : α → β} {l : List α}
    (h : ∀ a ∈ l, (f a).on d = (.ok (g a), d)) : on (l.mapM f) d = (.ok (l.map g), d) := by
  induction l with
  | nil => rfl
  | cons a l ih =>
    rw [List.forall_mem_cons] at h
    rw [List.mapM_cons, on_bind, h.1]
    dsimp only
    rw [on_bind, ih h.2]
    rfl

theorem on_mapM_eq_error {f : α → Work (StateM Disk) β} {l : List α} {x : ProjectError} :
    on (l.mapM f) d = (.error x, e) ↔
      ∃ k a r d', l[k]? = some a ∧ on ((l.take k).mapM f) d = (.ok r, d') ∧
        (f a).on d' = (.error x, e) := by
  induction l generalizing d with
  | nil => simp
  | cons a l ih =>
    rw [List.mapM_cons, on_bind_eq_error]
    constructor
    · rintro (hfirst | ⟨b, d', hb, hrest⟩)
      · exact ⟨0, a, [], d, rfl, rfl, hfirst⟩
      · rcases on_bind_eq_error.1 hrest with hrest | ⟨_, _, _, hpure⟩
        · obtain ⟨k, c, r, d'', hc, hr, hfail⟩ := ih.1 hrest
          refine ⟨k + 1, c, b :: r, d'', hc, ?_, hfail⟩
          rw [List.take_succ_cons]
          exact on_mapM_cons_eq_ok.2 ⟨b, d', r, hb, hr, rfl⟩
        · cases hpure
    · rintro ⟨k, c, r, d', hc, hr, hfail⟩
      cases k with
      | zero =>
        cases hc
        cases hr
        exact .inl hfail
      | succ k =>
        rw [List.take_succ_cons] at hr
        obtain ⟨b, d₁, s, hb, hs, -⟩ := on_mapM_cons_eq_ok.1 hr
        refine .inr ⟨b, d₁, hb, on_bind_eq_error.2 (.inl ?_)⟩
        exact ih.2 ⟨k, c, s, _, hc, hs, hfail⟩

def ReadOnly (w : Work (StateM Disk) α) : Prop := ∀ d, (w.on d).2 = d

theorem readOnly_pure (a : α) : ReadOnly (pure a) := fun _ => rfl

theorem readOnly_throw (x : ProjectError) : ReadOnly (throw x : Work (StateM Disk) α) := fun _ => rfl

theorem readOnly_compiled (r : Except RuleError α) : ReadOnly (compiled r) := fun _ => rfl

theorem readOnly_readText (path : String) : ReadOnly (access (Storage.readText path)) := fun _ => rfl

theorem readOnly_namesIn (path : String) : ReadOnly (access (Storage.namesIn path)) := fun _ => rfl

theorem readOnly_isThere (path : String) : ReadOnly (isThere path) := fun _ => rfl

theorem readOnly_isFolder (path : String) : ReadOnly (isFolder path) := fun _ => rfl

theorem ReadOnly.bind {w : Work (StateM Disk) α} {f : α → Work (StateM Disk) β} (h : w.ReadOnly)
    (hf : ∀ a, (f a).ReadOnly) : ReadOnly (w >>= f) := by
  intro d
  have hd := h d
  rw [on_bind]
  revert hd
  rcases w.on d with ⟨_ | a, e⟩
  · exact id
  · rintro rfl
    exact hf a e

theorem ReadOnly.eq_of_on {w : Work (StateM Disk) α} (h : w.ReadOnly)
    {r : Except ProjectError α} (hw : w.on d = (r, e)) : e = d := by
  have hd := h d
  rwa [hw] at hd

theorem ReadOnly.mapM {f : α → Work (StateM Disk) β} (hf : ∀ a, (f a).ReadOnly) (l : List α) :
    ReadOnly (l.mapM f) := by
  induction l with
  | nil => exact readOnly_pure []
  | cons a l ih =>
    rw [List.mapM_cons]
    exact (hf a).bind fun b => ih.bind fun r => readOnly_pure _

def value (w : Work (StateM Disk) α) (d : Disk) : Except ProjectError α := (w.on d).1

theorem ReadOnly.on_eq {w : Work (StateM Disk) α} (h : w.ReadOnly) (d : Disk) :
    w.on d = (w.value d, d) :=
  Prod.ext rfl (h d)

theorem ReadOnly.value_bind {w : Work (StateM Disk) α} (h : w.ReadOnly)
    (f : α → Work (StateM Disk) β) (d : Disk) :
    (w >>= f).value d = w.value d >>= fun a => (f a).value d := by
  rw [value, on_bind, h.on_eq]
  cases w.value d <;> rfl

theorem ReadOnly.value_mapM {f : α → Work (StateM Disk) β} (hf : ∀ a, (f a).ReadOnly) (l : List α)
    (d : Disk) : value (l.mapM f) d = l.mapM fun a => (f a).value d := by
  induction l with
  | nil => rfl
  | cons a l ih =>
    rw [List.mapM_cons, List.mapM_cons, (hf a).value_bind]
    congr 1
    funext b
    rw [(ReadOnly.mapM hf l).value_bind, ih]
    rfl

@[simp] theorem on_isThere (path : String) (d : Disk) :
    (isThere path).on d = (.ok (d.find? path).isSome, d) := rfl

@[simp] theorem on_isFolder (path : String) (d : Disk) :
    (isFolder path).on d = (.ok (d.hasFolder path), d) := rfl

theorem on_namesIn {path : String} {entries : Fields FileTree}
    (h : d.find? path = some (.folder entries)) :
    (access (Storage.namesIn path)).on d = (.ok entries.keys.names, d) := by
  rw [on_access]
  change (Except.mapError _ (d.namesIn path), d) = _
  rw [Disk.namesIn_eq h]
  rfl

theorem on_filterM {f : α → Work (StateM Disk) Bool} {p : α → Bool}
    (hf : ∀ a, (f a).on d = (.ok (p a), d)) (l : List α) :
    on (l.filterM f) d = (.ok (l.filter p), d) := by
  have haux : ∀ acc, on (l.filterAuxM f acc) d = (.ok ((l.filter p).reverse ++ acc), d) := by
    induction l with
    | nil => exact fun _ => rfl
    | cons a l ih =>
      intro acc
      rw [List.filterAuxM, on_bind, hf]
      simp only [ih]
      cases hp : p a <;> simp [hp]
  unfold List.filterM
  rw [on_bind, haux]
  simp

end Work

open Work

theorem Description.readOnly_load (path : String) : ReadOnly (Description.load path) := by
  unfold Description.load
  refine (readOnly_readText path).bind fun text => ?_
  dsimp only
  split
  · exact readOnly_pure _
  · exact readOnly_throw _
  · exact readOnly_throw _

theorem Adapter.readOnly_load (path : String) : ReadOnly (Adapter.load path) :=
  (Description.readOnly_load path).bind fun _ => readOnly_compiled _

theorem Description.fault?_of_ofText {format : TextFormat} {text : String} {x : Description}
    (h : ofText format text = .ok x) : x.fault? = none := by
  unfold ofText at h
  split at h
  · cases h
  · next y hy =>
    unfold check at h
    split at h
    · cases h
    · next hnone =>
      cases h
      exact hnone

theorem Description.fault?_of_load {path : String} {d e : Disk} {x : Description}
    (h : (load path).on d = (.ok x, e)) : x.fault? = none := by
  unfold load at h
  obtain ⟨text, d', -, h⟩ := on_bind_eq_ok.1 h
  dsimp only at h
  split at h
  · next y hy =>
    cases h
    exact fault?_of_ofText hy
  · cases h
  · cases h

theorem Adapter.fault?_of_load {path : String} {d e : Disk} {a : Adapter}
    (h : (load path).on d = (.ok a, e)) : a.description.fault? = none := by
  obtain ⟨x, d', hx, h⟩ := on_bind_eq_ok.1 h
  rw [on_compiled, Prod.mk.injEq, Outcome.mapError_eq_ok] at h
  rw [description_eq h.1]
  exact Description.fault?_of_load hx

namespace Adapter

variable {path : String} {d : Disk}

/-- The files of a folder that are named like descriptions, in ascending order. -/
theorem on_descriptionFiles_of_folder {entries : Fields FileTree}
    (h : d.find? path = some (.folder entries)) :
    (descriptionFiles path).on d = (.ok (((entries.keys.names.map (FilePath.join path)).filter
      FilePath.isDescription).filter fun p => !d.hasFolder p), d) := by
  have hfolder : d.hasFolder path = true := by rw [Disk.hasFolder, h]
  unfold descriptionFiles
  rw [on_bind, on_isThere, h]
  dsimp only [Option.isSome_some]
  rw [if_neg (by decide), on_bind, on_isFolder, hfolder]
  dsimp only
  rw [if_pos rfl, on_bind, on_namesIn h]
  have hfile : ∀ p, on (do return !(← isFolder p)) d = (.ok (!d.hasFolder p), d) := fun _ => rfl
  exact on_filterM hfile _

theorem on_descriptionFiles_of_file {text : String} (h : d.find? path = some (.file text)) :
    (descriptionFiles path).on d = (.ok (if FilePath.isDescription path then [path] else []), d) := by
  have hfolder : d.hasFolder path = false := by rw [Disk.hasFolder, h]
  unfold descriptionFiles
  rw [on_bind, on_isThere, h]
  dsimp only [Option.isSome_some]
  rw [if_neg (by decide), on_bind, on_isFolder, hfolder]
  rfl

theorem on_descriptionFiles_of_missing (h : d.find? path = none) :
    (descriptionFiles path).on d = (.error (.io .notFound), d) := by
  unfold descriptionFiles
  rw [on_bind, on_isThere, h]
  rfl

/-- All that a path can list: the files of a folder, a file by itself, or nothing that is there. -/
theorem on_descriptionFiles_cases (path : String) (d : Disk) :
    (∃ entries : Fields FileTree, (descriptionFiles path).on d =
      (.ok (((entries.keys.names.map (FilePath.join path)).filter
        FilePath.isDescription).filter fun p => !d.hasFolder p), d)) ∨
    (descriptionFiles path).on d = (.ok (if FilePath.isDescription path then [path] else []), d) ∨
    (descriptionFiles path).on d = (.error (.io .notFound), d) := by
  match h : d.find? path with
  | some (.folder entries) => exact .inl ⟨entries, on_descriptionFiles_of_folder h⟩
  | some (.file text) => exact .inr (.inl (on_descriptionFiles_of_file h))
  | none => exact .inr (.inr (on_descriptionFiles_of_missing h))

theorem readOnly_descriptionFiles (path : String) : ReadOnly (descriptionFiles path) := by
  intro d
  obtain ⟨entries, h⟩ | h | h := on_descriptionFiles_cases path d <;> rw [h]

end Adapter

end AdapterForge

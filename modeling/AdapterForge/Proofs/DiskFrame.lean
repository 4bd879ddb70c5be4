import AdapterForge.Proofs.Outcome
import AdapterForge.Proofs.PathNames
import AdapterForge.Storage.Disk

/-!
What a change of a disk leaves as it was: files are written one at a time, and no folder is ever
lost, so a path leads to the same place before and after.
-/
namespace AdapterForge

namespace FileTree

def text? : FileTree → Option String
  | .file text => some text
  | .folder _ => none

def Childless (t : FileTree) : Prop := ∀ k r, t.at? (k :: r) = none

theorem childless_file (text : String) : (file text).Childless := fun _ _ => rfl

theorem childless_empty : empty.Childless := by
  intro k r
  simp only [empty, at?, Fields.get?_empty]

theorem textAt?_eq (t : FileTree) (place : List String) :
    t.textAt? place = ((t.at? place).map (·.text?)).join := by
  unfold textAt?
  cases t.at? place with
  | none => rfl
  | some v => cases v <;> rfl

theorem isFolderAt_iff {t : FileTree} {place : List String} :
    t.isFolderAt place = true ↔ (t.at? place).map (·.text?) = some none := by
  unfold isFolderAt
  cases t.at? place with
  | none => simp
  | some v => cases v <;> simp [text?]

theorem isFolderAt_of_at? {t v : FileTree} {p : List String} {k : String}
    (h : t.at? (p ++ [k]) = some v) : t.isFolderAt p = true := by
  unfold isFolderAt
  rw [at?_append] at h
  cases hp : t.at? p with
  | none => simp [hp] at h
  | some w =>
    cases w with
    | file text => simp [hp, at?] at h
    | folder entries => rfl

theorem isFolderAt_dropLast {t : FileTree} {p : List String} (h : t.isFolderAt p = true) :
    t.isFolderAt p.dropLast = true := by
  by_cases hp : p = []
  · rwa [hp] at h ⊢
  · rw [← List.dropLast_append_getLast hp, isFolderAt_iff] at h
    obtain ⟨v, hv, -⟩ := Option.map_eq_some_iff.1 h
    exact isFolderAt_of_at? hv

theorem isFolderAt_of_textAt? {t : FileTree} {p : List String} {k text : String}
    (h : t.textAt? (p ++ [k]) = some text) : t.isFolderAt p = true := by
  rw [textAt?_eq] at h
  obtain ⟨u, hu, -⟩ := Option.map_eq_some_iff.1 (Option.join_eq_some_iff.1 h)
  exact isFolderAt_of_at? hu

theorem textAt?_of_isFolderAt {t : FileTree} {p : List String} (h : t.isFolderAt p = true) :
    t.textAt? p = none := by
  rw [isFolderAt_iff] at h
  rw [textAt?_eq, h]
  rfl

section

variable {entries : Fields FileTree} {v : FileTree} {k : String} {r : List String}

theorem put_of_get? {child : FileTree} (h : entries.get? k = some child) :
    (folder entries).put v (k :: r) = folder (entries.set k (child.put v r)) := by
  rw [put.eq_def]
  simp only [h]

theorem put_last (h : entries.get? k = none) :
    (folder entries).put v [k] = folder (entries.set k v) := by
  simp only [put, h]

theorem put_of_missing (h : entries.get? k = none) (hr : r ≠ []) :
    (folder entries).put v (k :: r) = folder entries := by
  obtain ⟨j, r, rfl⟩ := List.exists_cons_of_ne_nil hr
  simp only [put, h]

theorem isFolder_put (entries : Fields FileTree) (v : FileTree) (k : String) (r : List String) :
    ∃ after, (folder entries).put v (k :: r) = folder after ∧
      ∀ j, j ≠ k → after.get? j = entries.get? j := by
  cases hk : entries.get? k with
  | some child =>
    exact ⟨_, put_of_get? hk, fun j hj => by rw [Fields.get?_set, if_neg hj]⟩
  | none =>
    by_cases hr : r = []
    · subst hr
      exact ⟨_, put_last hk, fun j hj => by rw [Fields.get?_set, if_neg hj]⟩
    · exact ⟨_, put_of_missing hk hr, fun _ _ => rfl⟩

theorem at?_folder_cons (entries : Fields FileTree) (k : String) (r : List String) :
    (folder entries).at? (k :: r) = (entries.get? k).bind (·.at? r) := by
  rw [at?]
  cases entries.get? k <;> rfl

theorem textAt?_folder_cons (entries : Fields FileTree) (k : String) (r : List String) :
    (folder entries).textAt? (k :: r) = (entries.get? k).bind (·.textAt? r) := by
  unfold textAt?
  rw [at?_folder_cons]
  cases entries.get? k <;> rfl

end

/-- A tree without children in the place of another one is seen at that place only. -/
theorem at?_put_of_ne {t v : FileTree} {place q : List String} (hv : v.Childless)
    (hold : ∀ w, t.at? place = some w → w.Childless) (hq : q ≠ place) :
    ((t.put v place).at? q).map (·.text?) = (t.at? q).map (·.text?) := by
  induction place generalizing t q with
  | nil =>
    obtain ⟨k, r, rfl⟩ := List.exists_cons_of_ne_nil hq
    rw [put, hv k r, hold t (at?_nil t) k r]
  | cons k p ih =>
    cases t with
    | file text => rfl
    | folder entries =>
      obtain ⟨after, hafter, hother⟩ := isFolder_put entries v k p
      cases q with
      | nil =>
        rw [hafter]
        rfl
      | cons j s =>
        by_cases hj : j = k
        · subst hj
          have hs : s ≠ p := fun e => hq (by rw [e])
          cases hk : entries.get? j with
          | some child =>
            rw [put_of_get? hk, at?_folder_cons, at?_folder_cons, Fields.get?_set, if_pos rfl, hk]
            exact ih (fun w hw => hold w (by rw [at?_folder_cons, hk]; exact hw)) hs
          | none =>
            -- what is put at the end of the place is new there; any earlier nothing is put at all
            by_cases hp : p = []
            · subst hp
              obtain ⟨i, s, rfl⟩ := List.exists_cons_of_ne_nil hs
              rw [put_last hk, at?_folder_cons, at?_folder_cons, Fields.get?_set, if_pos rfl, hk,
                Option.bind_some, hv i s]
              rfl
            · rw [put_of_missing hk hp]
        · rw [hafter, at?_folder_cons, at?_folder_cons, hother j hj]

section

variable {t v : FileTree} {place q : List String}

theorem childless_of_not_isFolderAt (h : t.isFolderAt place = false) :
    ∀ w, t.at? place = some w → w.Childless := by
  intro w hw
  cases w with
  | file text => exact childless_file text
  | folder entries => simp [isFolderAt, hw] at h

theorem textAt?_put_of_ne (hv : v.Childless) (hold : t.isFolderAt place = false) (hq : q ≠ place) :
    (t.put v place).textAt? q = t.textAt? q := by
  rw [textAt?_eq, textAt?_eq, at?_put_of_ne hv (childless_of_not_isFolderAt hold) hq]

theorem isFolderAt_put (hv : v.Childless) (hold : t.isFolderAt place = false)
    (hq : t.isFolderAt q = true) : (t.put v place).isFolderAt q = true := by
  have hne : q ≠ place := by
    rintro rfl
    rw [hold] at hq
    cases hq
  rw [isFolderAt_iff, at?_put_of_ne hv (childless_of_not_isFolderAt hold) hne]
  exact isFolderAt_iff.1 hq

end

theorem at?_put_self {t : FileTree} (v : FileTree) {q : List String} (k : String)
    (h : t.isFolderAt q = true) : (t.put v (q ++ [k])).at? (q ++ [k]) = some v := by
  induction q generalizing t with
  | nil =>
    cases t with
    | file text => cases h
    | folder entries =>
      have hput : (folder entries).put v [k] = folder (entries.set k v) := by
        cases hk : entries.get? k with
        | some child => rw [put_of_get? hk, put]
        | none => exact put_last hk
      rw [List.nil_append, hput, at?_folder_cons, Fields.get?_set, if_pos rfl, Option.bind_some,
        at?_nil]
  | cons j q ih =>
    cases t with
    | file text => cases h
    | folder entries =>
      cases hj : entries.get? j with
      | none => simp [isFolderAt, at?, hj] at h
      | some child =>
        have hchild : child.isFolderAt q = true := by
          simpa only [isFolderAt, at?, hj] using h
        rw [List.cons_append, put_of_get? hj, at?_folder_cons, Fields.get?_set, if_pos rfl]
        exact ih hchild

theorem textAt?_put_empty {t : FileTree} {q : List String} (h : t.at? q = none) :
    (t.put empty q).textAt? q = t.textAt? q := by
  induction q generalizing t with
  | nil => simp at h
  | cons k q ih =>
    cases t with
    | file text => rfl
    | folder entries =>
      rw [at?_folder_cons] at h
      cases hk : entries.get? k with
      | some child =>
        rw [hk] at h
        rw [put_of_get? hk, textAt?_folder_cons, textAt?_folder_cons, Fields.get?_set, if_pos rfl,
          hk]
        exact ih h
      | none =>
        by_cases hq : q = []
        · subst hq
          rw [put_last hk, textAt?_folder_cons, textAt?_folder_cons, Fields.get?_set, if_pos rfl,
            hk]
          rfl
        · rw [put_of_missing hk hq]

end FileTree

namespace Disk

def move (place : List String) (s : String) : List String :=
  if s = "." then place else if s = ".." then place.dropLast else place ++ [s]

/-- The place that a path leads to, whether the way is there or not. -/
def place (d : Disk) (path : String) : List String :=
  (FilePath.steps path).foldl move (d.start path)

theorem move_of_mem {s : String} {c : Char} (hc : c ∈ s.toList) (h : c ≠ '.') (p : List String) :
    move p s = p ++ [s] := by
  have hdot : s ≠ "." := by
    rintro rfl
    exact h (by simpa using hc)
  have hdots : s ≠ ".." := by
    rintro rfl
    exact h (by simpa using hc)
  rw [move, if_neg hdot, if_neg hdots]

theorem place_eq_names (d : Disk) (path : String) :
    d.place path = (FilePath.names path).foldl move (d.start path) := by
  unfold place FilePath.steps
  split
  · rw [List.foldl_append]
    rfl
  · rw [List.append_nil]

variable {t u : FileTree} {d e : Disk} {p q : List String} {path text : String}

/-- Names that do not only move within the tree are where a path leads. -/
theorem place_of_ending {file folder : String} (h : FilePath.ending path = [file, folder])
    (hfile : ∃ c ∈ file.toList, c ≠ '.') (hfolder : ∃ c ∈ folder.toList, c ≠ '.') (d : Disk) :
    (d.place path).reverse.take 2 = [file, folder] := by
  obtain ⟨l, hl⟩ := FilePath.names_of_ending h
  obtain ⟨c, hc, hne⟩ := hfile
  obtain ⟨c', hc', hne'⟩ := hfolder
  rw [place_eq_names, hl, List.foldl_append, List.foldl_cons, List.foldl_cons, List.foldl_nil,
    move_of_mem hc' hne', move_of_mem hc hne]
  simp

theorem walk_cons_eq_ok {s : String} {r : List String} :
    walk t p (s :: r) = .ok q ↔
      t.isFolderAt p = true ∧ s.utf8ByteSize ≤ maxName ∧ walk t (move p s) r = .ok q := by
  rw [walk, FileTree.isFolderAt]
  cases t.at? p with
  | none => simp
  | some v =>
    cases v with
    | file text => simp
    | folder entries =>
      by_cases hs : maxName < s.utf8ByteSize
      · simp [hs, Nat.not_le.2 hs]
      · simp [hs, move, Nat.le_of_not_lt hs]

theorem walk_eq_foldl {steps : List String} (h : walk t p steps = .ok q) :
    q = steps.foldl move p := by
  induction steps generalizing p with
  | nil =>
    cases h
    rfl
  | cons s r ih => exact ih (walk_cons_eq_ok.1 h).2.2

theorem walk_append_eq_ok {steps rest : List String} :
    walk t p (steps ++ rest) = .ok q ↔
      walk t p steps = .ok (steps.foldl move p) ∧ walk t (steps.foldl move p) rest = .ok q := by
  induction steps generalizing p with
  | nil => simp [walk]
  | cons s r ih => simp only [List.cons_append, walk_cons_eq_ok, ih, List.foldl_cons, and_assoc]

theorem walk_mono (htu : ∀ q, t.isFolderAt q = true → u.isFolderAt q = true) {steps : List String}
    (h : walk t p steps = .ok q) : walk u p steps = .ok q := by
  induction steps generalizing p with
  | nil => exact h
  | cons s r ih =>
    obtain ⟨hp, hs, h⟩ := walk_cons_eq_ok.1 h
    exact walk_cons_eq_ok.2 ⟨htu p hp, hs, ih h⟩

theorem walk_end {steps : List String} (hne : steps ≠ []) (h : walk t p steps = .ok q) :
    t.isFolderAt q = true ∨ ∃ r k, q = r ++ [k] ∧ t.isFolderAt r = true := by
  obtain ⟨steps, s, rfl⟩ := (List.eq_nil_or_concat steps).resolve_left hne
  rw [List.concat_eq_append] at h
  obtain ⟨-, h⟩ := walk_append_eq_ok.1 h
  obtain ⟨hfolder, -, h⟩ := walk_cons_eq_ok.1 h
  cases h
  generalize steps.foldl move p = r at hfolder ⊢
  unfold move
  split
  · exact .inl hfolder
  · split
    · exact .inl (FileTree.isFolderAt_dropLast hfolder)
    · exact .inr ⟨r, s, rfl, hfolder⟩

theorem follow_eq_ok {steps : List String} :
    d.follow path steps = .ok p ↔
      pathFault? path = none ∧ walk d.root (d.start path) steps = .ok p := by
  unfold follow
  cases pathFault? path <;> simp

theorem locate_eq_place (h : d.locate path = .ok p) : p = d.place path :=
  walk_eq_foldl (follow_eq_ok.1 h).2

theorem locate_end (h : d.locate path = .ok p) :
    d.root.isFolderAt p = true ∨ ∃ r k, p = r ++ [k] ∧ d.root.isFolderAt r = true := by
  obtain ⟨hfault, hwalk⟩ := follow_eq_ok.1 h
  refine walk_end (FilePath.steps_ne_nil ?_) hwalk
  rintro rfl
  simp [pathFault?] at hfault

theorem readText_eq_ok :
    d.readText path = .ok text ↔
      ∃ p, d.locate path = .ok p ∧ d.root.textAt? p = some text := by
  unfold readText FileTree.textAt?
  rw [Outcome.bind_eq_ok]
  refine exists_congr fun p => and_congr_right fun _ => ?_
  cases d.root.at? p with
  | none => simp [throw, throwThe, MonadExceptOf.throw]
  | some v => cases v <;> simp [throw, throwThe, MonadExceptOf.throw, pure, Except.pure]

/-- At most the files at some places have changed, and no folder is lost. -/
structure Frame (places : List (List String)) (before after : Disk) : Prop where
  here : after.here = before.here
  folders : ∀ q, before.root.isFolderAt q = true → after.root.isFolderAt q = true
  texts : ∀ q, q ∉ places → after.root.textAt? q = before.root.textAt? q

namespace Frame

variable {places places' : List (List String)} {f : Disk}

theorem refl (d : Disk) : Frame [] d d := ⟨rfl, fun _ h => h, fun _ _ => rfl⟩

theorem trans (h : Frame places d e) (h' : Frame places' e f) : Frame (places ++ places') d f where
  here := h'.here.trans h.here
  folders q hq := h'.folders q (h.folders q hq)
  texts q hq := by
    rw [List.mem_append, not_or] at hq
    rw [h'.texts q hq.2, h.texts q hq.1]

theorem mono (h : Frame places d e) (hsub : places ⊆ places') : Frame places' d e :=
  ⟨h.here, h.folders, fun q hq => h.texts q fun hmem => hq (hsub hmem)⟩

theorem start_eq (h : Frame places d e) (path : String) : e.start path = d.start path := by
  rw [start, start, h.here]

theorem place_eq (h : Frame places d e) (path : String) : e.place path = d.place path := by
  rw [place, place, h.start_eq]

theorem locate (h : Frame places d e) (hp : d.locate path = .ok p) : e.locate path = .ok p := by
  obtain ⟨hfault, hwalk⟩ := follow_eq_ok.1 hp
  refine follow_eq_ok.2 ⟨hfault, ?_⟩
  rw [h.start_eq]
  exact walk_mono h.folders hwalk

theorem readText (h : Frame places d e) (hpath : d.place path ∉ places)
    (hread : d.readText path = .ok text) : e.readText path = .ok text := by
  obtain ⟨p, hp, htext⟩ := readText_eq_ok.1 hread
  refine readText_eq_ok.2 ⟨p, h.locate hp, ?_⟩
  rw [h.texts p (locate_eq_place hp ▸ hpath), htext]

end Frame

theorem frame_put {v : FileTree} (hv : v.Childless) (hold : d.root.isFolderAt p = false) :
    Frame [p] d { d with root := d.root.put v p } where
  here := rfl
  folders _ hq := FileTree.isFolderAt_put hv hold hq
  texts _ hq := FileTree.textAt?_put_of_ne hv hold (by simpa using hq)

theorem writeText_eq_ok (h : d.writeText path text = .ok e) :
    ∃ p, d.locate path = .ok p ∧ d.root.isFolderAt p = false ∧
      e = { d with root := d.root.put (.file text) p } := by
  obtain ⟨p, hp, h⟩ := Outcome.bind_eq_ok.1 h
  refine ⟨p, hp, ?_⟩
  unfold FileTree.isFolderAt
  cases hat : d.root.at? p with
  | none =>
    rw [hat] at h
    exact ⟨rfl, (Outcome.pure_eq_ok.1 h).symm⟩
  | some v =>
    rw [hat] at h
    cases v with
    | file old => exact ⟨rfl, (Outcome.pure_eq_ok.1 h).symm⟩
    | folder entries => cases h

theorem frame_writeText (h : d.writeText path text = .ok e) : Frame [d.place path] d e := by
  obtain ⟨p, hp, hold, rfl⟩ := writeText_eq_ok h
  rw [← locate_eq_place hp]
  exact frame_put (FileTree.childless_file text) hold

theorem readText_writeText (h : d.writeText path text = .ok e) : e.readText path = .ok text := by
  obtain ⟨p, hp, hold, rfl⟩ := writeText_eq_ok h
  refine readText_eq_ok.2 ⟨p, (frame_put (FileTree.childless_file text) hold).locate hp, ?_⟩
  rcases locate_end hp with hfolder | ⟨r, k, rfl, hfolder⟩
  · rw [hold] at hfolder
    cases hfolder
  · rw [FileTree.textAt?, FileTree.at?_put_self _ k hfolder]

theorem frame_makeFolder (h : d.makeFolder path = .ok e) : Frame [] d e := by
  obtain ⟨p, hp, h⟩ := Outcome.bind_eq_ok.1 h
  cases hat : d.root.at? p with
  | some v =>
    rw [hat] at h
    cases h
  | none =>
    rw [hat] at h
    obtain rfl := Outcome.pure_eq_ok.1 h
    have hold : d.root.isFolderAt p = false := by rw [FileTree.isFolderAt, hat]
    have hput := frame_put FileTree.childless_empty hold
    refine ⟨rfl, hput.folders, fun q _ => ?_⟩
    by_cases hq : q = p
    · subst hq
      exact FileTree.textAt?_put_empty hat
    · exact hput.texts q (by simpa using hq)

end Disk

end AdapterForge

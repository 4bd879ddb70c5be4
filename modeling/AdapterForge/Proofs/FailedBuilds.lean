import AdapterForge.Proofs.Building

/-!
Builds that fail. A description that is refused is refused before the first file of its bidder is
written, and a build of several bidders leaves what those before the refused one have written.
-/
namespace AdapterForge

namespace Work

variable {α β : Type} {d e : Disk}

/-- Work that fails by the fault of an access alone. -/
def FailsByFault (w : Work (StateM Disk) α) : Prop :=
  ∀ d x e, w.on d = (.error x, e) → ∃ fault, x = .io fault

theorem failsByFault_pure (a : α) : FailsByFault (pure a) := by
  rintro d x e ⟨⟩

theorem failsByFault_lift (act : StateM Disk α) : FailsByFault (ExceptT.lift act) := by
  rintro d x e ⟨⟩

theorem failsByFault_access (act : StateM Disk (Except IoFault α)) : FailsByFault (access act) := by
  intro d x e h
  rw [on_access, Prod.mk.injEq] at h
  cases hact : (act.run d).1 with
  | ok a =>
    rw [hact] at h
    cases h.1
  | error fault =>
    rw [hact] at h
    cases h.1
    exact ⟨fault, rfl⟩

theorem FailsByFault.bind {w : Work (StateM Disk) α} {f : α → Work (StateM Disk) β}
    (h : w.FailsByFault) (hf : ∀ a, (f a).FailsByFault) : FailsByFault (w >>= f) := by
  intro d x e hfail
  rcases on_bind_eq_error.1 hfail with hfail | ⟨a, d', -, hfail⟩
  · exact h d x e hfail
  · exact hf a d' x e hfail

theorem FailsByFault.mapM {f : α → Work (StateM Disk) β} (hf : ∀ a, (f a).FailsByFault)
    (l : List α) : FailsByFault (l.mapM f) := by
  intro d x e hfail
  obtain ⟨k, a, r, d', -, -, hfail⟩ := on_mapM_eq_error.1 hfail
  exact hf a d' x e hfail

theorem frame_mapM {f : α → Work (StateM Disk) β} {changed : β → List String}
    (hf : ∀ a d b e, (f a).on d = (.ok b, e) → Disk.Frame ((changed b).map d.place) d e)
    {l : List α} {r : List β} (h : on (l.mapM f) d = (.ok r, e)) :
    Disk.Frame ((r.flatMap changed).map d.place) d e := by
  induction l generalizing d r with
  | nil =>
    cases h
    exact .refl _
  | cons a l ih =>
    rw [List.mapM_cons] at h
    obtain ⟨b, d', hb, h⟩ := on_bind_eq_ok.1 h
    obtain ⟨s, d'', hs, h⟩ := on_bind_eq_ok.1 h
    cases h
    have hfirst := hf a d b d' hb
    have hrest := ih hs
    -- the paths of the later files lead to the same places on the first disk
    simp only [funext hfirst.place_eq] at hrest
    rw [List.flatMap_cons, List.map_append]
    exact hfirst.trans hrest

end Work

open Work

namespace GeneratedFile

variable {o : BuildOptions} {d e : Disk}

theorem failsByFault_build (f : GeneratedFile) (o : BuildOptions) : FailsByFault (f.build o) := by
  have hwrite : FailsByFault (write (f.target o.outputDir) f.contents) :=
    (failsByFault_access _).bind fun _ => failsByFault_access _
  unfold build
  refine (failsByFault_lift _).bind fun same => ?_
  dsimp only
  split
  · exact failsByFault_pure _
  · split
    · exact hwrite.bind fun _ => failsByFault_pure _
    · exact failsByFault_pure _

/-- The path of a file that has been written; one that was left alone has none. -/
def writtenPath (r : String × FileOutcome) : List String := if r.2 = .written then [r.1] else []

theorem frame_build {f : GeneratedFile} {r : String × FileOutcome}
    (h : (f.build o).on d = (.ok r, e)) : Disk.Frame ((writtenPath r).map d.place) d e := by
  obtain ⟨rfl, ⟨rfl, -⟩ | ⟨hwritten, hframe, -⟩⟩ := build_cases h
  · exact (Disk.Frame.refl e).mono (List.nil_subset _)
  · rw [writtenPath, hwritten]
    exact hframe

end GeneratedFile

theorem BuiltBidder.written_eq (b : BuiltBidder) :
    b.written = b.outcomes.flatMap GeneratedFile.writtenPath := by
  unfold written pathsOf
  induction b.outcomes with
  | nil => rfl
  | cons r l ih =>
    rw [List.flatMap_cons, ← ih, GeneratedFile.writtenPath, List.filter_cons]
    split <;> simp_all

namespace GeneratedBidder

variable {o : BuildOptions} {d e : Disk}

theorem failsByFault_build (g : GeneratedBidder) (o : BuildOptions) : FailsByFault (g.build o) :=
  (FailsByFault.mapM (fun f => f.failsByFault_build o) g.files).bind fun _ => failsByFault_pure _

theorem frame_build {g : GeneratedBidder} {b : BuiltBidder}
    (h : (g.build o).on d = (.ok b, e)) : Disk.Frame (b.written.map d.place) d e := by
  obtain ⟨r, d', hfiles, h⟩ := on_bind_eq_ok.1 h
  cases h
  rw [BuiltBidder.written_eq]
  exact frame_mapM (fun f d r e => GeneratedFile.frame_build) hfiles

end GeneratedBidder

namespace Adapter

variable {config : CodegenConfig} {o : BuildOptions} {path : String} {d e : Disk}

theorem frame_buildFile {b : BuiltBidder} (h : (buildFile config o path).on d = (.ok b, e)) :
    Disk.Frame (b.written.map d.place) d e := by
  obtain ⟨a, d', hload, hbuild⟩ := on_bind_eq_ok.1 h
  obtain rfl := (readOnly_load path).eq_of_on hload
  obtain ⟨g, d'', hg, hfiles⟩ := on_bind_eq_ok.1 hbuild
  obtain rfl := (readOnly_compiled (a.generate config)).eq_of_on hg
  exact GeneratedBidder.frame_build hfiles

/-- A description is refused before the first file of its bidder is written. -/
theorem eq_of_buildFile_eq_error {x : ProjectError} (hx : ∀ fault, x ≠ .io fault)
    (h : (buildFile config o path).on d = (.error x, e)) : e = d := by
  rcases on_bind_eq_error.1 h with hload | ⟨a, d', hload, hbuild⟩
  · exact (readOnly_load path).eq_of_on hload
  · obtain rfl := (readOnly_load path).eq_of_on hload
    rcases on_bind_eq_error.1 hbuild with hg | ⟨g, d'', hg, hfiles⟩
    · exact (readOnly_compiled (a.generate config)).eq_of_on hg
    · -- from here on only accesses fail
      obtain ⟨fault, rfl⟩ := g.failsByFault_build o d'' x e hfiles
      exact absurd rfl (hx fault)

theorem failsByFault_descriptionFiles (path : String) : FailsByFault (descriptionFiles path) := by
  intro d x e h
  obtain ⟨entries, hlist⟩ | hlist | hlist := on_descriptionFiles_cases path d
  · rw [hlist] at h
    cases h
  · rw [hlist] at h
    cases h
  · rw [hlist] at h
    cases h
    exact ⟨_, rfl⟩

/-- A file alone, or files of a folder in ascending order of their names. -/
def InOrder (path : String) (files : List String) : Prop :=
  files.Sublist [path] ∨
    ∃ names : KeySet, files.Sublist (names.names.map (FilePath.join path))

theorem inOrder_descriptionFiles {files : List String}
    (h : (descriptionFiles path).on d = (.ok files, e)) : InOrder path files := by
  obtain ⟨entries, hlist⟩ | hlist | hlist := on_descriptionFiles_cases path d
  · rw [hlist] at h
    cases h
    exact .inr ⟨entries.keys, (List.filter_sublist ..).trans (List.filter_sublist ..)⟩
  · rw [hlist] at h
    cases h
    left
    split
    · exact .refl _
    · exact List.nil_sublist _
  · rw [hlist] at h
    cases h

/-- A build fails for another reason than an access exactly when the bidders of the first
descriptions have been built and the next description is refused. What those bidders have written
stays, and nothing else has changed. -/
theorem build_refuses (config : CodegenConfig) (o : BuildOptions) (path : String) (d e : Disk)
    (x : ProjectError) (hx : ∀ fault, x ≠ .io fault) :
    (∀ file, (buildFile config o file).on d = (.error x, e) → e = d) ∧
      ((buildAll config o path).on d = (.error x, e) ↔
        ∃ files k file built,
          (descriptionFiles path).on d = (.ok files, d) ∧ InOrder path files ∧
          files[k]? = some file ∧
          on ((files.take k).mapM (buildFile config o)) d = (.ok built, e) ∧
          (buildFile config o file).on e = (.error x, e) ∧
          Disk.Frame ((built.flatMap (·.written)).map d.place) d e) := by
  refine ⟨fun file => eq_of_buildFile_eq_error hx, ?_⟩
  constructor
  · intro h
    rcases on_bind_eq_error.1 h with hfiles | ⟨files, d', hfiles, hbuild⟩
    · obtain ⟨fault, rfl⟩ := failsByFault_descriptionFiles path d x e hfiles
      exact absurd rfl (hx fault)
    · obtain rfl := (readOnly_descriptionFiles path).eq_of_on hfiles
      obtain ⟨k, file, built, d', hfile, hbuilt, hfail⟩ := on_mapM_eq_error.1 hbuild
      obtain rfl := eq_of_buildFile_eq_error hx hfail
      exact ⟨files, k, file, built, hfiles, inOrder_descriptionFiles hfiles, hfile, hbuilt, hfail,
        frame_mapM (fun path d b e => frame_buildFile) hbuilt⟩
  · rintro ⟨files, k, file, built, hfiles, -, hfile, hbuilt, hfail, -⟩
    exact on_bind_eq_error.2
      (.inr ⟨files, d, hfiles, on_mapM_eq_error.2 ⟨k, file, built, e, hfile, hbuilt, hfail⟩⟩)

theorem build_refuses_second :
    ∃ e, (buildAll shallowConfig ⟨"", true, false⟩ "d").on (twoBidders "a" "") =
        (.error (.description ⟨"", .emptyName⟩), e) ∧
      ∃ (files : List String) (k : Nat) (file : String) (built : List BuiltBidder),
        files[k]? = some file ∧
        on ((files.take k).mapM (buildFile shallowConfig ⟨"", true, false⟩)) (twoBidders "a" "") =
          (.ok built, e) ∧
        Disk.Frame ((built.flatMap (·.written)).map (twoBidders "a" "").place)
          (twoBidders "a" "") e := by
  have hrun : ((buildAll shallowConfig ⟨"", true, false⟩ "d").on (twoBidders "a" "")).1.map
      (fun _ => ()) = .error (.description ⟨"", .emptyName⟩) := by
    decide +kernel
  generalize hon : (buildAll shallowConfig ⟨"", true, false⟩ "d").on (twoBidders "a" "") = r at hrun
  obtain ⟨x | built, e⟩ := r
  · obtain rfl : x = .description ⟨"", .emptyName⟩ := by simpa [Except.map] using hrun
    obtain ⟨-, hiff⟩ := build_refuses shallowConfig ⟨"", true, false⟩ "d" (twoBidders "a" "") e
      (.description ⟨"", .emptyName⟩) (by simp)
    obtain ⟨files, k, file, built, -, -, hfile, hbuilt, -, hframe⟩ := hiff.1 hon
    exact ⟨e, rfl, files, k, file, built, hfile, hbuilt, hframe⟩
  · cases hrun

end Adapter

end AdapterForge

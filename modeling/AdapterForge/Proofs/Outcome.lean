import Mathlib.Data.List.Forall2

/-!
Computations that may fail, compared by what they give or by a view of their errors.
-/
namespace AdapterForge.Outcome

variable {ε δ α β γ ζ : Type}

theorem bind_eq_ok {x : Except ε α} {f : α → Except ε β} {b : β} :
    x >>= f = .ok b ↔ ∃ a, x = .ok a ∧ f a = .ok b := by
  cases x with
  | error e => simp [bind, Except.bind]
  | ok a => simp [bind, Except.bind]

theorem bind_eq_error {x : Except ε α} {f : α → Except ε β} {e : ε} :
    x >>= f = .error e ↔ x = .error e ∨ ∃ a, x = .ok a ∧ f a = .error e := by
  cases x with
  | error e => simp [bind, Except.bind]
  | ok a => simp [bind, Except.bind]

theorem pure_eq_ok {a b : α} : (pure a : Except ε α) = .ok b ↔ a = b := by
  simp [pure, Except.pure]

theorem mapError_eq_ok {g : ε → δ} {x : Except ε α} {a : α} :
    x.mapError g = .ok a ↔ x = .ok a := by
  cases x <;> simp [Except.mapError]

theorem toOption_eq_some {x : Except ε α} {a : α} : x.toOption = some a ↔ x = .ok a := by
  cases x <;> simp [Except.toOption]

theorem toOption_bind (x : Except ε α) (f : α → Except ε β) :
    (x >>= f).toOption = x.toOption.bind fun a => (f a).toOption := by
  cases x <;> rfl

theorem toOption_mapM (f : α → Except ε β) (l : List α) :
    (l.mapM f).toOption = l.mapM fun a => (f a).toOption := by
  induction l with
  | nil => rfl
  | cons a l ih =>
    rw [List.mapM_cons, List.mapM_cons, ← ih]
    cases f a with
    | error e => rfl
    | ok b => cases l.mapM f <;> rfl

theorem toOption_map (f : α → β) (x : Except ε α) : (x.map f).toOption = x.toOption.map f := by
  cases x <;> rfl

theorem toOption_mapError (g : ε → δ) (x : Except ε α) : (x.mapError g).toOption = x.toOption := by
  cases x <;> rfl

theorem toOption_congr {g : ε → γ} {h : δ → γ} {x : Except ε α} {y : Except δ α}
    (hxy : x.mapError g = y.mapError h) : x.toOption = y.toOption := by
  rw [← toOption_mapError g x, hxy, toOption_mapError]

/-- Computations that agree up to a view of their errors, with `F` between their values, agree after
another step on each side. -/
theorem mapError_bind_map_congr {g : ε → γ} {h : δ → γ} {x : Except ε α} {y : Except δ ζ}
    {F : ζ → α} {f : α → Except ε β} {k : ζ → Except δ β}
    (hx : x.mapError g = (y.map F).mapError h) (hf : ∀ c, (f (F c)).mapError g = (k c).mapError h) :
    (x >>= f).mapError g = (y >>= k).mapError h := by
  cases x with
  | error e =>
    cases y with
    | error d => simpa [Except.mapError, Except.map, bind, Except.bind] using hx
    | ok c => simp [Except.mapError, Except.map] at hx
  | ok a =>
    cases y with
    | error d => simp [Except.mapError, Except.map] at hx
    | ok c =>
      obtain rfl : a = F c := by simpa [Except.mapError, Except.map] using hx
      exact hf c

theorem map_bind (F : β → γ) (x : Except ε α) (f : α → Except ε β) :
    (x >>= f).map F = x >>= fun a => (f a).map F := by
  cases x <;> rfl

theorem map_map (f : α → β) (F : β → γ) (x : Except ε α) :
    (x.map f).map F = x.map fun a => F (f a) := by
  cases x <;> rfl

theorem bind_pure_eq (F : α → β) (x : Except ε α) : x >>= (fun a => return F a) = x.map F := by
  cases x <;> rfl

theorem map_id_eq (x : Except ε α) : x.map (fun a => a) = x := by
  cases x <;> rfl

theorem mapError_bind_congr {g : ε → γ} {h : δ → γ} {x : Except ε α} {y : Except δ α}
    {f : α → Except ε β} {k : α → Except δ β} (hx : x.mapError g = y.mapError h)
    (hf : ∀ a, (f a).mapError g = (k a).mapError h) :
    (x >>= f).mapError g = (y >>= k).mapError h :=
  mapError_bind_map_congr (F := fun a => a) (by rw [map_id_eq, hx]) hf

theorem mapError_map_congr {g : ε → γ} {h : δ → γ} {x : Except ε α} {y : Except δ α} (f : α → β)
    (hx : x.mapError g = y.mapError h) : (x.map f).mapError g = (y.map f).mapError h :=
  mapError_bind_congr hx fun _ => rfl

theorem mapError_mapM_congr {g : ε → γ} {f k : α → Except ε β} {l : List α}
    (h : ∀ a ∈ l, (f a).mapError g = (k a).mapError g) :
    (l.mapM f).mapError g = (l.mapM k).mapError g := by
  induction l with
  | nil => rfl
  | cons a l ih =>
    rw [List.mapM_cons, List.mapM_cons]
    apply mapError_bind_congr (h a (by simp))
    intro b
    apply mapError_bind_congr (ih fun c hc => h c (List.mem_cons_of_mem _ hc))
    intro r
    rfl

theorem mapM_map_eq (f : α → Except ε β) (g : β → γ) (l : List α) :
    l.mapM (fun a => (f a).map g) = (l.mapM f).map (List.map g) := by
  induction l with
  | nil => rfl
  | cons a l ih =>
    rw [List.mapM_cons, List.mapM_cons, ih]
    cases f a with
    | error e => rfl
    | ok b => cases l.mapM f <;> rfl

theorem mapM_eq_ok_iff {f : α → Except ε β} {l : List α} {r : List β} :
    l.mapM f = .ok r ↔ List.Forall₂ (fun a b => f a = .ok b) l r := by
  induction l generalizing r with
  | nil => rw [List.mapM_nil, pure_eq_ok, List.forall₂_nil_left_iff, eq_comm]
  | cons a l ih =>
    rw [List.mapM_cons, bind_eq_ok]
    simp only [bind_eq_ok, pure_eq_ok, ih]
    constructor
    · rintro ⟨b, hb, s, hs, rfl⟩
      exact .cons hb hs
    · rintro (_ | ⟨hb, hs⟩)
      exact ⟨_, hb, _, hs, rfl⟩

theorem exists_of_forall₂ {R : α → β → Prop} {l : List α} {r : List β} (h : List.Forall₂ R l r)
    {b : β} (hb : b ∈ r) : ∃ a ∈ l, R a b := by
  induction h with
  | nil => cases hb
  | @cons a c l r hac _ ih =>
    rcases List.mem_cons.1 hb with rfl | hb
    · exact ⟨a, by simp, hac⟩
    · obtain ⟨d, hd, hdb⟩ := ih hb
      exact ⟨d, List.mem_cons_of_mem _ hd, hdb⟩

theorem forall₂_imp_of_mem {R S : α → β → Prop} {l : List α} {r : List β}
    (h : List.Forall₂ R l r) (himp : ∀ a ∈ l, ∀ b, R a b → S a b) : List.Forall₂ S l r :=
  ((List.forall₂_and_left _ _).2 ⟨fun _ ha => ha, h⟩).imp fun a b hab => himp a hab.1 b hab.2

theorem exists_of_mem_mapM {f : α → Except ε β} {l : List α} {r : List β} (h : l.mapM f = .ok r)
    {b : β} (hb : b ∈ r) : ∃ a ∈ l, f a = .ok b :=
  exists_of_forall₂ (mapM_eq_ok_iff.1 h) hb

theorem exists_mapM_eq_ok {f : α → Except ε β} {l : List α} (h : ∀ a ∈ l, ∃ b, f a = .ok b) :
    ∃ r, l.mapM f = .ok r := by
  induction l with
  | nil => exact ⟨[], rfl⟩
  | cons a l ih =>
    obtain ⟨b, hb⟩ := h a (by simp)
    obtain ⟨r, hr⟩ := ih fun c hc => h c (List.mem_cons_of_mem _ hc)
    refine ⟨b :: r, ?_⟩
    rw [List.mapM_cons, hb, hr]
    rfl

theorem exists_mapM_eq_ok_iff {f : α → Except ε β} {l : List α} :
    (∃ r, l.mapM f = .ok r) ↔ ∀ a ∈ l, ∃ b, f a = .ok b := by
  refine ⟨?_, exists_mapM_eq_ok⟩
  rintro ⟨r, h⟩ a ha
  obtain ⟨b, -, hb⟩ := exists_of_forall₂ (mapM_eq_ok_iff.1 h).flip ha
  exact ⟨b, hb⟩

theorem mapM_eq_error_iff {f : α → Except ε β} {l : List α} {e : ε} :
    l.mapM f = .error e ↔
      ∃ pre a post, l = pre ++ a :: post ∧ (∀ c ∈ pre, ∃ b, f c = .ok b) ∧ f a = .error e := by
  induction l with
  | nil => simp [pure, Except.pure]
  | cons x l ih =>
    rw [List.mapM_cons, bind_eq_error]
    constructor
    · rintro (hx | ⟨b, hb, h⟩)
      · exact ⟨[], x, l, rfl, nofun, hx⟩
      · obtain hl | ⟨r, -, h⟩ := bind_eq_error.1 h
        · obtain ⟨pre, a, post, rfl, hpre, ha⟩ := ih.1 hl
          refine ⟨x :: pre, a, post, rfl, ?_, ha⟩
          exact List.forall_mem_cons.2 ⟨⟨b, hb⟩, hpre⟩
        · cases h
    · rintro ⟨pre, a, post, hsplit, hpre, ha⟩
      cases pre with
      | nil =>
        obtain ⟨rfl, rfl⟩ := List.cons.inj hsplit
        exact .inl ha
      | cons y pre =>
        obtain ⟨rfl, rfl⟩ := List.cons.inj hsplit
        obtain ⟨⟨b, hb⟩, hpre⟩ := List.forall_mem_cons.1 hpre
        exact .inr ⟨b, hb, bind_eq_error.2 (.inl (ih.2 ⟨pre, a, post, rfl, hpre, ha⟩))⟩

theorem filterMap_of_mapM {f : α → Except ε β} {l : List α} {r : List β} (h : l.mapM f = .ok r) :
    r = l.filterMap fun a => (f a).toOption := by
  rw [mapM_eq_ok_iff] at h
  induction h with
  | nil => rfl
  | @cons a b l r hb _ ih =>
    rw [← toOption_eq_some] at hb
    rw [List.filterMap_cons_some (f := fun a => (f a).toOption) hb, ← ih]

theorem isSome_mapM (f : α → Option β) (l : List α) :
    (l.mapM f).isSome = l.all fun a => (f a).isSome := by
  induction l with
  | nil => rfl
  | cons a l ih =>
    rw [List.mapM_cons, List.all_cons, ← ih]
    cases f a with
    | none => rfl
    | some b => cases l.mapM f <;> rfl

theorem forM_eq_ok {f : α → Except ε Unit} {l : List α} (h : l.forM f = .ok ()) :
    ∀ a ∈ l, f a = .ok () := by
  induction l with
  | nil => simp
  | cons a l ih =>
    rw [List.forM, bind_eq_ok] at h
    obtain ⟨⟨⟩, ha, hl⟩ := h
    intro c hc
    rcases List.mem_cons.1 hc with rfl | hc
    · exact ha
    · exact ih hl c hc

theorem exists_of_forM_eq_error {f : α → Except ε Unit} {l : List α} {e : ε}
    (h : l.forM f = .error e) : ∃ a ∈ l, f a = .error e := by
  induction l with
  | nil => cases h
  | cons a l ih =>
    rw [List.forM, bind_eq_error] at h
    rcases h with ha | ⟨-, -, hl⟩
    · exact ⟨a, by simp, ha⟩
    · obtain ⟨c, hc, hce⟩ := ih hl
      exact ⟨c, List.mem_cons_of_mem _ hc, hce⟩

theorem forM_eq_ok_of_forall {f : α → Except ε Unit} {l : List α} (h : ∀ a ∈ l, f a = .ok ()) :
    l.forM f = .ok () := by
  induction l with
  | nil => rfl
  | cons a l ih =>
    rw [List.forM, h a (by simp)]
    exact ih fun c hc => h c (List.mem_cons_of_mem _ hc)

end AdapterForge.Outcome

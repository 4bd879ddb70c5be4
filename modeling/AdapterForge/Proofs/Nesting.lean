import AdapterForge.Proofs.Compilation

/-!
The builders of a program nest. A builder is started inside the builder of the object around it,
values go into the innermost builder, and that one is committed first. A program of that kind finds
every builder that it asks for.
-/
namespace AdapterForge

/-- The builder that was started last among those that are open, innermost first. -/
def Builder.front : List FieldPath → Builder
  | [] => .root
  | p :: _ => .nested p

/-- The open builders after a statement, if it fits those before it. -/
def Statement.nest? (opened : List FieldPath) : Statement → Option (List FieldPath)
  | .locateExt => some opened
  | .start path _ =>
    if Builder.parentOf path = Builder.front opened then some (path :: opened) else none
  | .assign b _ _ => if b = Builder.front opened then some opened else none
  | .commit path => if opened.head? = some path then some opened.tail else none

theorem foldlM_nest?_statementsOf {root : ExpectedRoot} {names : List String} {os : List Override}
    (h : PlacedIn root names os) {b : Builder} (hb : b.names = names) {opened : List FieldPath}
    (hopened : Builder.front opened = b) :
    (statementsOf b os).foldlM Statement.nest? opened = some opened := by
  induction h generalizing b opened with
  | nil => rfl
  | @value names k x r _ ih =>
    have hassign : Statement.nest? opened (.assign b k x) = some opened := if_pos hopened.symm
    rw [statementsOf, List.foldlM_cons, hassign]
    exact ih hb hopened
  | @object names k inner r _ _ ihi ihr =>
    subst hb
    have hstart : Statement.nest? opened (.start (b.child k) (.ofPath (b.child k))) =
        some (b.child k :: opened) := if_pos (by rw [b.parentOf_child, hopened])
    have hcommit : Statement.nest? (b.child k :: opened) (.commit (b.child k)) = some opened :=
      if_pos rfl
    have hfront : Builder.front (b.child k :: opened) = .nested (b.child k) := rfl
    have hinner := ihi (b.names_child k) hfront
    rw [statementsOf_placed, List.foldlM_cons, hstart, Option.bind_eq_bind, Option.bind_some,
      List.foldlM_append, hinner, Option.bind_eq_bind, Option.bind_some, List.foldlM_cons, hcommit]
    exact ihr rfl hopened

/-- Each builder makes a field of what the next one makes, and the last one a field of the root. -/
def Chained : List FieldPath → Prop
  | [] => True
  | p :: r => Builder.parentOf p = Builder.front r ∧ Chained r

theorem depth_of_parentOf {p q : FieldPath} (h : Builder.parentOf p = .nested q) :
    p.depth = q.depth + 1 := by
  unfold Builder.parentOf FieldPath.parent? at h
  by_cases hr : p.rest = []
  · rw [if_pos hr] at h
    cases h
  · rw [if_neg hr] at h
    cases h
    have hpos := List.length_pos_iff.2 hr
    simp only [FieldPath.depth, List.length_dropLast]
    omega

theorem Chained.depth_lt {p : FieldPath} {r : List FieldPath} (h : Chained (p :: r)) :
    ∀ q ∈ r, q.depth < p.depth := by
  induction r generalizing p with
  | nil => simp
  | cons q r ih =>
    have hq := depth_of_parentOf h.1
    intro q' hq'
    rcases List.mem_cons.1 hq' with rfl | hq'
    · omega
    · have := ih h.2 q' hq'
      omega

namespace Machine

variable {m : Machine} {b : Builder} {fields : Fields Json}

def paths (m : Machine) : List FieldPath := m.opened.map (·.1)

theorem exists_holds (h : Chained m.paths) : ∃ fields, m.Holds fields (Builder.front m.paths) := by
  obtain ⟨root, opened, sources⟩ := m
  cases opened with
  | nil => exact ⟨root, rfl, rfl⟩
  | cons e around =>
    refine ⟨e.2, around, rfl, fun x hx => ?_⟩
    exact h.depth_lt x.1 (List.mem_map_of_mem hx)

theorem paths_hold (h : m.Holds fields b) (g : Fields Json) : (m.hold b g).paths = m.paths := by
  cases b with
  | root => rfl
  | nested p =>
    obtain ⟨around, ho, hd⟩ := h
    simp only [paths, hold, put, ho, filter_front hd, List.map_cons]

theorem paths_put (path : FieldPath) (g : Fields Json) (h : ∀ q ∈ m.paths, q.depth < path.depth) :
    (m.put path g).paths = path :: m.paths := by
  have hd : ∀ e ∈ m.opened, e.1.depth < path.depth := fun e he => h e.1 (List.mem_map_of_mem he)
  simp only [paths, put, filter_around hd, List.map_cons]

end Machine

/-- A run that misses no builder, and what it leaves open. -/
structure Finds (r : Except RunError Machine) (opened : List FieldPath) : Prop where
  found : ∀ path, r ≠ .error (.noOpenBuilder path)
  left : ∀ m, r = .ok m → m.paths = opened

theorem Finds.of_ok {m : Machine} {opened : List FieldPath} (h : m.paths = opened) :
    Finds (.ok m) opened :=
  ⟨nofun, fun _ hm => Except.ok.inj hm ▸ h⟩

theorem Finds.bind {α : Type} {x : Except RunError α} {f : α → Except RunError Machine}
    {opened : List FieldPath} (hx : ∀ path, x ≠ .error (.noOpenBuilder path))
    (hf : ∀ a, x = .ok a → Finds (f a) opened) : Finds (x >>= f) opened := by
  cases x with
  | error e => exact ⟨fun path h => hx path (by cases h; rfl), nofun⟩
  | ok a => exact hf a rfl

theorem Sources.readFrom_ne (whole : Source) (done : List String) (v : Json) (names : List String)
    (path : FieldPath) : readFrom whole done v names ≠ .error (.noOpenBuilder path) := by
  induction names generalizing done v with
  | nil => cases v <;> nofun
  | cons k r ih =>
    cases v with
    | object fields => exact ih _ _
    | _ => nofun

theorem Sources.eval_ne (s : Sources) (x : Operand) (path : FieldPath) :
    s.eval x ≠ .error (.noOpenBuilder path) := by
  cases x with
  | literal l => nofun
  | field f =>
    rw [eval, read]
    cases s.root? f.root with
    | none => rintro ⟨⟩
    | some v => exact readFrom_ne f [] v _ path

namespace Setting

theorem seed_ne (s : Setting) (path : FieldPath) (kind : ObjectKind) (missed : FieldPath) :
    s.seed path kind ≠ .error (.noOpenBuilder missed) := by
  unfold seed
  split
  · nofun
  · split <;> nofun
  · nofun

/-- The builder that is committed is the one in front, and the one behind it takes what it made. -/
theorem finds_commit (s : Setting) {m : Machine} {path : FieldPath} (hm : Chained m.paths)
    (hhead : m.paths.head? = some path) :
    Finds (s.step m (.commit path)) m.paths.tail ∧ Chained m.paths.tail := by
  obtain ⟨root, opened, sources⟩ := m
  cases opened with
  | nil => cases hhead
  | cons e around =>
    obtain ⟨p, g⟩ := e
    obtain rfl : p = path := Option.some.inj hhead
    let outer : Machine := ⟨root, around, sources⟩
    have houter : Chained outer.paths := hm.2
    obtain ⟨fields, hholds⟩ := outer.exists_holds houter
    have hlookup : ((p, g) :: around).lookup p = some g := by simp
    have hrest : ((p, g) :: around).filter (·.1 ≠ p) = around :=
      Machine.filter_front (fun e he => hm.depth_lt e.1 (List.mem_map_of_mem he)) g
    have hstep : s.step ⟨root, (p, g) :: around, sources⟩ (.commit p) =
        .ok (outer.hold (Builder.front outer.paths) (fields.set p.leaf (.object g))) := by
      simp only [step, hlookup, hrest]
      rw [hm.1]
      exact hholds.modify_eq _
    rw [hstep]
    exact ⟨.of_ok (outer.paths_hold hholds _), houter⟩

theorem finds_step (s : Setting) {m : Machine} {x : Statement} {after : List FieldPath}
    (hm : Chained m.paths) (h : x.nest? m.paths = some after) :
    Finds (s.step m x) after ∧ Chained after := by
  cases x with
  | locateExt =>
    obtain rfl : m.paths = after := Option.some.inj h
    refine ⟨?_, hm⟩
    rw [step]
    cases s.exts with
    | nil => constructor <;> rintro _ ⟨⟩
    | cons ext exts => exact .of_ok rfl
  | start path kind =>
    obtain ⟨hparent, rfl⟩ :
        Builder.parentOf path = Builder.front m.paths ∧ path :: m.paths = after := by
      simpa [Statement.nest?] using h
    have hafter : Chained (path :: m.paths) := ⟨hparent, hm⟩
    refine ⟨.bind (s.seed_ne path kind) fun g _ => .of_ok ?_, hafter⟩
    exact m.paths_put path g hafter.depth_lt
  | assign b k x =>
    obtain ⟨rfl, rfl⟩ : b = Builder.front m.paths ∧ m.paths = after := by
      simpa [Statement.nest?] using h
    obtain ⟨fields, hholds⟩ := m.exists_holds hm
    refine ⟨?_, hm⟩
    rw [s.step_assign hholds]
    exact .bind (m.sources.eval_ne x) fun v _ => .of_ok (m.paths_hold hholds _)
  | commit path =>
    obtain ⟨hhead, rfl⟩ : m.paths.head? = some path ∧ m.paths.tail = after := by
      simpa [Statement.nest?] using h
    exact s.finds_commit hm hhead

theorem finds_run (s : Setting) {m : Machine} {l : List Statement} {after : List FieldPath}
    (hm : Chained m.paths) (h : l.foldlM Statement.nest? m.paths = some after) :
    Finds (s.run m l) after := by
  induction l generalizing m with
  | nil =>
    obtain rfl : m.paths = after := Option.some.inj h
    exact .of_ok rfl
  | cons x l ih =>
    rw [List.foldlM_cons, Option.bind_eq_bind, Option.bind_eq_some_iff] at h
    obtain ⟨next, hx, hl⟩ := h
    obtain ⟨hstep, hnext⟩ := s.finds_step hm hx
    rw [run_cons]
    refine .bind hstep.found fun m' hm' => ?_
    obtain rfl := hstep.left m' hm'
    exact ih hnext hl

end Setting

end AdapterForge

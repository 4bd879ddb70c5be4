import Mathlib.Data.List.Nodup
import Mathlib.Data.List.Pairwise
import AdapterForge.Java.Method
import AdapterForge.Proofs.Builders
import AdapterForge.Proofs.FixtureRun
import AdapterForge.Proofs.Spelling

/-!
The variables of generated methods. Each object that is rebuilt has one for the given object and one
for its builder, and a member of a JSON node one more. With plain names they differ from each other
and from what the method is given, except for a few paths that are spelled like another variable.
-/
namespace AdapterForge

namespace Java

def Declares (name line : String) : Prop :=
  ∃ type value, line = "final " ++ type ++ " " ++ name ++ " = " ++ value

/-- The variables that are declared to start a builder, in the order of their lines. -/
def startVars (path : FieldPath) : List String :=
  (if path.parent?.any fun parent => (ObjectKind.ofPath parent).isJson then [nodeVar path] else []) ++
    [localVar path, builderVar path]

def declared : Statement → List String
  | .locateExt => ["impExt"]
  | .start path _ => startVars path
  | .assign .. | .commit _ => []

theorem declares_startBuilder (path : FieldPath) (kind : ObjectKind) :
    Declares (builderVar path) (startBuilder path kind) := by
  unfold Declares startBuilder
  cases kind with
  | model name =>
    have htype : "Builder " = "Builder" ++ " " := by simp
    refine ⟨name ++ "." ++ name ++ "Builder", localVar path ++ (" != null ? " ++ (localVar path ++
      (".toBuilder() : " ++ (name ++ ".builder();")))), ?_⟩
    dsimp only
    rw [htype]
    simp only [String.append_assoc]
  | json =>
    have htype : "final ObjectNode " = "final " ++ "ObjectNode" ++ " " := by simp
    refine ⟨"ObjectNode", localVar path ++ (" != null ? " ++ (localVar path ++
      ".deepCopy() : mapper.createObjectNode();")), ?_⟩
    dsimp only
    rw [htype]
    simp only [String.append_assoc]

/-- The lines that start a builder declare its variables, each in a line of its own. -/
theorem declares_start (scope : Scope) (path : FieldPath) (kind : ObjectKind) (type : String) :
    List.Forall₂ Declares (startVars path)
      (readGiven scope path type ++ [startBuilder path kind]) := by
  have hbuilder := declares_startBuilder path kind
  cases hparent : path.parent? with
  | none =>
    have hvars : startVars path = [localVar path, builderVar path] := by simp [startVars, hparent]
    rw [hvars, readGiven, hparent]
    refine .cons ?_ (.cons hbuilder .nil)
    exact ⟨type, scope.base ++ ("." ++ (getter path.leaf ++ "();")), by simp only [String.append_assoc]⟩
  | some parent =>
    cases hkind : ObjectKind.ofPath parent with
    | model name =>
      have hvars : startVars path = [localVar path, builderVar path] := by
        simp [startVars, hparent, hkind, ObjectKind.isJson]
      simp only [hvars, readGiven, hparent, hkind]
      refine .cons ?_ (.cons hbuilder .nil)
      refine ⟨type, localVar parent ++ (" != null ? " ++ (localVar parent ++ ("." ++
        (getter path.leaf ++ "() : null;")))), ?_⟩
      simp only [String.append_assoc]
    | json =>
      have hvars : startVars path = [nodeVar path, localVar path, builderVar path] := by
        simp [startVars, hparent, hkind, ObjectKind.isJson]
      simp only [hvars, readGiven, hparent, hkind]
      refine .cons ?_ (.cons ?_ (.cons hbuilder .nil))
      · have htype : "final JsonNode " = "final " ++ "JsonNode" ++ " " := by simp
        refine ⟨"JsonNode", localVar parent ++ (" != null ? " ++ (localVar parent ++ (".get(" ++
          (quote path.leaf ++ ") : null;")))), ?_⟩
        rw [htype]
        simp only [String.append_assoc]
      · have htype : "final ObjectNode " = "final " ++ "ObjectNode" ++ " " := by simp
        refine ⟨"ObjectNode", nodeVar path ++ (" != null && " ++ (nodeVar path ++
          (".isObject() ? (ObjectNode) " ++ (nodeVar path ++ " : null;")))), ?_⟩
        rw [htype]
        simp only [String.append_assoc]

/-- The parameters of a method, and the builder of the object that it modifies. -/
def givenNames : Scope → List String
  | .impression => ["imp", "impExt", "impBuilder"]
  | .request => ["bidRequest", "requestBuilder", "impsWithExts"]

def methodNames (q : Program) : List String := givenNames q.scope ++ q.statements.flatMap declared

def givenPaths : Scope → List FieldPath
  | .impression => [⟨"imp", []⟩, ⟨"imp", ["ext"]⟩, ⟨"imp", ["builder"]⟩]
  | .request => [⟨"bid", ["request"]⟩, ⟨"request", ["builder"]⟩, ⟨"imps", ["with", "exts"]⟩]

theorem givenNames_eq (scope : Scope) : givenNames scope = (givenPaths scope).map localVar := by
  cases scope <;> decide +kernel

def variablesAt (path : FieldPath) : List FieldPath :=
  (if "ext" ∈ path.segments.dropLast then [(Builder.nested path).child "node"] else []) ++
    [path, (Builder.nested path).child "builder"]

theorem any_isJson_parent? (path : FieldPath) :
    (path.parent?.any fun parent => (ObjectKind.ofPath parent).isJson) =
      decide ("ext" ∈ path.segments.dropLast) := by
  obtain ⟨first, rest⟩ := path
  unfold FieldPath.parent?
  by_cases hrest : rest = []
  · simp [hrest, FieldPath.segments]
  · rw [if_neg hrest, Option.any_some, Bool.eq_iff_iff, ObjectKind.isJson_ofPath, decide_eq_true_iff,
      FieldPath.segments, FieldPath.segments, List.dropLast_cons_of_ne_nil hrest]

theorem startVars_eq (path : FieldPath) : startVars path = (variablesAt path).map localVar := by
  unfold startVars variablesAt
  rw [any_isJson_parent?, List.map_append, List.map_cons, List.map_singleton, builderVar_eq]
  by_cases hext : "ext" ∈ path.segments.dropLast <;> simp [hext, nodeVar_eq]

theorem flatMap_declared {l : List Statement} (h : .locateExt ∉ l) :
    l.flatMap declared = ((startedPaths l).flatMap variablesAt).map localVar := by
  induction l with
  | nil => rfl
  | cons s l ih =>
    rw [List.mem_cons, not_or] at h
    rw [List.flatMap_cons, ih h.2]
    cases s with
    | locateExt => exact absurd rfl h.1
    | start path kind =>
      rw [declared, startVars_eq, ← List.map_append]
      rfl
    | assign b k x => rfl
    | commit path => rfl

end Java

namespace FieldPath

variable {p q : FieldPath} {j k : String}

theorem child_inj : (Builder.nested p).child j = (Builder.nested q).child k ↔ p = q ∧ j = k := by
  constructor
  · intro h
    rw [← segments_inj, Builder.segments_child, Builder.segments_child] at h
    obtain ⟨hnames, hlast⟩ := List.append_inj' h rfl
    exact ⟨segments_inj.1 hnames, List.singleton_inj.1 hlast⟩
  · rintro ⟨rfl, rfl⟩
    rfl

theorem child_ne (p : FieldPath) (k : String) : (Builder.nested p).child k ≠ p := by
  intro h
  have hlength := congrArg (·.segments.length) h
  simp [Builder.segments_child, Builder.names] at hlength

theorem strictlyAbove_child (p : FieldPath) (k : String) :
    p.StrictlyAbove ((Builder.nested p).child k) :=
  ⟨⟨[k], ((Builder.nested p).segments_child k).symm⟩, (child_ne p k).symm⟩

theorem exists_child_of_segments {names : List String} (hne : names ≠ [])
    (h : p.segments = names ++ [k]) :
    ∃ q : FieldPath, q.segments = names ∧ p = (Builder.nested q).child k := by
  obtain ⟨first, rest, rfl⟩ := List.exists_cons_of_ne_nil hne
  refine ⟨⟨first, rest⟩, rfl, ?_⟩
  rw [← segments_inj, h, Builder.segments_child]
  rfl

theorem exists_child_of_depth (h : p.depth ≠ 1) :
    ∃ (q : FieldPath) (k : String), p = (Builder.nested q).child k := by
  obtain ⟨first, rest⟩ := p
  rcases List.eq_nil_or_concat rest with rfl | ⟨r, k, rfl⟩
  · exact absurd rfl h
  · rw [List.concat_eq_append]
    exact ⟨⟨first, r⟩, k, rfl⟩

end FieldPath

namespace Java

variable {scope : Scope} {path v : FieldPath} {fixed paths : List FieldPath}

theorem mem_variablesAt : v ∈ variablesAt path ↔ v = path ∨ v = (Builder.nested path).child "builder" ∨
    "ext" ∈ path.segments.dropLast ∧ v = (Builder.nested path).child "node" := by
  unfold variablesAt
  by_cases h : "ext" ∈ path.segments.dropLast
  · simp only [h, if_true, List.cons_append, List.nil_append, List.mem_cons, List.not_mem_nil,
      or_false, true_and]
    tauto
  · simp [h]

theorem nodup_variablesAt (path : FieldPath) : (variablesAt path).Nodup := by
  have hnode := path.child_ne "node"
  have hbuilder := (path.child_ne "builder").symm
  have hends : (Builder.nested path).child "node" ≠ (Builder.nested path).child "builder" := by
    simp [FieldPath.child_inj]
  unfold variablesAt
  split <;> simp [hnode, hbuilder, hends]

/-- A variable of two builders is the variable of one of the objects, spelled like the builder or
the node of the other one. -/
theorem nodup_variables_iff (hfixed : fixed.Nodup) (hpaths : paths.Nodup) :
    (fixed ++ paths.flatMap variablesAt).Nodup ↔
      (∀ x ∈ paths, ∀ v ∈ variablesAt x, v ∉ fixed) ∧
        ∀ x ∈ paths, ∀ y ∈ paths, x ∈ variablesAt y → x = y := by
  rw [List.nodup_append', List.nodup_flatMap]
  constructor
  · rintro ⟨-, ⟨-, hpairs⟩, hgiven⟩
    refine ⟨fun x hx v hv hfix => hgiven hfix (List.mem_flatMap.2 ⟨x, hx, hv⟩), ?_⟩
    intro x hx y hy hxy
    by_contra hne
    have : Std.Symm (Function.onFun List.Disjoint variablesAt) := ⟨fun _ _ h _ hx hy => h hy hx⟩
    exact hpairs.forall hx hy hne (mem_variablesAt.2 (.inl rfl)) hxy
  · rintro ⟨hgiven, hown⟩
    refine ⟨hfixed, ⟨fun x _ => nodup_variablesAt x, ?_⟩, ?_⟩
    · refine hpaths.pairwise_of_forall_ne fun x hx y hy hne v hvx hvy => hne ?_
      rcases mem_variablesAt.1 hvx with rfl | rfl | ⟨-, rfl⟩
      · exact hown v hx y hy hvy
      · rcases mem_variablesAt.1 hvy with rfl | hv | ⟨-, hv⟩
        · exact (hown _ hy x hx hvx).symm
        · exact (FieldPath.child_inj.1 hv).1
        · exact (FieldPath.child_inj.1 hv).1
      · rcases mem_variablesAt.1 hvy with rfl | hv | ⟨-, hv⟩
        · exact (hown _ hy x hx hvx).symm
        · exact (FieldPath.child_inj.1 hv).1
        · exact (FieldPath.child_inj.1 hv).1
    · intro v hfix hv
      obtain ⟨x, hx, hv⟩ := List.mem_flatMap.1 hv
      exact hgiven x hx v hv hfix

/-- What a method has before the first builder is started: what it is given, and the extension of
the first impression where a request reads it. -/
def fixedPaths : (scope : Scope) → (readsExt : Bool) → List FieldPath
  | .impression, _ => givenPaths .impression
  | .request, readsExt => givenPaths .request ++ if readsExt then [⟨"imp", ["ext"]⟩] else []

theorem nodup_fixedPaths (scope : Scope) (readsExt : Bool) : (fixedPaths scope readsExt).Nodup := by
  cases scope <;> cases readsExt <;> decide +kernel

theorem plain_of_mem_fixedPaths {readsExt : Bool} (h : v ∈ fixedPaths scope readsExt) : v.Plain := by
  have hall : ∀ s r, ∀ v ∈ fixedPaths s r, v.Plain := by
    intro s r
    cases s <;> cases r <;> decide +kernel
  exact hall scope readsExt v h

theorem plain_of_mem_variablesAt (hpath : path.Plain) (h : v ∈ variablesAt path) : v.Plain := by
  have hchild : ∀ k, IsPlain k → ((Builder.nested path).child k).Plain := by
    intro k hk j hj
    rw [Builder.segments_child, List.mem_append, List.mem_singleton] at hj
    exact hj.elim (hpath j) (· ▸ hk)
  rcases mem_variablesAt.1 h with rfl | rfl | ⟨-, rfl⟩
  · exact hpath
  · exact hchild _ (by decide +kernel)
  · exact hchild _ (by decide +kernel)

/-- The objects that are spelled like something that the method has, or whose builder is. -/
def takenNames : (scope : Scope) → (readsExt : Bool) → List (List String)
  | .impression, _ => [["imp"]]
  | .request, readsExt =>
    [["request"], ["bid", "request"], ["imps", "with", "exts"]] ++
      if readsExt then [["imp", "ext"]] else []

structure HasOwnNames (scope : Scope) (readsExt : Bool) (path : FieldPath) : Prop where
  free : path.segments ∉ takenNames scope readsExt
  builder : path.leaf = "builder" → path.depth = 1
  node : ∀ names k, path.segments = names ++ [k, "node"] → "ext" ∉ names

variable {readsExt : Bool}

theorem mem_fixedPaths_of_taken (h : path.segments ∈ takenNames scope readsExt) :
    path ∈ fixedPaths scope readsExt ∨
      (Builder.nested path).child "builder" ∈ fixedPaths scope readsExt := by
  obtain ⟨first, rest⟩ := path
  cases scope with
  | impression =>
    obtain ⟨rfl, rfl⟩ : first = "imp" ∧ rest = [] := by simpa [takenNames, FieldPath.segments] using h
    exact .inl (by simp [fixedPaths, givenPaths])
  | request =>
    rcases List.mem_append.1 h with h | h
    · simp only [FieldPath.segments, List.mem_cons, List.cons.injEq, List.not_mem_nil, or_false] at h
      rcases h with ⟨rfl, rfl⟩ | ⟨rfl, rfl⟩ | ⟨rfl, rfl⟩ <;>
        simp [fixedPaths, givenPaths, Builder.child]
    · cases readsExt with
      | false => cases h
      | true =>
        obtain ⟨rfl, rfl⟩ : first = "imp" ∧ rest = ["ext"] := by simpa [FieldPath.segments] using h
        exact .inl (by simp [fixedPaths])

theorem taken_of_mem_fixedPaths (h : v ∈ fixedPaths scope readsExt) :
    (v.segments ∈ takenNames scope readsExt ∧ v.leaf ≠ "builder" ∧ v.leaf ≠ "node") ∨
      ∃ (x : FieldPath) (k : String), k ≠ "node" ∧ v = (Builder.nested x).child k ∧
        x.segments ∈ takenNames scope readsExt := by
  cases scope with
  | impression =>
    simp only [fixedPaths, givenPaths, List.mem_cons, List.not_mem_nil, or_false] at h
    rcases h with rfl | rfl | rfl
    · exact .inl ⟨List.mem_singleton.2 rfl, by decide +kernel⟩
    · exact .inr ⟨⟨"imp", []⟩, "ext", by decide +kernel, rfl, List.mem_singleton.2 rfl⟩
    · exact .inr ⟨⟨"imp", []⟩, "builder", by decide +kernel, rfl, List.mem_singleton.2 rfl⟩
  | request =>
    rcases List.mem_append.1 h with h | h
    · simp only [givenPaths, List.mem_cons, List.not_mem_nil, or_false] at h
      rcases h with rfl | rfl | rfl
      · exact .inl ⟨by simp [takenNames, FieldPath.segments], by decide +kernel⟩
      · exact .inr ⟨⟨"request", []⟩, "builder", by decide +kernel, rfl,
          by simp [takenNames, FieldPath.segments]⟩
      · exact .inl ⟨by simp [takenNames, FieldPath.segments], by decide +kernel⟩
    · cases readsExt with
      | false => cases h
      | true =>
        obtain rfl := List.mem_singleton.1 h
        exact .inl ⟨by simp [takenNames, FieldPath.segments], by decide +kernel⟩

theorem hasOwnNames_of_apart
    (hup : ∀ x k, (Builder.nested x).child k ∈ paths → x ∈ paths)
    (hfixed : ∀ x ∈ paths, ∀ v ∈ variablesAt x, v ∉ fixedPaths scope readsExt)
    (hown : ∀ x ∈ paths, ∀ y ∈ paths, x ∈ variablesAt y → x = y) :
    ∀ x ∈ paths, HasOwnNames scope readsExt x := by
  intro x hx
  have hself : x ∉ fixedPaths scope readsExt := hfixed x hx x (mem_variablesAt.2 (.inl rfl))
  have hbuilder : (Builder.nested x).child "builder" ∉ fixedPaths scope readsExt :=
    hfixed x hx _ (mem_variablesAt.2 (.inr (.inl rfl)))
  refine ⟨fun htaken => ?_, fun hleaf => ?_, fun names k hnames hext => ?_⟩
  · exact (mem_fixedPaths_of_taken htaken).elim hself hbuilder
  · -- the object that it is a member of has a builder of the same name
    by_contra hdepth
    obtain ⟨y, k, rfl⟩ := FieldPath.exists_child_of_depth hdepth
    rw [Builder.leaf_child] at hleaf
    subst hleaf
    exact y.child_ne _ (hown _ hx y (hup y _ hx) (mem_variablesAt.2 (.inr (.inl rfl))))
  · rw [show names ++ [k, "node"] = (names ++ [k]) ++ ["node"] by simp] at hnames
    obtain ⟨y, hy, rfl⟩ := FieldPath.exists_child_of_segments (by simp) hnames
    have hjson : "ext" ∈ y.segments.dropLast := by simpa [hy] using hext
    exact y.child_ne _ (hown _ hx y (hup y _ hx) (mem_variablesAt.2 (.inr (.inr ⟨hjson, rfl⟩))))

theorem apart_of_hasOwnNames
    (hup : ∀ x k, (Builder.nested x).child k ∈ paths → x ∈ paths)
    (h : ∀ x ∈ paths, HasOwnNames scope readsExt x) :
    (∀ x ∈ paths, ∀ v ∈ variablesAt x, v ∉ fixedPaths scope readsExt) ∧
      ∀ x ∈ paths, ∀ y ∈ paths, x ∈ variablesAt y → x = y := by
  constructor
  · intro x hx v hv hfix
    rcases mem_variablesAt.1 hv with rfl | rfl | ⟨-, rfl⟩ <;>
      rcases taken_of_mem_fixedPaths hfix with ⟨htaken, hbuilder, hnode⟩ | ⟨y, k, hk, heq, htaken⟩
    · exact (h _ hx).free htaken
    · exact (h y (hup y k (heq ▸ hx))).free htaken
    · exact hbuilder (Builder.leaf_child _ _)
    · exact (h x hx).free ((FieldPath.child_inj.1 heq).1 ▸ htaken)
    · exact hnode (Builder.leaf_child _ _)
    · exact hk (FieldPath.child_inj.1 heq).2.symm
  · intro x hx y hy hxy
    rcases mem_variablesAt.1 hxy with rfl | rfl | ⟨hext, rfl⟩
    · rfl
    · have hdepth := (h _ hx).builder (Builder.leaf_child _ _)
      rw [Machine.depth_child] at hdepth
      exact absurd (Nat.succ.inj hdepth) y.depth_pos.ne'
    · obtain ⟨names, k, hnames⟩ := (List.eq_nil_or_concat y.segments).resolve_left y.segments_ne_nil
      rw [List.concat_eq_append] at hnames
      refine absurd (?_ : "ext" ∈ names) ((h _ hx).node names k ?_)
      · simpa [hnames] using hext
      · rw [Builder.segments_child, Builder.names, hnames]
        simp

end Java

def Opens (l : List Assignment) (path : FieldPath) : Prop :=
  ∃ a ∈ l, a.isNoop = false ∧ path.StrictlyAbove a.target

theorem Opens.of_child {l : List Assignment} {x : FieldPath} {k : String}
    (h : Opens l ((Builder.nested x).child k)) : Opens l x := by
  obtain ⟨a, ha, hnoop, habove, hne⟩ := h
  refine ⟨a, ha, hnoop, (x.strictlyAbove_child k).1.trans habove, ?_⟩
  rintro rfl
  have hlength := habove.length_le
  rw [Builder.segments_child, List.length_append] at hlength
  exact absurd hlength (Nat.not_succ_le_self _)

theorem Opens.plain {l : List Assignment} (hl : ∀ a ∈ l, a.target.Plain) {path : FieldPath}
    (h : Opens l path) : path.Plain := by
  obtain ⟨a, ha, -, habove, -⟩ := h
  exact fun k hk => hl a ha k (habove.subset hk)

namespace Plan

open Java

variable {scope : Scope} {l : List Assignment} {p : Plan}

theorem readsExt_eq (h : ofAssignments scope l = .ok p) : p.readsExt = l.any (·.readsExt) := by
  rw [readsExt, Bool.eq_iff_iff, List.any_eq_true, List.any_eq_true]
  refine exists_congr fun a => and_congr_left fun ha => ?_
  have hnoop : a.isNoop = false := by
    obtain ⟨x, hx, -⟩ := Assignment.copy_of_readsExt ha
    rw [Assignment.isNoop, hx]
  rw [mem_assignments h, and_iff_left hnoop]

theorem methodNames_program (h : ofAssignments scope l = .ok p) :
    ∃ (q : Program) (paths : List FieldPath), p.program = .ok q ∧ paths.Nodup ∧
      (∀ x, x ∈ paths ↔ Opens l x) ∧
      methodNames q =
        (fixedPaths scope (l.any (·.readsExt)) ++ paths.flatMap variablesAt).map localVar := by
  obtain ⟨os, hos⟩ := exists_overrides_of_ofAssignments h .request
  have hplaced := overrides_placed hos
  have habove := pathsAbove_overrides h hos
  refine ⟨_, startedPaths (statementsOf .root os), program_of_overrides hos, habove.nodup, ?_, ?_⟩
  · intro x
    rw [habove.mem_iff, and_iff_right x.depth_pos]
    simp only [mem_assignments h, Opens, and_assoc]
  · have hlocate : .locateExt ∉ statementsOf .root os := fun hmem => by
      cases hplaced.isLocateExt_eq_false hmem
    have hfixed : givenNames p.scope ++ p.located.flatMap declared =
        (fixedPaths scope (l.any (·.readsExt))).map localVar := by
      rw [givenNames_eq, ← readsExt_eq h, located, scope_of_ofAssignments h]
      cases scope with
      | impression => simp [fixedPaths]
      | request =>
        cases p.readsExt with
        | false => simp [fixedPaths]
        | true =>
          rw [fixedPaths, List.map_append]
          decide +kernel
    rw [methodNames, List.flatMap_append, flatMap_declared hlocate, ← List.append_assoc, hfixed,
      List.map_append]

/-- Where the names of the objects on the way are plain, a method has no name twice exactly when none
of its objects is spelled like another variable: like one that the method is given, like a builder,
or like a node. -/
theorem methodNames_nodup_iff (h : ofAssignments scope l = .ok p)
    (hplain : ∀ path, Opens l path → path.Plain) :
    ∃ q, p.program = .ok q ∧ ((methodNames q).Nodup ↔
      ∀ path, Opens l path → HasOwnNames scope (l.any (·.readsExt)) path) := by
  obtain ⟨q, paths, hq, hnodup, hmem, hnames⟩ := methodNames_program h
  refine ⟨q, hq, ?_⟩
  have hspelled : ∀ v ∈ fixedPaths scope (l.any (·.readsExt)) ++ paths.flatMap variablesAt,
      v.Plain := by
    intro v hv
    rcases List.mem_append.1 hv with hv | hv
    · exact plain_of_mem_fixedPaths hv
    · obtain ⟨x, hx, hv⟩ := List.mem_flatMap.1 hv
      exact plain_of_mem_variablesAt (hplain x ((hmem x).1 hx)) hv
  have hiff : (methodNames q).Nodup ↔
      (fixedPaths scope (l.any (·.readsExt)) ++ paths.flatMap variablesAt).Nodup := by
    rw [hnames]
    refine ⟨List.Nodup.of_map localVar, fun hd => hd.map_on fun x hx y hy hxy => ?_⟩
    exact (localVar_inj (hspelled x hx) (hspelled y hy)).1 hxy
  have hup : ∀ x k, (Builder.nested x).child k ∈ paths → x ∈ paths := by
    intro x k hx
    exact (hmem x).2 ((hmem _).1 hx).of_child
  rw [hiff, nodup_variables_iff (nodup_fixedPaths _ _) hnodup]
  simp only [← hmem]
  constructor
  · rintro ⟨hfixed, hown⟩
    exact hasOwnNames_of_apart hup hfixed hown
  · exact apart_of_hasOwnNames hup

theorem methodNames_nodup_sample :
    ∃ p q, ofAssignments .request Adapter.fixtureAdapter.request = .ok p ∧ p.program = .ok q ∧
      (methodNames q).Nodup ∧
      ∀ path, Opens Adapter.fixtureAdapter.request path → HasOwnNames .request false path := by
  obtain ⟨p, hp⟩ : ∃ p, ofAssignments .request Adapter.fixtureAdapter.request = .ok p := ⟨_, rfl⟩
  have hplain : ∀ a ∈ Adapter.fixtureAdapter.request, a.target.Plain := by decide +kernel
  obtain ⟨q, hq, hiff⟩ := methodNames_nodup_iff hp fun path => Opens.plain hplain
  have hnodup : (methodNames q).Nodup := by
    cases hp
    cases hq
    decide +kernel
  exact ⟨p, q, hp, hq, hnodup, hiff.1 hnodup⟩

/-- Two objects that are spelled alike, and an object that is spelled like the impression. -/
theorem methodNames_clash :
    (∃ a p q, Adapter.ofDescription (Adapter.fixtureDescription
        [⟨"site.content.title", some (.string "t"), none⟩,
          ⟨"siteContent.x", some (.string "x"), none⟩]) = .ok a ∧
      ofAssignments .request a.request = .ok p ∧ p.program = .ok q ∧ ¬ (methodNames q).Nodup) ∧
    ∃ a p q, Adapter.ofDescription (Adapter.fixtureDescription
        [⟨"imp.imp.w", some (.string "1"), none⟩]) = .ok a ∧
      ofAssignments .impression a.imp = .ok p ∧ p.program = .ok q ∧ ¬ (methodNames q).Nodup :=
  ⟨⟨_, _, _, rfl, rfl, rfl, by decide +kernel⟩, ⟨_, _, _, rfl, rfl, rfl, by decide +kernel⟩⟩

end Plan

end AdapterForge

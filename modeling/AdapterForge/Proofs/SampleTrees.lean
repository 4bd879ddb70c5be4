import AdapterForge.Fixture.Java
import AdapterForge.Proofs.FixtureRun

/-!
The two forms of a fixture are one object: the Java expressions render, member by member and in the
same order, the tree that setting the samples one after another gives.
-/
namespace AdapterForge

/-- Samples in the objects that they are put into. Members keep the order in which they came. -/
inductive SampleTree where
  | leaf (value : Literal)
  | object (members : List (String × SampleTree))

namespace SampleTree

mutual

def toJson : SampleTree → Json
  | .leaf v => v.toJson
  | .object members => .object (toFields members)

def toFields : List (String × SampleTree) → Fields Json
  | [] => .empty
  | (k, t) :: r => (toFields r).set k t.toJson

end

mutual

def leaves : SampleTree → List (List String × Literal)
  | .leaf v => [([], v)]
  | .object members => memberLeaves members

def memberLeaves : List (String × SampleTree) → List (List String × Literal)
  | [] => []
  | (k, t) :: r => (leaves t).map (fun e => (k :: e.1, e.2)) ++ memberLeaves r

end

def membersOf : Option SampleTree → List (String × SampleTree)
  | some (.object members) => members
  | _ => []

/-- Change the member of a name where it stands, or add it at the end. -/
def update (f : Option SampleTree → SampleTree) (k : String) :
    List (String × SampleTree) → List (String × SampleTree)
  | [] => [(k, f none)]
  | (j, t) :: r => if j = k then (j, f (some t)) :: r else (j, t) :: update f k r

/-- Set the field at the end of a list of names; an object is put wherever there is none on the
way. -/
def setAt (members : List (String × SampleTree)) (k : String) :
    List String → Literal → List (String × SampleTree)
  | [], v => update (fun _ => .leaf v) k members
  | j :: r, v => update (fun old => .object (setAt (membersOf old) j r v)) k members

def setIn (members : List (String × SampleTree)) (s : SampleField) : List (String × SampleTree) :=
  setAt members s.path.first s.path.rest s.value

def ofSamples (l : List SampleField) : List (String × SampleTree) := l.foldl setIn []

end SampleTree

namespace Java

open SampleTree

mutual

/-- The call for a member of a JSON node, or of a model builder. A member called `ext` and all that
lies below one are JSON nodes, every other object is built by its class. -/
def memberCall (inJson : Bool) (field : String) : SampleTree → String
  | .leaf v =>
    if inJson then ".put(" ++ quote field ++ ", " ++ literal v ++ ")"
    else "." ++ field ++ "(" ++ literal v ++ ")"
  | .object members =>
    let object :=
      if inJson || field = "ext" then "mapper.createObjectNode()" ++ memberCalls true members
      else className field ++ ".builder()" ++ memberCalls false members ++ ".build()"
    if inJson then ".<ObjectNode>set(" ++ quote field ++ ", " ++ object ++ ")"
    else "." ++ field ++ "(" ++ object ++ ")"

def memberCalls (inJson : Bool) : List (String × SampleTree) → String
  | [] => ""
  | (field, t) :: r => memberCall inJson field t ++ memberCalls inJson r

end

end Java

namespace SampleTree

variable {members : List (String × SampleTree)} {k : String}

theorem get?_toFields (members : List (String × SampleTree)) (k : String) :
    (toFields members).get? k = (members.lookup k).map toJson := by
  induction members with
  | nil => rw [toFields, Fields.get?_empty]; rfl
  | cons e members ih =>
    obtain ⟨j, t⟩ := e
    rw [toFields, Fields.get?_set, ih, List.lookup_cons]
    by_cases hk : k = j
    · simp [hk]
    · have hbeq : (k == j) = false := by simpa using hk
      simp only [if_neg hk, hbeq]

theorem toFields_update (f : Option SampleTree → SampleTree) (k : String)
    (members : List (String × SampleTree)) :
    toFields (update f k members) =
      (toFields members).set k (f (members.lookup k)).toJson := by
  induction members with
  | nil => rfl
  | cons e members ih =>
    obtain ⟨j, t⟩ := e
    rw [update, List.lookup_cons]
    by_cases hj : j = k
    · subst hj
      simp only [if_true, beq_self_eq_true, toFields, Fields.set_set]
    · have hk : (k == j) = false := by simpa using Ne.symm hj
      simp only [if_neg hj, hk, toFields, ih]
      exact Fields.set_comm _ (Ne.symm hj) _ _

theorem toFields_membersOf (old : Option SampleTree) :
    toFields (membersOf old) = ((old.map toJson).getD .null).fieldsOf := by
  cases old with
  | none => rfl
  | some t =>
    cases t with
    | object members => rw [membersOf, Option.map_some, Option.getD_some, toJson]; rfl
    | leaf v => cases v <;> rfl

theorem toFields_setAt (members : List (String × SampleTree)) (k : String) (r : List String)
    (v : Literal) : toFields (setAt members k r v) = Json.setAt (toFields members) k r v.toJson := by
  induction r generalizing members k with
  | nil => rw [setAt, toFields_update, toJson, Json.setAt]
  | cons j r ih =>
    rw [setAt, toFields_update, toJson, Json.setAt, ih, toFields_membersOf, get?_toFields]

theorem toFields_ofSamples (l : List SampleField) :
    toFields (ofSamples l) = l.foldl SampleField.setIn .empty := by
  have hfold : ∀ members, toFields (l.foldl setIn members) =
      l.foldl SampleField.setIn (toFields members) := by
    induction l with
    | nil => exact fun _ => rfl
    | cons s l ih =>
      intro members
      rw [List.foldl_cons, List.foldl_cons, ih, setIn, toFields_setAt]
      rfl
  exact hfold []

def leavesBelow (old : Option SampleTree) : List (List String × Literal) := (old.map leaves).getD []

theorem mem_memberLeaves {e : List String × Literal} (he : e ∈ leavesBelow (members.lookup k)) :
    (k :: e.1, e.2) ∈ memberLeaves members := by
  induction members with
  | nil => cases he
  | cons member members ih =>
    obtain ⟨j, t⟩ := member
    rw [List.lookup_cons] at he
    rw [memberLeaves, List.mem_append]
    by_cases hk : k = j
    · subst hk
      rw [beq_self_eq_true] at he
      exact .inl (List.mem_map_of_mem (f := fun e : List String × Literal => (k :: e.1, e.2)) he)
    · have hbeq : (k == j) = false := by simpa using hk
      rw [hbeq] at he
      exact .inr (ih he)

theorem memberLeaves_update {f : Option SampleTree → SampleTree} {r : List String} {v : Literal}
    (h : (leaves (f (members.lookup k))).Perm ((r, v) :: leavesBelow (members.lookup k))) :
    (memberLeaves (update f k members)).Perm ((k :: r, v) :: memberLeaves members) := by
  induction members with
  | nil =>
    simp only [update, memberLeaves, List.append_nil]
    exact h.map fun e => (k :: e.1, e.2)
  | cons member members ih =>
    obtain ⟨j, t⟩ := member
    rw [List.lookup_cons] at h
    by_cases hk : k = j
    · subst hk
      rw [beq_self_eq_true] at h
      rw [update, if_pos rfl, memberLeaves, memberLeaves, ← List.cons_append]
      exact (h.map fun e : List String × Literal => (k :: e.1, e.2)).append_right _
    · have hbeq : (k == j) = false := by simpa using hk
      rw [hbeq] at h
      rw [update, if_neg (Ne.symm hk), memberLeaves, memberLeaves]
      exact ((ih h).append_left _).trans List.perm_middle

/-- A value that is set apart from all others is one more leaf. -/
theorem memberLeaves_setAt {r : List String} (v : Literal)
    (h : ∀ e ∈ memberLeaves members, Apart (k :: r) e.1) :
    (memberLeaves (setAt members k r v)).Perm ((k :: r, v) :: memberLeaves members) := by
  induction r generalizing members k with
  | nil =>
    apply memberLeaves_update
    have hnone : leavesBelow (members.lookup k) = [] := by
      rw [List.eq_nil_iff_forall_not_mem]
      intro e he
      exact (h _ (mem_memberLeaves he)).1 (List.prefix_append [k] e.1)
    rw [hnone]
    exact .refl _
  | cons j r ih =>
    apply memberLeaves_update
    have hbelow : memberLeaves (membersOf (members.lookup k)) = leavesBelow (members.lookup k) := by
      cases hold : members.lookup k with
      | none => rfl
      | some t =>
        cases t with
        | object inner => rw [membersOf, leavesBelow, Option.map_some, Option.getD_some, leaves]
        | leaf w =>
          -- a value on the way would be a leaf above the new one
          have hleaf : ([], w) ∈ leavesBelow (members.lookup k) := by
            rw [hold]
            exact List.mem_singleton.2 rfl
          exact absurd (List.prefix_append [k] (j :: r)) (h _ (mem_memberLeaves hleaf)).2
    rw [← hbelow, leaves]
    refine ih fun e he => ?_
    rw [hbelow] at he
    exact (apart_cons.1 (h _ (mem_memberLeaves he))).resolve_left (by simp)

theorem memberLeaves_ofSamples {l : List SampleField}
    (h : l.Pairwise fun s t => Apart s.path.segments t.path.segments) :
    (memberLeaves (ofSamples l)).Perm (l.map fun s => (s.path.segments, s.value)) := by
  have hfold : ∀ members, (∀ s ∈ l, ∀ e ∈ memberLeaves members, Apart s.path.segments e.1) →
      (memberLeaves (l.foldl setIn members)).Perm
        ((l.map fun s => (s.path.segments, s.value)) ++ memberLeaves members) := by
    induction l with
    | nil => exact fun _ _ => .refl _
    | cons s l ih =>
      intro members hmembers
      rw [List.pairwise_cons] at h
      have hset := memberLeaves_setAt s.value (hmembers s (by simp))
      refine (ih h.2 (setIn members s) fun t ht e he => ?_).trans ?_
      · rcases List.mem_cons.1 (hset.mem_iff.1 he) with rfl | he
        · exact (h.1 t ht).symm
        · exact hmembers t (List.mem_cons_of_mem _ ht) e he
      · exact (hset.append_left _).trans List.perm_middle
  have hempty := hfold [] (by simp [memberLeaves])
  rwa [memberLeaves, List.append_nil] at hempty

/-- Set a sample below an object that the first `index` names of its path have led to. -/
def setFrom (index : Nat) (members : List (String × SampleTree)) (s : SampleField) :
    List (String × SampleTree) :=
  match s.path.segments.drop index with
  | [] => members
  | k :: r => setAt members k r s.value

/-- What the place at the end of the first `index` names holds once a sample is set there or
below. -/
def fill (index : Nat) (s : SampleField) (old : Option SampleTree) : SampleTree :=
  match s.path.segments.drop index with
  | [] => .leaf s.value
  | k :: r => .object (setAt (membersOf old) k r s.value)

theorem setFrom_eq_update {index : Nat} {s : SampleField} (h : s.path.segment? index = some k)
    (members : List (String × SampleTree)) :
    setFrom index members s = update (fill (index + 1) s) k members := by
  unfold setFrom fill
  rw [FieldPath.drop_segments h]
  dsimp only
  cases s.path.segments.drop (index + 1) <;> rfl

theorem fill_of_lt {index : Nat} {s : SampleField} (h : index < s.path.depth)
    (old : Option SampleTree) : fill index s old = .object (setFrom index (membersOf old) s) := by
  obtain ⟨k, hk⟩ := FieldPath.exists_segment? h
  unfold setFrom fill
  rw [FieldPath.drop_segments hk]

theorem fill_of_depth {index : Nat} {s : SampleField} (h : s.path.depth = index)
    (old : Option SampleTree) : fill index s old = .leaf s.value := by
  have hnil : s.path.segments.drop index = [] := by
    rw [List.drop_eq_nil_iff, s.path.length_segments, h]
  simp only [fill, hnil]

/-- The samples of the first member go to it, all others to the members behind it. -/
theorem foldl_setFrom_cons {index : Nat} {l : List SampleField}
    (h : ∀ s ∈ l, index < s.path.depth) (t : SampleTree) :
    l.foldl (setFrom index) ((k, t) :: members) =
      (k, (l.filter (·.path.segment? index == some k)).foldl
        (fun t s => fill (index + 1) s (some t)) t) ::
        (l.filter (·.path.segment? index != some k)).foldl (setFrom index) members := by
  induction l generalizing t members with
  | nil => rfl
  | cons s l ih =>
    have hl := fun s hs => h s (List.mem_cons_of_mem _ hs)
    obtain ⟨j, hj⟩ := FieldPath.exists_segment? (h s (by simp))
    rw [List.foldl_cons, setFrom_eq_update hj, update]
    by_cases hjk : j = k
    · subst hjk
      rw [if_pos rfl, ih hl, List.filter_cons_of_pos (by simp [hj]),
        List.filter_cons_of_neg (by simp [hj]), List.foldl_cons]
    · rw [if_neg (Ne.symm hjk), ih hl, List.filter_cons_of_neg (by simpa [hj] using hjk),
        List.filter_cons_of_pos (by simpa [hj] using hjk), List.foldl_cons, setFrom_eq_update hj]

/-- What the samples of a group make of the place that they have in common. -/
def groupTree (index : Nat) : List SampleField → SampleTree
  | [] => .object []
  | s :: r => r.foldl (fun t s => fill index s (some t)) (fill index s none)

theorem foldl_setFrom_eq_groups {index : Nat} {l : List SampleField}
    (h : ∀ s ∈ l, index < s.path.depth) :
    l.foldl (setFrom index) [] =
      (groupBySegment index (·.path) l).map fun g => (g.1, groupTree (index + 1) g.2) := by
  induction hn : l.length using Nat.strongRecOn generalizing l with
  | _ n ih =>
    cases l with
    | nil => rfl
    | cons s l =>
      obtain ⟨k, hk⟩ := FieldPath.exists_segment? (h s (by simp))
      have hl := fun s hs => h s (List.mem_cons_of_mem _ hs)
      have hlen := List.length_filter_le (fun s : SampleField => s.path.segment? index != some k) l
      rw [List.foldl_cons, setFrom_eq_update hk, update, foldl_setFrom_cons hl,
        @groupBySegment_cons _ index SampleField.path s l k hk, List.map_cons]
      rw [ih _ (by simp at hn; omega) (fun s hs => hl s (List.mem_filter.1 hs).1) rfl]
      rfl

theorem groupTree_of_depth {index : Nat} {s : SampleField} (h : s.path.depth = index) :
    groupTree index [s] = .leaf s.value :=
  fill_of_depth h none

theorem groupTree_of_lt {index : Nat} {l : List SampleField} (h : ∀ s ∈ l, index < s.path.depth) :
    groupTree index l = .object (l.foldl (setFrom index) []) := by
  have hfold : ∀ (r : List SampleField) members, (∀ s ∈ r, index < s.path.depth) →
      r.foldl (fun t s => fill index s (some t)) (.object members) =
        .object (r.foldl (setFrom index) members) := by
    intro r
    induction r with
    | nil => exact fun _ _ => rfl
    | cons s r ih =>
      intro members hr
      rw [List.foldl_cons, List.foldl_cons, fill_of_lt (hr s (by simp))]
      exact ih _ fun s hs => hr s (List.mem_cons_of_mem _ hs)
  cases l with
  | nil => rfl
  | cons s l =>
    rw [groupTree, fill_of_lt (h s (by simp)), List.foldl_cons]
    exact hfold l _ fun s hs => h s (List.mem_cons_of_mem _ hs)

end SampleTree

section

variable {levels index : Nat} {names : List String} {l : List SampleField}

theorem eq_singleton_of_apart (hapart : l.Pairwise fun s t => Apart s.path.segments t.path.segments)
    (hnames : ∀ s ∈ l, s.path.segments.take index = names) {leaf : SampleField} (hleaf : leaf ∈ l)
    (hdepth : leaf.path.depth = index) : l = [leaf] := by
  have habove : ∀ s ∈ l, leaf.path.segments <+: s.path.segments := fun s hs =>
    FieldPath.above_of_take_eq ((hnames leaf hleaf).trans (hnames s hs).symm) hdepth
  obtain ⟨pre, post, rfl⟩ := List.append_of_mem hleaf
  obtain ⟨-, hpost, hpre⟩ := List.pairwise_append.1 hapart
  have hnone : pre = [] := by
    rw [List.eq_nil_iff_forall_not_mem]
    intro s hs
    exact (hpre s hs leaf (by simp)).2 (habove s (by simp [hs]))
  have hnone' : post = [] := by
    rw [List.eq_nil_iff_forall_not_mem]
    intro s hs
    exact ((List.pairwise_cons.1 hpost).1 s hs).1 (habove s (by simp [hs]))
  rw [hnone, hnone', List.nil_append]

namespace Java

open SampleTree

theorem memberCalls_map {α : Type} (inJson : Bool) (gs : List α) (f : α → String × SampleTree) :
    memberCalls inJson (gs.map f) = String.join (gs.map fun g => memberCall inJson (f g).1 (f g).2) := by
  induction gs with
  | nil => rfl
  | cons g gs ih =>
    rw [List.map_cons, List.map_cons, String.join_cons, ← ih]
    rfl

theorem along_beq_json (names : List String) :
    (ObjectKind.along none names == some .json) = throughExt names := by
  rw [Bool.eq_iff_iff, beq_iff_eq, throughExt, decide_eq_true_iff]

theorem memberCall_leaf (names : List String) (field : String) (v : Literal) :
    memberCall (throughExt names) field (.leaf v) =
      leafCall (ObjectKind.along none names == some .json) field v := by
  rw [along_beq_json, memberCall, leafCall]

theorem memberCall_object (names : List String) (field : String)
    (members : List (String × SampleTree)) :
    memberCall (throughExt names) field (.object members) =
      objectCall (ObjectKind.along none names == some .json) field
        (newObject (.ofField field (ObjectKind.along none names))
          (memberCalls (throughExt (names ++ [field])) members)) := by
  have hkind : ObjectKind.ofField field (ObjectKind.along none names) =
      if throughExt names || field = "ext" then .json else .model (className field) := by
    by_cases hfield : field = "ext" <;> simp [ObjectKind.ofField, throughExt, hfield]
  rw [along_beq_json, throughExt_append, memberCall, objectCall, hkind]
  cases throughExt names || decide (field = "ext") <;> rfl

/-- The calls for samples that are apart are those of the tree that the samples make. -/
theorem sampleCalls_eq (hapart : l.Pairwise fun s t => Apart s.path.segments t.path.segments)
    (hnames : ∀ s ∈ l, s.path.segments.take index = names)
    (hdepth : EndsWithin levels index (·.path) l) :
    sampleCalls levels (ObjectKind.along none names) index l =
      memberCalls (throughExt names) (l.foldl (setFrom index) []) := by
  induction levels generalizing index names l with
  | zero =>
    rw [hdepth.eq_nil]
    rfl
  | succ levels ih =>
    rw [foldl_setFrom_eq_groups fun s hs => (hdepth s hs).1, memberCalls_map, sampleCalls]
    congr 1
    apply List.map_congr_left
    rintro ⟨field, items⟩ hg
    have htake := fun s => take_succ_of_mem_group hnames hg (x := s)
    have hgroup : items.Pairwise fun s t => Apart s.path.segments t.path.segments := by
      have hfilter := mem_of_mem_groupBySegment hg
      dsimp only at hfilter
      rw [hfilter]
      exact hapart.filter _
    dsimp only
    cases hfind : items.find? (·.path.depth = index + 1) with
    | some leaf =>
      -- the calls stop at a leaf, which is the only sample of its group
      have hlast : leaf.path.depth = index + 1 := by simpa using List.find?_some hfind
      rw [eq_singleton_of_apart hgroup htake (List.mem_of_find?_eq_some hfind) hlast,
        groupTree_of_depth hlast, memberCall_leaf]
    | none =>
      have hdeeper := hdepth.group_of_find? hg hfind
      rw [groupTree_of_lt fun s hs => (hdeeper s hs).1, memberCall_object, ← ih hgroup htake hdeeper,
        ObjectKind.along_append]

theorem customizer_eq (hapart : l.Pairwise fun s t => Apart s.path.segments t.path.segments)
    (var : String) :
    customizer var l =
      if l.isEmpty then "identity()" else var ++ " -> " ++ var ++ memberCalls false (ofSamples l) := by
  have hcalls : sampleCalls ((l.map (·.path.depth)).foldr max 0) none 0 l =
      memberCalls false (ofSamples l) := by
    have hnames : ∀ s ∈ l, s.path.segments.take 0 = [] := fun _ _ => rfl
    exact sampleCalls_eq hapart hnames (endsWithin_maxDepth _ l)
  simp only [customizer, hcalls]

end Java

end

/-- A text that builds exactly what setting some samples in an empty object gives, and each of them
once. -/
structure BuildsSamples (var : String) (l : List SampleField) (text : String) : Prop where
  text_eq : text = if l.isEmpty then "identity()"
    else var ++ " -> " ++ var ++ Java.memberCalls false (SampleTree.ofSamples l)
  json_eq : (SampleTree.object (SampleTree.ofSamples l)).toJson =
    .object (l.foldl SampleField.setIn .empty)
  leaves_perm : (SampleTree.memberLeaves (SampleTree.ofSamples l)).Perm
    (l.map fun s => (s.path.segments, s.value))

theorem buildsSamples_customizer {l : List SampleField}
    (hapart : l.Pairwise fun s t => Apart s.path.segments t.path.segments) (var : String) :
    BuildsSamples var l (Java.customizer var l) where
  text_eq := Java.customizer_eq hapart var
  json_eq := by rw [SampleTree.toJson, SampleTree.toFields_ofSamples]
  leaves_perm := SampleTree.memberLeaves_ofSamples hapart

/-- The Java of a fixture builds its samples. -/
theorem Adapter.customizers_build_samples (a : Adapter) :
    BuildsSamples "impBuilder" a.fixture.impFields a.fixture.impCustomizer ∧
      BuildsSamples "requestBuilder" a.fixture.requestFields a.fixture.requestCustomizer :=
  ⟨buildsSamples_customizer (sampleFields_apart _ (nodup_eraseDups _)) _,
    buildsSamples_customizer (sampleFields_apart _ (nodup_eraseDups _)) _⟩

example :
    Java.memberCalls false (SampleTree.ofSamples [⟨⟨"user", ["ext", "eids"]⟩, .text "e"⟩,
      ⟨⟨"tmax", []⟩, .number (.ofNat 2)⟩, ⟨⟨"user", ["id"]⟩, .text "i"⟩]) =
        ".user(User.builder().ext(mapper.createObjectNode().put(\"eids\", \"e\")).id(\"i\").build())" ++
          ".tmax(2)" := by
  decide +kernel

end AdapterForge

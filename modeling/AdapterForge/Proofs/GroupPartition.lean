import AdapterForge.Proofs.Shape

/-!
Grouping by the name at one place is a stable partition of the items that have such a name, and
grouping a group at the next place again keeps items together that share all names so far.
-/
namespace AdapterForge

variable {α : Type}

/-- Where a name occurs first at a place of the items' paths. -/
def firstPlace (index : Nat) (path : α → FieldPath) (items : List α) (k : String) : Nat :=
  items.findIdx fun x => (path x).segment? index == some k

/-- Groups that hold the items by their names at a place, and leave out those without one. -/
structure IsStablePartition (index : Nat) (path : α → FieldPath) (items : List α)
    (groups : List (String × List α)) : Prop where
  keys_nodup : (groups.map (·.1)).Nodup
  keys_ordered : (groups.map (·.1)).Pairwise fun j k =>
    firstPlace index path items j < firstPlace index path items k
  group_eq : ∀ g ∈ groups, g.2 = items.filter fun x => (path x).segment? index = some g.1
  group_ne_nil : ∀ g ∈ groups, g.2 ≠ []
  ungrouped_iff : ∀ x ∈ items, (∀ g ∈ groups, x ∉ g.2) ↔ (path x).depth ≤ index

/-- A list that comes from grouping at the places `0` to `index`, each time within one group. -/
inductive NestedGroup (path : α → FieldPath) (items : List α) : Nat → List α → Prop
  | outer {g : String × List α} : g ∈ groupBySegment 0 path items → NestedGroup path items 0 g.2
  | inner {index : Nat} {l : List α} {g : String × List α} : NestedGroup path items index l →
      g ∈ groupBySegment (index + 1) path l → NestedGroup path items (index + 1) g.2

variable {index : Nat} {path : α → FieldPath} {l : List α}

theorem mem_keys_iff {k : String} :
    k ∈ (groupBySegment index path l).map (·.1) ↔ ∃ x ∈ l, (path x).segment? index = some k := by
  constructor
  · intro h
    obtain ⟨g, hg, rfl⟩ := List.mem_map.1 h
    obtain ⟨x, hx⟩ := List.exists_mem_of_ne_nil _ (group_ne_nil hg)
    exact ⟨x, (mem_group_iff hg).1 hx⟩
  · rintro ⟨x, hx, hk⟩
    obtain ⟨g, hg, rfl⟩ := exists_group hx hk
    exact List.mem_map_of_mem hg

theorem firstPlace_lt {k : String} (h : k ∈ (groupBySegment index path l).map (·.1)) :
    firstPlace index path l k < l.length := by
  obtain ⟨x, hx, hk⟩ := mem_keys_iff.1 h
  exact List.findIdx_lt_length_of_exists ⟨x, hx, by simp [hk]⟩

theorem firstPlace_concat {k : String} (x : α)
    (h : k ∈ (groupBySegment index path l).map (·.1)) :
    firstPlace index path (l ++ [x]) k = firstPlace index path l k := by
  have hlt := firstPlace_lt h
  unfold firstPlace at hlt ⊢
  rw [List.findIdx_append, if_pos hlt]

theorem le_firstPlace_concat {k : String} (x : α)
    (h : k ∉ (groupBySegment index path l).map (·.1)) :
    l.length ≤ firstPlace index path (l ++ [x]) k := by
  have hnone : firstPlace index path l k = l.length := by
    apply List.findIdx_eq_length_of_false
    intro y hy
    rw [beq_eq_false_iff_ne]
    exact fun hk => h (mem_keys_iff.2 ⟨y, hy, hk⟩)
  unfold firstPlace at hnone ⊢
  rw [List.findIdx_append, hnone, if_neg (Nat.lt_irrefl _)]
  exact Nat.le_add_left _ _

theorem keys_addToGroup {k : String} {x : α} (gs : List (String × List α)) :
    (addToGroup k x gs).map (·.1) =
      if k ∈ gs.map (·.1) then gs.map (·.1) else gs.map (·.1) ++ [k] := by
  induction gs with
  | nil => rfl
  | cons g gs ih =>
    rw [addToGroup]
    by_cases hg : g.1 = k
    · simp [hg]
    · rw [if_neg hg, List.map_cons, ih]
      by_cases hk : k ∈ gs.map (·.1)
      · rw [if_pos hk, if_pos (by simp [List.mem_map.1 hk]), List.map_cons]
      · rw [if_neg hk, if_neg (by simpa [Ne.symm hg] using hk), List.map_cons, List.cons_append]

theorem keys_ordered (l : List α) :
    ((groupBySegment index path l).map (·.1)).Pairwise fun j k =>
      firstPlace index path l j < firstPlace index path l k := by
  induction l using List.reverseRecOn with
  | nil => exact .nil
  | append_singleton l x ih =>
    -- a name that was there keeps its first place
    have hold := ih.imp_of_mem (S := fun j k =>
        firstPlace index path (l ++ [x]) j < firstPlace index path (l ++ [x]) k) fun hj hk hlt => by
      rwa [firstPlace_concat x hj, firstPlace_concat x hk]
    rw [groupBySegment_concat]
    cases (path x).segment? index with
    | none => exact hold
    | some k =>
      dsimp only
      rw [keys_addToGroup]
      split
      · exact hold
      · next hk =>
        rw [List.pairwise_append]
        refine ⟨hold, List.pairwise_singleton _ _, fun j hj i hi => ?_⟩
        obtain rfl := List.mem_singleton.1 hi
        rw [firstPlace_concat x hj]
        exact Nat.lt_of_lt_of_le (firstPlace_lt hj) (le_firstPlace_concat x hk)

theorem ungrouped_iff {x : α} (hx : x ∈ l) :
    (∀ g ∈ groupBySegment index path l, x ∉ g.2) ↔ (path x).depth ≤ index := by
  rw [← FieldPath.length_segments, ← List.getElem?_eq_none_iff]
  change _ ↔ (path x).segment? index = none
  constructor
  · intro h
    cases hk : (path x).segment? index with
    | none => rfl
    | some k =>
      obtain ⟨g, hg, rfl⟩ := exists_group hx hk
      exact absurd ((mem_group_iff hg).2 ⟨hx, hk⟩) (h g hg)
  · intro h g hg hmem
    rw [((mem_group_iff hg).1 hmem).2] at h
    cases h

theorem isStablePartition_groupBySegment (index : Nat) (path : α → FieldPath) (items : List α) :
    IsStablePartition index path items (groupBySegment index path items) where
  keys_nodup := groupBySegment_keys_nodup items
  keys_ordered := keys_ordered items
  group_eq g hg := by
    rw [mem_of_mem_groupBySegment hg]
    apply List.filter_congr
    intro x _
    rw [beq_eq_decide]
  group_ne_nil _ hg := group_ne_nil hg
  ungrouped_iff _ hx := ungrouped_iff hx

theorem NestedGroup.exists_take {items : List α} (h : NestedGroup path items index l) :
    ∃ names, names.length = index + 1 ∧ ∀ x ∈ l, (path x).segments.take (index + 1) = names := by
  induction h with
  | @outer g hg =>
    have hnil : ∀ y ∈ items, (path y).segments.take 0 = [] := fun _ _ => List.take_zero
    exact ⟨[g.1], rfl, fun x hx => take_succ_of_mem_group hnil hg hx⟩
  | @inner index l g _ hg ih =>
    obtain ⟨names, hlen, hnames⟩ := ih
    refine ⟨names ++ [g.1], by simp [hlen], fun x hx => ?_⟩
    exact take_succ_of_mem_group hnames hg hx

/-- Grouping is a stable partition. So the members of a group within groups of all places before
have all names up to its own place in common. -/
theorem groupBySegment_partitions (index : Nat) (path : α → FieldPath) (items : List α) :
    IsStablePartition index path items (groupBySegment index path items) ∧
      ∀ l, NestedGroup path items index l → ∀ g ∈ groupBySegment (index + 1) path l,
        ∃ names, names.length = index + 2 ∧
          ∀ x ∈ g.2, (path x).segments.take (index + 2) = names :=
  ⟨isStablePartition_groupBySegment index path items, fun _ hl _ hg => (hl.inner hg).exists_take⟩

def interleavedPaths : List FieldPath :=
  [⟨"site", ["content", "title"]⟩, ⟨"app", ["id"]⟩, ⟨"tmax", []⟩, ⟨"site", ["page"]⟩,
    ⟨"site", ["content", "url"]⟩]

theorem groupBySegment_partitions_interleaved :
    NestedGroup id interleavedPaths 0
      [⟨"site", ["content", "title"]⟩, ⟨"site", ["page"]⟩, ⟨"site", ["content", "url"]⟩] ∧
    groupBySegment 1 id interleavedPaths =
      [("content", [⟨"site", ["content", "title"]⟩, ⟨"site", ["content", "url"]⟩]),
        ("id", [⟨"app", ["id"]⟩]), ("page", [⟨"site", ["page"]⟩])] ∧
    IsStablePartition 0 id interleavedPaths (groupBySegment 0 id interleavedPaths) ∧
    ∃ names : List String, names.length = 2 ∧
      ∀ x ∈ [(⟨"site", ["content", "title"]⟩ : FieldPath), ⟨"site", ["content", "url"]⟩],
        x.segments.take 2 = names := by
  have hsite : NestedGroup id interleavedPaths 0
      [⟨"site", ["content", "title"]⟩, ⟨"site", ["page"]⟩, ⟨"site", ["content", "url"]⟩] :=
    .outer (g := ("site", _)) (by decide)
  refine ⟨hsite, by decide, (groupBySegment_partitions 0 id interleavedPaths).1, ?_⟩
  exact (groupBySegment_partitions 0 id interleavedPaths).2 _ hsite ("content", _) (by decide)

end AdapterForge

import AdapterForge.FieldPath

/-!
Grouping by the name at one place of a path. The groups are built one item after the other.
-/
namespace AdapterForge

variable {α : Type}

/-- Add an item at the end of the group of its name. A name without a group gets one behind all
others. -/
def addToGroup (k : String) (x : α) : List (String × List α) → List (String × List α)
  | [] => [(k, [x])]
  | (j, l) :: gs => if j = k then (j, l ++ [x]) :: gs else (j, l) :: addToGroup k x gs

/-- The items by the name at place `index` of their paths: names in the order in which they first
occur, the items of a name in their own order. Items with shorter paths belong to no group. -/
def groupBySegment (index : Nat) (path : α → FieldPath) (items : List α) :
    List (String × List α) :=
  items.foldl (fun gs x =>
    match (path x).segment? index with
    | some k => addToGroup k x gs
    | none => gs) []

section

variable {k : String} {x : α}

theorem addToGroup_of_not_mem {gs : List (String × List α)} (h : k ∉ gs.map (·.1)) :
    addToGroup k x gs = gs ++ [(k, [x])] := by
  induction gs with
  | nil => rfl
  | cons g gs ih =>
    rw [List.map_cons, List.mem_cons, not_or] at h
    rw [addToGroup, if_neg (Ne.symm h.1), ih h.2, List.cons_append]

theorem addToGroup_of_mem {ks : List String} {f : String → List α} (h : ks.Nodup) (hk : k ∈ ks) :
    addToGroup k x (ks.map fun j => (j, f j)) =
      ks.map fun j => (j, if j = k then f j ++ [x] else f j) := by
  induction ks with
  | nil => cases hk
  | cons j ks ih =>
    rw [List.nodup_cons] at h
    rw [List.map_cons, List.map_cons, addToGroup]
    by_cases hj : j = k
    · subst hj
      rw [if_pos rfl, if_pos rfl]
      congr 1
      apply List.map_congr_left
      intro i hi
      rw [if_neg]
      rintro rfl
      exact h.1 hi
    · rw [if_neg hj, if_neg hj, ih h.2 ((List.mem_cons.1 hk).resolve_left (Ne.symm hj))]

end

variable {index : Nat} {path : α → FieldPath}

theorem groupBySegment_nil (index : Nat) (path : α → FieldPath) :
    groupBySegment index path [] = [] := rfl

theorem groupBySegment_concat (l : List α) (x : α) :
    groupBySegment index path (l ++ [x]) =
      match (path x).segment? index with
      | some k => addToGroup k x (groupBySegment index path l)
      | none => groupBySegment index path l := by
  unfold groupBySegment
  rw [List.foldl_append, List.foldl_cons, List.foldl_nil]

end AdapterForge

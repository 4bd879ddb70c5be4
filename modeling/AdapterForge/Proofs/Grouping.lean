import Mathlib.Data.List.Basic
import Mathlib.Data.List.Induction
import Mathlib.Data.List.MinMax
import AdapterForge.Grouping

/-!
Grouping by a segment is a partition: the first item takes all others of its segment out of the
list, and the rest is grouped the same way.
-/
namespace AdapterForge

variable {α β : Type} {index : Nat} {path : α → FieldPath}

theorem nodup_eraseDups [DecidableEq α] (l : List α) : l.eraseDups.Nodup := by
  induction hn : l.length using Nat.strongRecOn generalizing l with
  | _ n ih =>
    cases l with
    | nil => simp
    | cons x l =>
      have hlen := List.length_filter_le (fun y => !y == x) l
      rw [List.eraseDups_cons, List.nodup_cons]
      refine ⟨?_, ih _ (by simp at hn; omega) _ rfl⟩
      rw [List.mem_eraseDups, List.mem_filter]
      simp

def groupsOf (index : Nat) (path : α → FieldPath) (keys : List String) (l : List α) :
    List (String × List α) :=
  keys.map fun k => (k, l.filter fun x => (path x).segment? index == some k)

theorem addToGroup_groupsOf {keys : List String} {l : List α} {x : α} {k : String}
    (hkeys : keys.Nodup) (hx : (path x).segment? index = some k) (hk : k ∈ keys) :
    addToGroup k x (groupsOf index path keys l) = groupsOf index path keys (l ++ [x]) := by
  rw [groupsOf, addToGroup_of_mem hkeys hk]
  apply List.map_congr_left
  intro j _
  by_cases hj : j = k
  · simp [hx, hj]
  · simp [hx, hj, Ne.symm hj]

theorem addToGroup_groupsOf_new {keys : List String} {l : List α} {x : α} {k : String}
    (hl : ∀ y ∈ l, (path y).segment? index ≠ some k) (hx : (path x).segment? index = some k)
    (hk : k ∉ keys) :
    addToGroup k x (groupsOf index path keys l) = groupsOf index path (keys ++ [k]) (l ++ [x]) := by
  have hmem : k ∉ (groupsOf index path keys l).map (·.1) := by
    simpa [groupsOf, Function.comp_def] using hk
  rw [addToGroup_of_not_mem hmem, groupsOf, groupsOf, List.map_append]
  congr 1
  · apply List.map_congr_left
    intro j hj
    have hne : j ≠ k := by
      rintro rfl
      exact hk hj
    simp [hx, Ne.symm hne]
  · have hempty : l.filter (fun x => (path x).segment? index == some k) = [] := by
      rw [List.filter_eq_nil_iff]
      exact fun y hy hyk => hl y hy (by simpa using hyk)
    simp [hx, hempty]

theorem groupBySegment_eq (l : List α) :
    groupBySegment index path l =
      (l.filterMap fun x => (path x).segment? index).eraseDups.map fun k =>
        (k, l.filter fun x => (path x).segment? index == some k) := by
  change _ = groupsOf index path (l.filterMap fun x => (path x).segment? index).eraseDups l
  induction l using List.reverseRecOn with
  | nil => rfl
  | append_singleton l x ih =>
    rw [groupBySegment_concat, List.filterMap_append]
    cases hx : (path x).segment? index with
    | none => simp [hx, ih, groupsOf]
    | some k =>
      have hnew : [x].filterMap (fun x => (path x).segment? index) = [k] := by simp [hx]
      rw [ih, hnew, List.eraseDups_append]
      generalize hks : l.filterMap (fun x => (path x).segment? index) = ks
      by_cases hk : k ∈ ks
      · have hnone : [k].removeAll ks = [] := by simp [List.removeAll, hk]
        rw [hnone, List.eraseDups_nil, List.append_nil]
        exact addToGroup_groupsOf (nodup_eraseDups ks) hx (List.mem_eraseDups.2 hk)
      · have hone : [k].removeAll ks = [k] := by simp [List.removeAll, hk]
        have hl : ∀ y ∈ l, (path y).segment? index ≠ some k := fun y hy hyk =>
          hk (hks ▸ List.mem_filterMap.2 ⟨y, hy, hyk⟩)
        rw [hone]
        exact addToGroup_groupsOf_new hl hx (mt List.mem_eraseDups.1 hk)

theorem mem_of_mem_groupBySegment {l : List α} {g : String × List α}
    (h : g ∈ groupBySegment index path l) :
    g.2 = l.filter fun x => (path x).segment? index == some g.1 := by
  rw [groupBySegment_eq, List.mem_map] at h
  obtain ⟨k, -, rfl⟩ := h
  rfl

theorem groupBySegment_cons {x : α} {l : List α} {k : String}
    (h : (path x).segment? index = some k) :
    groupBySegment index path (x :: l) =
      (k, x :: l.filter fun y => (path y).segment? index == some k) ::
        groupBySegment index path (l.filter fun y => (path y).segment? index != some k) := by
  rw [groupBySegment_eq, groupBySegment_eq,
    List.filterMap_cons_some (f := fun y => (path y).segment? index) h, List.eraseDups_cons,
    List.map_cons, List.filter_cons_of_pos (by simp [h])]
  congr 1
  have hk : (l.filterMap fun y => (path y).segment? index).filter (fun b => !b == k) =
      (l.filter fun y => (path y).segment? index != some k).filterMap
        fun y => (path y).segment? index := by
    rw [List.filter_filterMap, List.filterMap_filter]
    congr 1
    funext y
    cases hy : (path y).segment? index with
    | none => simp
    | some j => by_cases hj : j = k <;> simp [hj]
  rw [hk]
  apply List.map_congr_left
  intro j hj
  have hne : j ≠ k := by
    rintro rfl
    obtain ⟨y, hy, hyj⟩ := List.mem_filterMap.1 (List.mem_eraseDups.1 hj)
    simp [hyj] at hy
  rw [List.filter_cons_of_neg (by simpa [h] using hne.symm), List.filter_filter]
  congr 1
  apply List.filter_congr
  intro y _
  by_cases hy : (path y).segment? index = some j <;> simp [hy, hne]

theorem mem_group_iff {l : List α} {g : String × List α} (hg : g ∈ groupBySegment index path l)
    {x : α} : x ∈ g.2 ↔ x ∈ l ∧ (path x).segment? index = some g.1 := by
  rw [mem_of_mem_groupBySegment hg, List.mem_filter, beq_iff_eq]

theorem group_ne_nil {l : List α} {g : String × List α} (hg : g ∈ groupBySegment index path l) :
    g.2 ≠ [] := by
  have hk : g.1 ∈ l.filterMap fun x => (path x).segment? index := by
    rw [groupBySegment_eq, List.mem_map] at hg
    obtain ⟨k, hk, rfl⟩ := hg
    exact List.mem_eraseDups.1 hk
  obtain ⟨x, hx, hxk⟩ := List.mem_filterMap.1 hk
  exact List.ne_nil_of_mem ((mem_group_iff hg).2 ⟨hx, hxk⟩)

/-- The paths of some items end behind their first `index` names, at most `levels` names later. -/
def EndsWithin (levels index : Nat) (path : α → FieldPath) (l : List α) : Prop :=
  ∀ x ∈ l, index < (path x).depth ∧ (path x).depth ≤ index + levels

namespace EndsWithin

variable {levels : Nat} {l : List α} {g : String × List α}

theorem eq_nil (h : EndsWithin 0 index path l) : l = [] := by
  rw [List.eq_nil_iff_forall_not_mem]
  intro x hx
  have := h x hx
  omega

theorem group (h : EndsWithin (levels + 1) index path l) (hg : g ∈ groupBySegment index path l)
    (hn : ∀ x ∈ g.2, (path x).depth ≠ index + 1) : EndsWithin levels (index + 1) path g.2 := by
  intro x hx
  have hl := h x ((mem_group_iff hg).1 hx).1
  have hne := hn x hx
  omega

theorem group_of_find? (h : EndsWithin (levels + 1) index path l)
    (hg : g ∈ groupBySegment index path l)
    (hfind : g.2.find? (fun x => (path x).depth = index + 1) = none) :
    EndsWithin levels (index + 1) path g.2 :=
  h.group hg fun x hx => by simpa using List.find?_eq_none.1 hfind x hx

end EndsWithin

theorem endsWithin_maxDepth (path : α → FieldPath) (l : List α) :
    EndsWithin ((l.map fun x => (path x).depth).foldr max 0) 0 path l := by
  intro x hx
  rw [Nat.zero_add]
  exact ⟨(path x).depth_pos, List.le_max_of_le' 0 (List.mem_map_of_mem hx) (Nat.le_refl _)⟩

theorem exists_group {l : List α} {x : α} {k : String} (hx : x ∈ l)
    (h : (path x).segment? index = some k) : ∃ g ∈ groupBySegment index path l, g.1 = k := by
  refine ⟨(k, l.filter fun y => (path y).segment? index == some k), ?_, rfl⟩
  rw [groupBySegment_eq, List.mem_map]
  exact ⟨k, List.mem_eraseDups.2 (List.mem_filterMap.2 ⟨x, hx, h⟩), rfl⟩

theorem groupBySegment_keys_nodup (l : List α) :
    ((groupBySegment index path l).map (·.1)).Nodup := by
  have hkeys : (groupBySegment index path l).map (·.1) =
      (l.filterMap fun x => (path x).segment? index).eraseDups := by
    simp [groupBySegment_eq, Function.comp_def]
  rw [hkeys]
  exact nodup_eraseDups _

theorem groupBySegment_perm {l : List α} (h : ∀ x ∈ l, ((path x).segment? index).isSome) :
    ((groupBySegment index path l).flatMap (·.2)).Perm l := by
  induction hn : l.length using Nat.strongRecOn generalizing l with
  | _ n ih =>
    cases l with
    | nil => simp [groupBySegment_nil]
    | cons x l =>
      obtain ⟨k, hx⟩ := Option.isSome_iff_exists.1 (h x (by simp))
      have hlen := List.length_filter_le (fun y => (path y).segment? index != some k) l
      rw [groupBySegment_cons hx, List.flatMap_cons]
      refine .trans (.append_left _ (ih _ (by simp at hn; omega) (fun y hy => ?_) rfl)) ?_
      · exact h y (List.mem_cons_of_mem _ (List.mem_filter.1 hy).1)
      · exact .cons x (List.filter_append_perm _ l)

theorem filter_group {l : List α} {g : String × List α} (hg : g ∈ groupBySegment index path l)
    {q : α → Bool} {k : String} (hq : ∀ x, q x = true → (path x).segment? index = some k) :
    g.2.filter q = if g.1 = k then l.filter q else [] := by
  rw [mem_of_mem_groupBySegment hg, List.filter_filter]
  split
  · next hk =>
    apply List.filter_congr
    intro x _
    cases hx : q x with
    | false => rfl
    | true => simp [hq x hx, hk]
  · next hk =>
    rw [List.filter_eq_nil_iff]
    intro x _ hx
    obtain ⟨hx, hxg⟩ := Bool.and_eq_true_iff.1 hx
    rw [hq x hx] at hxg
    exact hk (by simpa using hxg.symm : k = g.1).symm

theorem flatMap_of_keys_nodup {γ δ : Type} {gs : List (String × γ)} (h : (gs.map (·.1)).Nodup)
    (k : String) (r : List δ) :
    (gs.flatMap fun g => if g.1 = k then r else []) = if k ∈ gs.map (·.1) then r else [] := by
  induction gs with
  | nil => rfl
  | cons g gs ih =>
    rw [List.map_cons, List.nodup_cons] at h
    rw [List.flatMap_cons, ih h.2, List.map_cons]
    by_cases hk : g.1 = k
    · subst hk
      simp [h.1]
    · have hmem : k ∈ g.1 :: gs.map (·.1) ↔ k ∈ gs.map (·.1) := by simp [Ne.symm hk]
      simp only [hk, if_false, List.nil_append, hmem]

/-- Grouping is stable: whatever is accepted of one group comes in the order of the list. -/
theorem filter_flatMap_groupBySegment {f : List α → List α} {q : α → Bool} {k : String}
    (hf : ∀ l, (f l).filter q = f (l.filter q)) (hnil : f [] = [])
    (hq : ∀ x, q x = true → (path x).segment? index = some k) (l : List α) :
    ((groupBySegment index path l).flatMap fun g => f g.2).filter q = f (l.filter q) := by
  have hpart : ∀ g ∈ groupBySegment index path l,
      (f g.2).filter q = if g.1 = k then f (l.filter q) else [] := by
    intro g hg
    rw [hf, filter_group hg hq]
    split
    · rfl
    · exact hnil
  rw [List.filter_flatMap, List.flatMap_congr hpart,
    flatMap_of_keys_nodup (groupBySegment_keys_nodup l)]
  split
  · rfl
  · next hk =>
    have hl : l.filter q = [] := by
      rw [List.filter_eq_nil_iff]
      intro x hx hqx
      obtain ⟨g, hg, hgk⟩ := exists_group hx (hq x hqx)
      exact hk (List.mem_map.2 ⟨g, hg, hgk⟩)
    rw [hl, hnil]

/-- What every step leaves as it is, a run leaves as it is. -/
theorem view_foldlM {γ : Type} {step : β → α → Option β} (view : β → γ) {l : List α}
    (hstep : ∀ x ∈ l, ∀ b c, step b x = some c → view c = view b) {b c : β}
    (h : l.foldlM step b = some c) : view c = view b := by
  induction l generalizing b with
  | nil =>
    obtain rfl : b = c := by simpa using h
    rfl
  | cons x l ih =>
    rw [List.foldlM_cons, Option.bind_eq_bind, Option.bind_eq_some_iff] at h
    obtain ⟨next, hx, h⟩ := h
    rw [ih (fun y hy => hstep y (List.mem_cons_of_mem _ hy)) h, hstep x List.mem_cons_self b next hx]

def StepsCommute (step : β → α → Option β) (x y : α) : Prop :=
  ∀ b, (step b x).bind (step · y) = (step b y).bind (step · x)

theorem foldlM_cons_swap {step : β → α → Option β} {x : α} {l : List α}
    (h : ∀ y ∈ l, StepsCommute step x y) (b : β) :
    (x :: l).foldlM step b = (l.foldlM step b).bind (step · x) := by
  induction l generalizing b with
  | nil => simp
  | cons y l ih =>
    have hl := ih fun z hz => h z (List.mem_cons_of_mem _ hz)
    simp only [List.foldlM_cons, Option.bind_eq_bind] at hl ⊢
    rw [← Option.bind_assoc, h y (by simp) b, Option.bind_assoc, Option.bind_assoc]
    congr 1
    funext c
    exact hl c

theorem foldlM_filter_append {step : β → α → Option β} {p : α → Bool} {l : List α}
    (h : ∀ x ∈ l, ∀ y ∈ l, p x = false → p y = true → StepsCommute step x y) (b : β) :
    l.foldlM step b = (l.filter p ++ l.filter (!p ·)).foldlM step b := by
  induction l generalizing b with
  | nil => rfl
  | cons x l ih =>
    have hl := ih fun y hy z hz => h y (List.mem_cons_of_mem _ hy) z (List.mem_cons_of_mem _ hz)
    cases hx : p x with
    | true =>
      rw [List.filter_cons_of_pos hx, List.filter_cons_of_neg (by simp [hx])]
      simp only [List.cons_append, List.foldlM_cons, hl]
    | false =>
      rw [List.filter_cons_of_neg (by simp [hx]), List.filter_cons_of_pos (by simp [hx])]
      have hcomm : ∀ y ∈ l.filter p, StepsCommute step x y := by
        intro y hy
        obtain ⟨hy, hyp⟩ := List.mem_filter.1 hy
        exact h x (by simp) y (List.mem_cons_of_mem _ hy) hx hyp
      have hswap := foldlM_cons_swap hcomm b
      simp only [List.foldlM_cons, hl, List.foldlM_append, Option.bind_eq_bind] at hswap ⊢
      rw [← Option.bind_assoc, hswap, Option.bind_assoc]

theorem mem_of_filter_eq {κ : Type} [DecidableEq κ] {key : α → κ} {l m : List α}
    (h : ∀ k, l.filter (key · = k) = m.filter (key · = k)) {x : α} (hx : x ∈ l) : x ∈ m := by
  have hkey : x ∈ m.filter (key · = key x) := by
    rw [← h (key x)]
    exact List.mem_filter.2 ⟨hx, by simp⟩
  exact (List.mem_filter.1 hkey).1

theorem filter_others_eq {κ : Type} [DecidableEq κ] {key : α → κ} {l m : List α}
    (h : ∀ k, l.filter (key · = k) = m.filter (key · = k)) (j k : κ) :
    (l.filter fun y => !decide (key y = j)).filter (key · = k) =
      (m.filter fun y => !decide (key y = j)).filter (key · = k) := by
  simp only [List.filter_filter, Bool.and_comm (decide (key _ = k))]
  rw [← List.filter_filter, ← List.filter_filter, h k]

/-- Steps may be taken in another order when those of one key keep theirs and all others commute. -/
theorem foldlM_eq_of_filter {κ : Type} [DecidableEq κ] {key : α → κ} {step : β → α → Option β}
    {l m : List α} (h : ∀ k, l.filter (key · = k) = m.filter (key · = k))
    (hcomm : ∀ x ∈ l, ∀ y ∈ l, key x ≠ key y → StepsCommute step x y) (b : β) :
    l.foldlM step b = m.foldlM step b := by
  induction hn : l.length using Nat.strongRecOn generalizing l m b with
  | _ n ih =>
    cases l with
    | nil =>
      have hm : m = [] := by
        rw [List.eq_nil_iff_forall_not_mem]
        exact fun x hx => absurd (mem_of_filter_eq (fun k => (h k).symm) hx) List.not_mem_nil
      rw [hm]
    | cons x l =>
      -- all steps of the first key go to the front, on both sides
      have hfront : ∀ y ∈ x :: l, ∀ z ∈ x :: l, decide (key y = key x) = false →
          decide (key z = key x) = true → StepsCommute step y z := by
        intro y hy z hz hyx hzx
        refine hcomm y hy z hz fun e => ?_
        rw [e, hzx] at hyx
        cases hyx
      have hback := fun y hy z hz => hfront y (mem_of_filter_eq (fun k => (h k).symm) hy) z
        (mem_of_filter_eq (fun k => (h k).symm) hz)
      rw [foldlM_filter_append hfront, foldlM_filter_append (l := m) hback, h (key x)]
      simp only [List.foldlM_append]
      congr 1
      funext c
      have hlen : ((x :: l).filter fun y => !decide (key y = key x)).length ≤ l.length := by
        rw [List.filter_cons_of_neg (by simp)]
        exact List.length_filter_le _ l
      refine ih _ (by simp at hn; omega) (filter_others_eq h (key x)) ?_ c rfl
      intro y hy z hz
      exact hcomm y (List.mem_filter.1 hy).1 z (List.mem_filter.1 hz).1

theorem foldlM_groupBySegment {step : β → α → Option β} {l : List α}
    (hsome : ∀ x ∈ l, ((path x).segment? index).isSome)
    (h : ∀ x ∈ l, ∀ y ∈ l, (path x).segment? index ≠ (path y).segment? index → StepsCommute step x y)
    (b : β) :
    l.foldlM step b = ((groupBySegment index path l).flatMap (·.2)).foldlM step b := by
  refine foldlM_eq_of_filter (fun k => ?_) h b
  cases k with
  | none =>
    have hnone : ∀ m : List α, (∀ x ∈ m, x ∈ l) →
        m.filter (fun x => decide ((path x).segment? index = none)) = [] := by
      intro m hm
      rw [List.filter_eq_nil_iff]
      intro x hx hnone
      simpa [of_decide_eq_true hnone] using hsome x (hm x hx)
    rw [hnone l fun _ hx => hx, hnone _ fun x hx => (groupBySegment_perm hsome).mem_iff.1 hx]
  | some k =>
    exact (filter_flatMap_groupBySegment (f := id) (fun _ => rfl) rfl
      (fun _ hx => of_decide_eq_true hx) l).symm

end AdapterForge

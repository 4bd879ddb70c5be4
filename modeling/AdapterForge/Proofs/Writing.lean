import AdapterForge.Json.Basic

/-!
Writing one value at a path of an object, and what other paths see of it.
-/
namespace AdapterForge

/-- Neither path lies above the other. -/
def Apart (p q : List String) : Prop := ¬ p <+: q ∧ ¬ q <+: p

theorem Apart.symm {p q : List String} (h : Apart p q) : Apart q p := ⟨h.2, h.1⟩

theorem apart_cons {k j : String} {p q : List String} :
    Apart (k :: p) (j :: q) ↔ k ≠ j ∨ Apart p q := by
  unfold Apart
  rw [List.cons_prefix_cons, List.cons_prefix_cons]
  by_cases h : k = j
  · simp [h]
  · simp [h, Ne.symm h]

theorem Apart.ne_nil {p q : List String} (h : Apart p q) : p ≠ [] := by
  rintro rfl
  exact h.1 List.nil_prefix

def Fields.replace {α : Type} (fields : Fields α) (k : String) : Option α → Fields α
  | none => fields.erase k
  | some v => fields.set k v

theorem Fields.get?_replace {α : Type} (fields : Fields α) (k j : String) (o : Option α) :
    (fields.replace k o).get? j = if j = k then o else fields.get? j := by
  cases o <;> simp [replace]

theorem Fields.replace_comm {α : Type} (fields : Fields α) {k j : String} (h : k ≠ j)
    (o u : Option α) :
    (fields.replace k o).replace j u = (fields.replace j u).replace k o := by
  apply ext_get?
  intro i
  simp only [get?_replace]
  by_cases hi : i = k
  · subst hi
    simp [h]
  · simp [hi]

namespace Json

/-- The object that is written into: a missing one is created, and below `ext` whatever is no object
is replaced. -/
def opened? (raw : Bool) : Option Json → Option (Fields Json)
  | none | some .null => some .empty
  | some (.object fields) => some fields
  | some _ => if raw then some .empty else none

/-- Write a value at the end of some names, or remove what is there when the value is null. -/
def write? (raw : Bool) (fields : Fields Json) : List String → Json → Option (Fields Json)
  | [], _ => none
  | [k], v => some (put fields k v)
  | k :: j :: r, v => do
    let raw := raw || k = "ext"
    let inner ← opened? raw (fields.get? k)
    let inner ← write? raw inner (j :: r) v
    return fields.set k (.object inner)

/-- What is stored at the end of some names. -/
def dig? (v : Json) : List String → Option Json
  | [] => some v
  | k :: r => (v.get? k).bind (·.dig? r)

/-- The value that is read at the end of some names: a missing field is null, and null has no
fields. -/
def follow? (v : Json) : List String → Option Json
  | [] => some v
  | k :: r =>
    match v with
    | .object fields => ((fields.get? k).getD .null).follow? r
    | _ => none

theorem at?_concat (v : Json) (names : List String) (k : String) :
    v.at? (names ++ [k]) = nonNull? ((v.at? names).bind (·.get? k)) := by
  induction names generalizing v with
  | nil =>
    rw [List.nil_append, at?, at?, Option.bind_some, present?]
    cases nonNull? (v.get? k) <;> rfl
  | cons j names ih =>
    rw [List.cons_append, at?, at?]
    cases v.present? j with
    | none => rfl
    | some w => exact ih w

theorem nonNull?_bind_get? (o : Option Json) (k : String) :
    (nonNull? o).bind (·.get? k) = o.bind (·.get? k) := by
  unfold nonNull?
  split <;> rfl

theorem write?_cons (raw : Bool) (fields : Fields Json) (k : String) {p : List String} (v : Json)
    (h : p ≠ []) :
    write? raw fields (k :: p) v =
      (opened? (raw || k = "ext") (fields.get? k)).bind fun inner =>
        (write? (raw || k = "ext") inner p v).map fun inner => fields.set k (.object inner) := by
  obtain ⟨j, r, rfl⟩ := List.exists_cons_of_ne_nil h
  simp only [write?, Option.bind_eq_bind, Option.pure_def, Option.map_eq_bind]
  rfl

theorem opened?_object (raw : Bool) (fields : Fields Json) :
    opened? raw (some (.object fields)) = some fields := rfl

theorem get?_put (fields : Fields Json) (k j : String) (v : Json) :
    (put fields k v).get? j = if j = k then nonNull? (some v) else fields.get? j := by
  cases v <;> simp [put, isNull, nonNull?]

theorem get?_of_opened? {raw : Bool} {v : Option Json} {inner : Fields Json}
    (h : opened? raw v = some inner) (k : String) : inner.get? k = v.bind (·.get? k) := by
  unfold opened? at h
  split at h
  · cases h
    simp
  · cases h
    simp [get?]
  · cases h
    rfl
  · next v hnull hobject =>
    split at h
    · cases h
      cases v with
      | object fields => exact absurd rfl (hobject fields)
      | _ => simp [get?]
    · cases h

def slot? (raw : Bool) (k : String) (p : List String) (v : Json) (old : Option Json) :
    Option (Option Json) :=
  if p = [] then some (nonNull? (some v))
  else
    (opened? (raw || k = "ext") old).bind fun inner =>
      (write? (raw || k = "ext") inner p v).map fun inner => some (.object inner)

theorem write?_eq_slot (raw : Bool) (fields : Fields Json) (k : String) (p : List String)
    (v : Json) :
    write? raw fields (k :: p) v =
      (slot? raw k p v (fields.get? k)).map (fields.replace k) := by
  by_cases h : p = []
  · subst h
    cases v <;> rfl
  · rw [write?_cons raw fields k v h]
    simp only [slot?, h, if_false, Option.map_bind]
    congr 1
    funext inner
    rw [Function.comp_apply, Option.map_map]
    rfl

section

variable {raw : Bool} {fields after : Fields Json} {k : String} {p q : List String} {v w : Json}

theorem get?_write?_of_ne {j : String} (h : write? raw fields (k :: p) v = some after)
    (hj : j ≠ k) : after.get? j = fields.get? j := by
  rw [write?_eq_slot, Option.map_eq_some_iff] at h
  obtain ⟨o, -, rfl⟩ := h
  rw [Fields.get?_replace, if_neg hj]

theorem write?_comm_of_ne {j : String} (h : k ≠ j) (fields : Fields Json) :
    (write? raw fields (k :: p) v).bind (write? raw · (j :: q) w) =
      (write? raw fields (j :: q) w).bind (write? raw · (k :: p) v) := by
  simp only [write?_eq_slot, Option.bind_map, Function.comp_def, Fields.get?_replace, if_neg h,
    if_neg h.symm]
  cases slot? raw k p v (fields.get? k) with
  | none => cases slot? raw j q w (fields.get? j) <;> rfl
  | some o =>
    cases slot? raw j q w (fields.get? j) with
    | none => rfl
    | some u => exact congrArg some (fields.replace_comm h o u)

theorem write?_bind_cons (hp : p ≠ []) (hq : q ≠ []) (fields : Fields Json) :
    (write? raw fields (k :: p) v).bind (write? raw · (k :: q) w) =
      (opened? (raw || k = "ext") (fields.get? k)).bind fun inner =>
        ((write? (raw || k = "ext") inner p v).bind (write? (raw || k = "ext") · q w)).map
          fun inner => fields.set k (.object inner) := by
  rw [write?_cons raw fields k v hp]
  cases opened? (raw || k = "ext") (fields.get? k) with
  | none => rfl
  | some inner =>
    simp only [Option.bind_some, Option.bind_map, Function.comp_def, Option.map_bind]
    congr 1
    funext inner'
    rw [write?_cons _ _ _ _ hq, Fields.get?_set, if_pos rfl, opened?_object, Option.bind_some]
    simp only [Fields.set_set]

theorem write?_comm (h : Apart p q) (fields : Fields Json) :
    (write? raw fields p v).bind (write? raw · q w) =
      (write? raw fields q w).bind (write? raw · p v) := by
  induction p generalizing q raw fields with
  | nil => exact absurd rfl h.ne_nil
  | cons k p ih =>
    obtain ⟨j, q, rfl⟩ := List.exists_cons_of_ne_nil h.symm.ne_nil
    by_cases hk : k = j
    · subst hk
      have hpq : Apart p q := (apart_cons.1 h).resolve_left (by simp)
      rw [write?_bind_cons hpq.ne_nil hpq.symm.ne_nil, write?_bind_cons hpq.symm.ne_nil hpq.ne_nil]
      congr 1
      funext inner
      rw [ih hpq inner]
    · exact write?_comm_of_ne hk fields

theorem write?_absorb (p : List String) (fields : Fields Json) :
    (write? raw fields p v).bind (write? raw · p w) = write? raw fields p w := by
  induction p generalizing raw fields with
  | nil => rfl
  | cons k p ih =>
    by_cases hp : p = []
    · subst hp
      apply congrArg some
      apply Fields.ext_get?
      intro j
      simp only [get?_put]
      by_cases hj : j = k <;> simp [hj]
    · rw [write?_bind_cons hp hp, write?_cons _ _ _ _ hp]
      congr 1
      funext inner
      rw [ih inner]

theorem write?_eq_some (hp : p ≠ []) (h : write? raw fields (k :: p) v = some after) :
    ∃ inner inner', opened? (raw || k = "ext") (fields.get? k) = some inner ∧
      write? (raw || k = "ext") inner p v = some inner' ∧ after = fields.set k (.object inner') := by
  rw [write?_cons _ _ _ _ hp] at h
  obtain ⟨inner, hi, h⟩ := Option.bind_eq_some_iff.1 h
  obtain ⟨inner', hw, rfl⟩ := Option.map_eq_some_iff.1 h
  exact ⟨inner, inner', hi, hw, rfl⟩

theorem dig?_cons (fields : Fields Json) (k : String) (p : List String) :
    (Json.object fields).dig? (k :: p) = (fields.get? k).bind (·.dig? p) := rfl

theorem dig?_set_of_ne {j : String} (h : k ≠ j) :
    (Json.object (fields.set j v)).dig? (k :: p) = (Json.object fields).dig? (k :: p) := by
  rw [dig?_cons, dig?_cons, Fields.get?_set, if_neg h]

theorem dig?_of_opened? {v : Option Json} {inner : Fields Json} (h : opened? raw v = some inner)
    (hp : p ≠ []) : (Json.object inner).dig? p = v.bind (·.dig? p) := by
  obtain ⟨k, p, rfl⟩ := List.exists_cons_of_ne_nil hp
  rw [dig?_cons, get?_of_opened? h, Option.bind_assoc]
  rfl

theorem dig?_write? (h : write? raw fields p v = some after) (hpq : Apart q p) :
    (Json.object after).dig? q = (Json.object fields).dig? q := by
  induction p generalizing q raw fields after with
  | nil => exact absurd rfl hpq.symm.ne_nil
  | cons k p ih =>
    obtain ⟨j, q, rfl⟩ := List.exists_cons_of_ne_nil hpq.ne_nil
    by_cases hj : j = k
    · subst hj
      have hqp : Apart q p := (apart_cons.1 hpq).resolve_left (by simp)
      obtain ⟨inner, inner', hi, hw, rfl⟩ := write?_eq_some hqp.symm.ne_nil h
      rw [dig?_cons, dig?_cons, Fields.get?_set, if_pos rfl, Option.bind_some, ih hw hqp,
        dig?_of_opened? hi hqp.ne_nil]
    · rw [dig?_cons, dig?_cons, get?_write?_of_ne h hj]

/-- On its way a write leaves objects. -/
theorem dig?_write?_of_above (h : write? raw fields p v = some after) (hq : q <+: p) (hne : q ≠ p) :
    ∃ inner, (Json.object after).dig? q = some (.object inner) := by
  induction p generalizing q raw fields after with
  | nil => cases h
  | cons k p ih =>
    cases q with
    | nil => exact ⟨after, rfl⟩
    | cons j q =>
      obtain ⟨rfl, hqp⟩ := List.cons_prefix_cons.1 hq
      have hp : p ≠ [] := by
        rintro rfl
        rw [List.prefix_nil.1 hqp] at hne
        exact hne rfl
      obtain ⟨inner, inner', -, hw, rfl⟩ := write?_eq_some hp h
      rw [dig?_cons, Fields.get?_set, if_pos rfl]
      exact ih hw hqp fun e => hne (by rw [e])

/-- Whatever a model object can be rebuilt from: nothing, null or an object. -/
def Opens (o : Option Json) : Prop := ∀ w, o = some w → w = .null ∨ ∃ inner, w = .object inner

theorem exists_opened? {o : Option Json} (h : raw = true ∨ Opens o) :
    ∃ inner, opened? raw o = some inner := by
  cases o with
  | none => exact ⟨_, rfl⟩
  | some w =>
    rcases h with rfl | h
    · cases w <;> exact ⟨_, rfl⟩
    · rcases h w rfl with rfl | ⟨inner, rfl⟩ <;> exact ⟨_, rfl⟩

/-- No plain value stands in the way of a write, except below `ext`. -/
def OpensAbove (raw : Bool) (fields : Fields Json) (p : List String) : Prop :=
  ∀ q, q ≠ [] → q <+: p → q ≠ p → raw = true ∨ "ext" ∈ q ∨ Opens ((Json.object fields).dig? q)

theorem OpensAbove.of_opened? (h : OpensAbove raw fields (k :: p)) {inner : Fields Json}
    (hinner : opened? (raw || k = "ext") (fields.get? k) = some inner) :
    OpensAbove (raw || k = "ext") inner p := by
  intro q hq hqp hne
  rw [dig?_of_opened? hinner hq, ← dig?_cons]
  rcases h (k :: q) (by simp) (List.cons_prefix_cons.2 ⟨rfl, hqp⟩) (by simpa using hne) with
    hraw | hext | hopens
  · exact .inl (by simp [hraw])
  · rcases List.mem_cons.1 hext with rfl | hext
    · exact .inl (by simp)
    · exact .inr (.inl hext)
  · exact .inr (.inr hopens)

theorem OpensAbove.exists_write? (h : OpensAbove raw fields p) (hp : p ≠ []) (v : Json) :
    ∃ after, write? raw fields p v = some after := by
  induction p generalizing raw fields with
  | nil => exact absurd rfl hp
  | cons k p ih =>
    by_cases hnil : p = []
    · subst hnil
      exact ⟨_, rfl⟩
    · have hk : (raw || decide (k = "ext")) = true ∨ Opens (fields.get? k) := by
        rcases h [k] (by simp) ⟨p, rfl⟩ (by simpa using Ne.symm hnil) with hraw | hext | hopens
        · exact .inl (by simp [hraw])
        · exact .inl (by simp [List.mem_singleton.1 hext])
        · rw [dig?_cons] at hopens
          exact .inr (by simpa [dig?] using hopens)
      obtain ⟨inner, hinner⟩ := exists_opened? hk
      obtain ⟨after, hafter⟩ := ih (h.of_opened? hinner) hnil
      refine ⟨fields.set k (.object after), ?_⟩
      rw [write?_cons _ _ _ _ hnil, hinner, Option.bind_some, hafter, Option.map_some]

theorem OpensAbove.write? (h : OpensAbove raw fields q)
    (hw : Json.write? raw fields p v = some after) (hpq : p <+: q → p = q) : OpensAbove raw after q := by
  intro t ht htq hne
  by_cases htp : t <+: p
  · have hstrict : t ≠ p := by
      rintro rfl
      exact hne (hpq htq)
    obtain ⟨inner, hinner⟩ := dig?_write?_of_above hw htp hstrict
    refine .inr (.inr fun w hw => .inr ⟨inner, ?_⟩)
    rw [hinner] at hw
    exact (Option.some.inj hw).symm
  · have hpt : ¬ p <+: t := by
      intro hpt
      obtain rfl := hpq (hpt.trans htq)
      exact hne (htq.eq_of_length_le hpt.length_le)
    rw [dig?_write? hw ⟨htp, hpt⟩]
    exact h t ht htq hne

theorem dig?_write?_self (h : write? raw fields p v = some after) :
    (Json.object after).dig? p = nonNull? (some v) := by
  induction p generalizing raw fields after with
  | nil => cases h
  | cons k p ih =>
    by_cases hp : p = []
    · subst hp
      cases h
      rw [dig?_cons, get?_put, if_pos rfl]
      cases v <;> rfl
    · obtain ⟨inner, inner', -, hw, rfl⟩ := write?_eq_some hp h
      rw [dig?_cons, Fields.get?_set, if_pos rfl, Option.bind_some, ih hw]

example :
    (write? false (.ofList [("ext", .string "x")]) ["ext", "data"] (.bool true)).map Json.object =
      some (.object (.ofList [("ext", .object (.ofList [("data", .bool true)]))])) := by
  decide +kernel

theorem follow?_cons (fields : Fields Json) (k : String) (p : List String) :
    (Json.object fields).follow? (k :: p) = ((fields.get? k).getD .null).follow? p := rfl

theorem follow?_eq_some {u : Json} (hp : p ≠ []) (h : u.follow? p = some v) :
    ∃ fields, u = .object fields := by
  obtain ⟨k, p, rfl⟩ := List.exists_cons_of_ne_nil hp
  cases u with
  | object fields => exact ⟨fields, rfl⟩
  | _ => cases h

theorem follow?_write? (h : write? raw fields p v = some after) (hpq : Apart q p)
    (hq : (Json.object fields).follow? q = some w) : (Json.object after).follow? q = some w := by
  induction p generalizing q raw fields after with
  | nil => exact absurd rfl hpq.symm.ne_nil
  | cons k p ih =>
    obtain ⟨j, q, rfl⟩ := List.exists_cons_of_ne_nil hpq.ne_nil
    by_cases hj : j = k
    · subst hj
      have hqp : Apart q p := (apart_cons.1 hpq).resolve_left (by simp)
      obtain ⟨inner, inner', hi, hw, rfl⟩ := write?_eq_some hqp.symm.ne_nil h
      obtain ⟨given, hgiven⟩ := follow?_eq_some hqp.ne_nil hq
      have hget : fields.get? j = some (.object given) := by
        cases hf : fields.get? j <;> simp_all
      rw [hget, opened?_object] at hi
      obtain rfl : given = inner := by simpa using hi
      rw [follow?_cons, hget] at hq
      rw [follow?_cons, Fields.get?_set, if_pos rfl]
      exact ih hw hqp hq
    · rw [follow?_cons] at hq ⊢
      rw [get?_write?_of_ne h hj]
      exact hq

end

end Json

end AdapterForge

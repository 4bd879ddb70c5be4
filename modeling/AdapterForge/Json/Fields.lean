import AdapterForge.KeySet

/-!
Finite maps from names. A map is determined by what it holds under each name
(`Fields.ext_get?`), so the order in which names were set never shows.
-/
namespace AdapterForge

structure Fields (α : Type) where
  keys : KeySet
  value : {k // k ∈ keys} → α

namespace Fields

variable {α : Type}

def empty : Fields α := ⟨.empty, fun k => absurd k.2 (KeySet.not_mem_empty k.1)⟩

instance : Inhabited (Fields α) := ⟨empty⟩

def get? (f : Fields α) (k : String) : Option α :=
  if h : k ∈ f.keys then some (f.value ⟨k, h⟩) else none

def contains (f : Fields α) (k : String) : Bool := decide (k ∈ f.keys)

def set (f : Fields α) (k : String) (v : α) : Fields α where
  keys := f.keys.insert k
  value n := if h : n.1 = k then v else f.value ⟨n.1, (KeySet.mem_insert.1 n.2).resolve_left h⟩

def erase (f : Fields α) (k : String) : Fields α where
  keys := f.keys.erase k
  value n := f.value ⟨n.1, (KeySet.mem_erase.1 n.2).2⟩

def entries (f : Fields α) : List (String × α) :=
  f.keys.names.attach.map fun k => (k.1, f.value ⟨k.1, k.2⟩)

/-- Of a repeated name the last value counts. -/
def ofList (l : List (String × α)) : Fields α :=
  l.foldl (fun f e => f.set e.1 e.2) empty

@[simp] theorem get?_empty (k : String) : (empty : Fields α).get? k = none := by
  simp [get?, empty]

@[simp] theorem get?_set (f : Fields α) (k j : String) (v : α) :
    (f.set k v).get? j = if j = k then some v else f.get? j := by
  by_cases hj : j = k
  · subst hj; simp [get?, set]
  · simp [get?, set, hj]

@[simp] theorem get?_erase (f : Fields α) (k j : String) :
    (f.erase k).get? j = if j = k then none else f.get? j := by
  by_cases hj : j = k
  · subst hj; simp [get?, erase]
  · by_cases hm : j ∈ f.keys <;> simp [get?, erase, hj, hm]

theorem get?_isSome_iff {f : Fields α} {k : String} : (f.get? k).isSome ↔ k ∈ f.keys := by
  simp [get?]

theorem contains_eq (f : Fields α) (k : String) : f.contains k = (f.get? k).isSome := by
  by_cases h : k ∈ f.keys <;> simp [contains, get?, h]

theorem ext_get? {f g : Fields α} (h : ∀ k, f.get? k = g.get? k) : f = g := by
  obtain ⟨ks, v⟩ := f
  obtain ⟨ls, w⟩ := g
  have hk : ks = ls := KeySet.ext_mem fun k => by
    rw [← get?_isSome_iff (f := ⟨ks, v⟩), ← get?_isSome_iff (f := ⟨ls, w⟩), h]
  subst hk
  congr 1
  funext ⟨k, hm⟩
  have := h k
  simpa [get?, hm] using this

theorem set_set (f : Fields α) (k : String) (v w : α) : (f.set k v).set k w = f.set k w :=
  ext_get? fun j => by by_cases hj : j = k <;> simp [hj]

theorem set_comm (f : Fields α) {k j : String} (h : k ≠ j) (v w : α) :
    (f.set k v).set j w = (f.set j w).set k v :=
  ext_get? fun i => by
    by_cases hi : i = k
    · subst hi; simp [h]
    · simp [hi]

theorem set_of_get? {f : Fields α} {k : String} {v : α} (h : f.get? k = some v) :
    f.set k v = f :=
  ext_get? fun j => by
    by_cases hj : j = k
    · subst hj; simp [h]
    · simp [hj]

end Fields

end AdapterForge

import AdapterForge.Proofs.FixtureRun
import AdapterForge.Proofs.Setters

/-!
Which setters there are: the names on the way to each field that is written or sampled, down to the
first `ext`. The methods and the expected request call the same ones.
-/
namespace AdapterForge

/-- Those of some nested names that are fields of model objects. -/
def modelFields : List String → List String
  | [] => []
  | k :: r => k :: if k = "ext" then [] else modelFields r

section

variable {names l : List String} {k : String}

theorem mem_modelFields_cons {f : String} {r : List String} :
    k ∈ modelFields (f :: r) ↔ k = f ∨ f ≠ "ext" ∧ k ∈ modelFields r := by
  rw [modelFields, List.mem_cons]
  by_cases hf : f = "ext" <;> simp [hf]

theorem mem_modelFields_of_prefix (h : names ++ [k] <+: l) (hext : "ext" ∉ names) :
    k ∈ modelFields l := by
  induction names generalizing l with
  | nil =>
    obtain ⟨r, rfl⟩ := h
    exact mem_modelFields_cons.2 (.inl rfl)
  | cons f names ih =>
    obtain ⟨r, rfl⟩ := h
    rw [List.mem_cons, not_or] at hext
    exact mem_modelFields_cons.2 (.inr ⟨Ne.symm hext.1, ih ⟨r, rfl⟩ hext.2⟩)

theorem mem_modelFields_mono (h : names <+: l) (hk : k ∈ modelFields names) :
    k ∈ modelFields l := by
  induction names generalizing l with
  | nil => cases hk
  | cons f names ih =>
    obtain ⟨r, rfl⟩ := h
    rw [List.cons_append, mem_modelFields_cons]
    exact (mem_modelFields_cons.1 hk).imp_right fun hk => ⟨hk.1, ih ⟨r, rfl⟩ hk.2⟩

theorem mem_of_mem_modelFields (h : k ∈ modelFields l) : k ∈ l := by
  induction l with
  | nil => cases h
  | cons f l ih =>
    rcases mem_modelFields_cons.1 h with rfl | ⟨-, h⟩
    · exact List.mem_cons_self
    · exact List.mem_cons_of_mem _ (ih h)

end

/-- A field of a model object on the way to one of some paths, behind their first `index` names. -/
def SetsFrom {α : Type} (index : Nat) (path : α → FieldPath) (l : List α) (k : String) : Prop :=
  ∃ x ∈ l, k ∈ modelFields ((path x).segments.drop index)

section

variable {α : Type} {index : Nat} {path : α → FieldPath} {l : List α} {k : String}

theorem setsFrom_iff_of_groups (h : ∀ x ∈ l, index < (path x).depth) :
    SetsFrom index path l k ↔ ∃ g ∈ groupBySegment index path l,
      k = g.1 ∨ g.1 ≠ "ext" ∧ SetsFrom (index + 1) path g.2 k := by
  constructor
  · rintro ⟨x, hx, hk⟩
    obtain ⟨f, hf⟩ := FieldPath.exists_segment? (h x hx)
    obtain ⟨g, hg, rfl⟩ := exists_group hx hf
    rw [FieldPath.drop_segments hf, mem_modelFields_cons] at hk
    exact ⟨g, hg, hk.imp_right fun hk => ⟨hk.1, x, (mem_group_iff hg).2 ⟨hx, hf⟩, hk.2⟩⟩
  · rintro ⟨g, hg, hk⟩
    rcases hk with rfl | ⟨hne, x, hx, hk⟩
    · obtain ⟨x, hx⟩ := List.exists_mem_of_ne_nil _ (group_ne_nil hg)
      obtain ⟨hxl, hf⟩ := (mem_group_iff hg).1 hx
      refine ⟨x, hxl, ?_⟩
      rw [FieldPath.drop_segments hf]
      exact mem_modelFields_cons.2 (.inl rfl)
    · obtain ⟨hxl, hf⟩ := (mem_group_iff hg).1 hx
      refine ⟨x, hxl, ?_⟩
      rw [FieldPath.drop_segments hf]
      exact mem_modelFields_cons.2 (.inr ⟨hne, hk⟩)

theorem not_setsFrom_of_depth (h : ∀ x ∈ l, (path x).depth ≤ index) : ¬ SetsFrom index path l k := by
  rintro ⟨x, hx, hk⟩
  rw [List.drop_of_length_le (h x hx)] at hk
  cases hk

end

theorem exists_mem_iff_of_forall₂ {α β : Type} {P : α → Prop} {Q : β → Prop} {l : List α}
    {r : List β} (h : List.Forall₂ (fun a b => P a ↔ Q b) l r) :
    (∃ a ∈ l, P a) ↔ ∃ b ∈ r, Q b := by
  induction h with
  | nil => simp
  | cons hab _ ih => simp only [List.mem_cons, exists_eq_or_imp, hab, ih]

namespace Java

variable {root : ExpectedRoot} {names : List String} {os : List Override} {b : Builder} {k : String}

theorem isJson_kindAfter (root : ExpectedRoot) (names : List String) :
    (kindAfter root (stepsTo names)).isJson = throughExt names := by
  rcases List.eq_nil_or_concat names with rfl | ⟨r, j, rfl⟩
  · cases root <;> rfl
  · rw [List.concat_eq_append, kindAfter_stepsTo, isJson_ofField, throughExt_append]

theorem isJsonBuilder_eq (b : Builder) : isJsonBuilder b = throughExt b.names := by
  cases b with
  | root => rfl
  | nested path =>
    rw [Bool.eq_iff_iff, throughExt_iff]
    exact ObjectKind.isJson_ofPath

theorem fieldSetter_eq (root : ExpectedRoot) (hb : b.names = names) (k : String) :
    fieldSetter (kindAfter root (stepsTo names)) k =
      (if isJsonBuilder b then none else some k).toList := by
  rw [fieldSetter, isJson_kindAfter, isJsonBuilder_eq, hb]
  cases throughExt names <;> rfl

theorem setters_cons (s : Statement) (l : List Statement) :
    setters (s :: l) = (setter? s).toList ++ setters l := by
  rw [setters, List.filterMap_cons]
  cases setter? s <;> rfl

theorem setters_append (l m : List Statement) : setters (l ++ m) = setters l ++ setters m :=
  List.filterMap_append

/-- An object is set after the fields inside it, or named before them. -/
theorem setters_statementsOf (h : PlacedIn root names os) (hb : b.names = names) :
    (setters (statementsOf b os)).Perm (overrideSetters (kindAfter root (stepsTo names)) os) := by
  induction h generalizing b with
  | nil => exact .refl _
  | @value names f x r _ ih =>
    rw [statementsOf, setters_cons, overrideSetters, fieldSetter_eq root hb]
    exact .append_left _ (ih hb)
  | @object names f inner r _ _ ihi ihr =>
    subst hb
    have hcommit : setter? (.commit (b.child f)) = if isJsonBuilder b then none else some f := by
      rw [setter?, b.parentOf_child, b.leaf_child]
    rw [statementsOf_placed, setters_cons, setters_append, setters_cons, hcommit, overrideSetters,
      objectSetters, fieldSetter_eq root rfl]
    change List.Perm (setters (statementsOf (.nested (b.child f)) inner) ++ _) _
    refine (List.perm_append_comm_assoc _ _ _).trans (.append_left _ ?_)
    exact .append (ihi (b.names_child f)) (ihr rfl)

theorem mem_overrideSetters_flatten {kind : ObjectKind} {parts : List (List Override)} :
    k ∈ overrideSetters kind parts.flatten ↔ ∃ part ∈ parts, k ∈ overrideSetters kind part := by
  have happend : ∀ l m : List Override,
      overrideSetters kind (l ++ m) = overrideSetters kind l ++ overrideSetters kind m := by
    intro l m
    induction l with
    | nil => rfl
    | cons o l ih => cases o <;> simp only [List.cons_append, overrideSetters, ih, List.append_assoc]
  induction parts with
  | nil => simp [overrideSetters]
  | cons part parts ih =>
    simp only [List.flatten_cons, happend, List.mem_append, ih, List.mem_cons, exists_eq_or_imp]

theorem mem_overrideSetters_values {kind : ObjectKind} {f : String} {values : List Operand}
    (hne : values ≠ []) :
    k ∈ overrideSetters kind (values.map (.value f)) ↔ k ∈ fieldSetter kind f := by
  induction values with
  | nil => exact absurd rfl hne
  | cons x values ih =>
    rw [List.map_cons, overrideSetters, List.mem_append]
    cases values with
    | nil => simp [overrideSetters]
    | cons y values => rw [ih (List.cons_ne_nil _ _), or_self]

/-- Behind a field of a model object come its own fields, unless it is `ext`. -/
theorem ext_not_mem_append {f : String} {P : Prop} :
    ("ext" ∉ names ∧ k = f ∨ "ext" ∉ names ++ [f] ∧ P) ↔
      "ext" ∉ names ∧ (k = f ∨ f ≠ "ext" ∧ P) := by
  rw [List.mem_append, List.mem_singleton, not_or]
  tauto

theorem mem_overrideSetters_group {levels index : Nat} {g : String × List Assignment}
    {part : List Override} (hne : g.2 ≠ []) (h : GroupMade levels root names index g part)
    (hinner : ∀ inner, overridesOf levels root (stepsTo (names ++ [g.1])) (index + 1) g.2 = .ok inner →
      (∀ a ∈ g.2, a.target.depth ≠ index + 1) →
      (k ∈ overrideSetters (kindAfter root (stepsTo (names ++ [g.1]))) inner ↔
        "ext" ∉ names ++ [g.1] ∧ SetsFrom (index + 1) (·.target) g.2 k)) :
    k ∈ overrideSetters (kindAfter root (stepsTo names)) part ↔
      "ext" ∉ names ∧ (k = g.1 ∨ g.1 ≠ "ext" ∧ SetsFrom (index + 1) (·.target) g.2 k) := by
  have hfield : k ∈ fieldSetter (kindAfter root (stepsTo names)) g.1 ↔ "ext" ∉ names ∧ k = g.1 := by
    rw [mem_fieldSetter, isJson_kindAfter, ← Bool.not_eq_true, throughExt_iff]
  cases h with
  | leaves hleaf hvalues =>
    have hlength := List.Forall₂.length_eq hvalues
    have hvalues := List.length_pos_iff.1 (hlength ▸ List.length_pos_iff.2 hne)
    have hnone := not_setsFrom_of_depth (k := k) fun a ha => Nat.le_of_eq (hleaf a ha)
    rw [mem_overrideSetters_values hvalues, hfield]
    simp only [hnone, and_false, or_false]
  | nested hn h =>
    rw [overrideSetters, objectSetters, overrideSetters, List.append_nil, List.mem_append, hfield,
      hinner _ h hn, ext_not_mem_append]

theorem mem_overrideSetters_iff {levels index : Nat} {l : List Assignment}
    (h : overridesOf levels root (stepsTo names) index l = .ok os)
    (hdepth : EndsWithin levels index (·.target) l) :
    k ∈ overrideSetters (kindAfter root (stepsTo names)) os ↔
      "ext" ∉ names ∧ SetsFrom index (·.target) l k := by
  induction levels generalizing index names l os with
  | zero =>
    cases h
    refine iff_of_false List.not_mem_nil fun hset => ?_
    obtain ⟨a, ha, -⟩ := hset.2
    exact absurd (hdepth.eq_nil ▸ ha) List.not_mem_nil
  | succ levels ih =>
    obtain ⟨parts, hparts, rfl⟩ := overridesOf_eq_ok h
    have hall := Outcome.forall₂_imp_of_mem hparts fun g hg part h => by
      refine (mem_overrideSetters_group (k := k) (group_ne_nil hg) h fun inner hinner hn => ?_).symm
      exact ih hinner (hdepth.group hg hn)
    rw [mem_overrideSetters_flatten, ← exists_mem_iff_of_forall₂ hall,
      setsFrom_iff_of_groups fun a ha => (hdepth a ha).1]
    simp only [exists_and_left, and_left_comm]

end Java

namespace Plan

open Java

variable {scope : Scope} {l : List Assignment} {p : Plan} {root : ExpectedRoot}
  {os : List Override} {k : String}

/-- What is rebuilt for a plan is set field by field down to what is written. -/
theorem mem_overrideSetters (hos : p.overrides root = .ok os) :
    k ∈ overrideSetters (kindAfter root []) os ↔
      ∃ a ∈ p.assignments, k ∈ modelFields a.target.segments := by
  obtain ⟨parts, hparts, rfl⟩ := overrides_eq_ok hos
  have hall := hparts.imp fun g part hpart => by
    exact (mem_overrideSetters_iff (k := k) hpart (endsWithin_maxDepth _ g.2)).symm
  have hroot : kindAfter root (stepsTo []) = kindAfter root [] := rfl
  rw [hroot] at hall
  rw [mem_overrideSetters_flatten, ← exists_mem_iff_of_forall₂ hall]
  simp only [List.not_mem_nil, not_false_eq_true, true_and, SetsFrom, List.drop_zero,
    ← p.flatMap_keyed, List.mem_flatMap]
  constructor
  · rintro ⟨g, hg, a, ha, hk⟩
    exact ⟨a, ⟨g, hg, ha⟩, hk⟩
  · rintro ⟨a, ⟨g, hg, ha⟩, hk⟩
    exact ⟨g, hg, a, ha, hk⟩

theorem mem_setters (hos : p.overrides root = .ok os) :
    k ∈ setters (p.located ++ statementsOf .root os) ↔
      ∃ a ∈ p.assignments, k ∈ modelFields a.target.segments := by
  have hlocated : setters p.located = [] := by
    rw [located]
    split <;> rfl
  have hperm := setters_statementsOf (b := .root) (overrides_placed hos) rfl
  rw [setters_append, hlocated, List.nil_append, hperm.mem_iff]
  exact mem_overrideSetters hos

end Plan

theorem Java.mem_objectSetters_expectationOf {imp request : Plan} {first rest : List Override}
    (hfirst : imp.overrides .firstImp = .ok first) (hrest : request.overrides .request = .ok rest)
    {k : String} :
    k ∈ objectSetters (expectationOf imp first rest) ↔ imp.isEmpty = false ∧ k = "imp" ∨
      ∃ a ∈ imp.assignments ++ request.assignments, k ∈ modelFields a.target.segments := by
  have hone : kindAfter .request [] = kindAfter .request (stepsTo []) := rfl
  have happend : k ∈ objectSetters (expectationOf imp first rest) ↔
      (imp.isEmpty = false ∧ k = "imp" ∨ k ∈ overrideSetters (kindAfter .firstImp []) first) ∨
        k ∈ overrideSetters (kindAfter .request []) rest := by
    unfold expectationOf
    cases he : imp.isEmpty with
    | true =>
      rw [Plan.overrides_of_isEmpty he] at hfirst
      cases hfirst
      simp [objectSetters, overrideSetters]
    | false => simp [objectSetters, overrideSetters, or_assoc]
  rw [happend, Plan.mem_overrideSetters hfirst, Plan.mem_overrideSetters hrest, or_assoc]
  simp only [List.mem_append, or_and_right, exists_or]

section

variable {levels index : Nat} {names : List String} {l : List SampleField} {k : String}

theorem mem_field_iff (names : List String) (f : String) :
    k ∈ (if ObjectKind.along none names == some .json then [] else [f]) ↔ "ext" ∉ names ∧ k = f := by
  rw [← throughExt_iff, throughExt]
  by_cases hjson : ObjectKind.along none names = some .json <;> simp [hjson]

theorem not_setsFrom_of_leaf
    (hapart : ∀ s ∈ l, ∀ t ∈ l, s.path.segments <+: t.path.segments → s.path = t.path)
    (htake : ∀ s ∈ l, s.path.segments.take (index + 1) = names) {leaf : SampleField} (hleaf : leaf ∈ l)
    (hlast : leaf.path.depth = index + 1) : ¬ SetsFrom (index + 1) (·.path) l k := by
  refine not_setsFrom_of_depth fun s hs => Nat.le_of_eq ?_
  have habove := FieldPath.above_of_take_eq ((htake leaf hleaf).trans (htake s hs).symm) hlast
  rw [← hapart leaf hleaf s hs habove, hlast]

theorem Java.mem_sampleSetters_iff
    (hapart : ∀ s ∈ l, ∀ t ∈ l, s.path.segments <+: t.path.segments → s.path = t.path)
    (hnames : ∀ s ∈ l, s.path.segments.take index = names)
    (hdepth : EndsWithin levels index (·.path) l) :
    k ∈ sampleSetters levels (ObjectKind.along none names) index l ↔
      "ext" ∉ names ∧ SetsFrom index (·.path) l k := by
  induction levels generalizing index names l with
  | zero =>
    refine iff_of_false List.not_mem_nil fun hset => ?_
    obtain ⟨s, hs, -⟩ := hset.2
    exact absurd (hdepth.eq_nil ▸ hs) List.not_mem_nil
  | succ levels ih =>
    have hinner : ∀ g ∈ groupBySegment index (·.path) l,
        (k ∈ if (g.2.find? (·.path.depth = index + 1)).isSome then []
          else sampleSetters levels (some (.ofField g.1 (ObjectKind.along none names)))
            (index + 1) g.2) ↔
          "ext" ∉ names ++ [g.1] ∧ SetsFrom (index + 1) (·.path) g.2 k := by
      intro g hg
      have hitems : ∀ s ∈ g.2, s ∈ l := fun s hs => ((mem_group_iff hg).1 hs).1
      have htake := fun s => take_succ_of_mem_group hnames hg (x := s)
      have hinside := fun s hs t ht => hapart s (hitems s hs) t (hitems t ht)
      cases hfind : g.2.find? (·.path.depth = index + 1) with
      | some leaf =>
        -- the calls stop at a leaf, and nothing lies below it
        have hlast : leaf.path.depth = index + 1 := by simpa using List.find?_some hfind
        have hnone : ¬ SetsFrom (index + 1) (·.path) g.2 k :=
          not_setsFrom_of_leaf hinside htake (List.mem_of_find?_eq_some hfind) hlast
        simp only [hnone, Option.isSome_some, if_true, List.not_mem_nil, and_false]
      | none =>
        rw [Option.isSome_none, if_neg Bool.false_ne_true, ← ObjectKind.along_append]
        exact ih hinside htake (hdepth.group_of_find? hg hfind)
    have hgroup : ∀ g ∈ groupBySegment index (·.path) l, _ := fun g hg =>
      List.mem_append.trans ((or_congr (mem_field_iff names g.1) (hinner g hg)).trans ext_not_mem_append)
    rw [setsFrom_iff_of_groups fun s hs => (hdepth s hs).1, sampleSetters, List.mem_flatMap]
    constructor
    · rintro ⟨g, hg, hk⟩
      obtain ⟨hext, hset⟩ := (hgroup g hg).1 hk
      exact ⟨hext, g, hg, hset⟩
    · rintro ⟨hext, g, hg, hset⟩
      exact ⟨g, hg, (hgroup g hg).2 ⟨hext, hset⟩⟩

/-- What is sampled is set field by field, like what is written. -/
theorem Java.mem_customizerSetters {first : Nat} {paths : List FieldPath} :
    k ∈ customizerSetters (sampleFields first paths) ↔
      ∃ p ∈ paths, k ∈ modelFields p.segments := by
  have hapart : ∀ s ∈ sampleFields first paths, ∀ t ∈ sampleFields first paths,
      s.path.segments <+: t.path.segments → s.path = t.path := by
    intro s hs t ht
    exact (mem_innermost_iff.1 (path_mem_innermost hs)).2 _
      (mem_innermost_iff.1 (path_mem_innermost ht)).1
  have hset : k ∈ customizerSetters (sampleFields first paths) ↔
      "ext" ∉ [] ∧ SetsFrom 0 (·.path) (sampleFields first paths) k :=
    mem_sampleSetters_iff hapart (fun _ _ => rfl) (endsWithin_maxDepth _ _)
  rw [hset]
  simp only [List.not_mem_nil, not_false_eq_true, true_and, SetsFrom, List.drop_zero]
  constructor
  · rintro ⟨s, hs, hk⟩
    exact ⟨s.path, (mem_innermost_iff.1 (path_mem_innermost hs)).1, hk⟩
  · rintro ⟨p, hp, hk⟩
    obtain ⟨q, hq, hpq⟩ := exists_innermost hp
    obtain ⟨s, hs, rfl⟩ := exists_sample first hq
    exact ⟨s, hs, mem_modelFields_mono hpq hk⟩

end

end AdapterForge

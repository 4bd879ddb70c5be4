import AdapterForge.Proofs.LegalNames
import AdapterForge.Proofs.SynthesisAgreement

/-!
Names in expectations. Where the targets and sources of a plan consist of names, so does all that its
expectation is made of.
-/
namespace AdapterForge

structure Assignment.Named (a : Assignment) : Prop where
  target : ∀ k ∈ a.target.segments, IsName k
  source : ∀ x, a.value = .copy x → ∀ k ∈ x.path.segments, IsName k

theorem Adapter.named_of_ofDescription {d : Description} {a : Adapter} (h : ofDescription d = .ok a) :
    ∀ b ∈ a.imp ++ a.request, b.Named :=
  fun _ hb => ⟨(names_of_ofDescription h hb).1, (names_of_ofDescription h hb).2⟩

def Operand.Named : Operand → Prop
  | .literal _ => True
  | .field x => ∀ k ∈ x.path.segments, IsName k

theorem Assignment.Named.operand {a : Assignment} {x : Operand} (h : a.Named)
    (hx : a.operand = .ok x) : x.Named := by
  unfold Assignment.operand at hx
  split at hx
  · next s hs =>
    obtain rfl := Except.ok.inj hx
    exact h.source s hs
  all_goals cases hx
  all_goals trivial

def ObjectKind.Named : ObjectKind → Prop
  | .model name => IsName name
  | .json => True

theorem ObjectKind.named_ofField {k : String} (h : IsName k) (parent : Option ObjectKind) :
    (ofField k parent).Named := by
  unfold ofField
  split
  · trivial
  · exact h.className

theorem ObjectKind.named_ofPath {p : FieldPath} (h : ∀ k ∈ p.segments, IsName k) : (ofPath p).Named := by
  obtain ⟨names, k, hp⟩ := (List.eq_nil_or_concat p.segments).resolve_left p.segments_ne_nil
  rw [List.concat_eq_append] at hp
  rw [ofPath, hp, along_append]
  exact named_ofField (h k (by simp [hp])) _

structure Step.Named (s : Step) : Prop where
  field : IsName s.field
  kind : s.kind.Named

theorem named_stepsFrom {parent : Option ObjectKind} {names : List String}
    (h : ∀ k ∈ names, IsName k) : ∀ s ∈ stepsFrom parent names, s.Named := by
  induction names generalizing parent with
  | nil => exact fun _ hs => absurd hs List.not_mem_nil
  | cons k names ih =>
    obtain ⟨hk, hnames⟩ := List.forall_mem_cons.1 h
    rw [stepsFrom, List.forall_mem_cons]
    exact ⟨⟨hk, ObjectKind.named_ofField hk parent⟩, ih hnames⟩

mutual

/-- All fields that are replaced and all fields that are read have names. -/
def ExpectedObject.Named : ExpectedObject → Prop
  | .mk _ _ overrides => AllNamed overrides

def AllNamed : List Override → Prop
  | [] => True
  | .value field value :: r => IsName field ∧ value.Named ∧ AllNamed r
  | .object field o :: r => IsName field ∧ o.Named ∧ AllNamed r
  | .singleImp o :: r => o.Named ∧ AllNamed r

end

theorem AllNamed.append {l m : List Override} (hl : AllNamed l) (hm : AllNamed m) :
    AllNamed (l ++ m) := by
  induction l with
  | nil => exact hm
  | cons o l ih =>
    cases o with
    | value k x =>
      obtain ⟨hk, hx, hl⟩ := hl
      exact ⟨hk, hx, ih hl⟩
    | object k o =>
      obtain ⟨hk, ho, hl⟩ := hl
      exact ⟨hk, ho, ih hl⟩
    | singleImp o =>
      obtain ⟨ho, hl⟩ := hl
      exact ⟨ho, ih hl⟩

theorem AllNamed.flatten {parts : List (List Override)} (h : ∀ l ∈ parts, AllNamed l) :
    AllNamed parts.flatten := by
  induction parts with
  | nil => trivial
  | cons l parts ih =>
    obtain ⟨hl, hparts⟩ := List.forall_mem_cons.1 h
    exact hl.append (ih hparts)

theorem AllNamed.of_values {k : String} (hk : IsName k) {values : List Operand}
    (h : ∀ x ∈ values, x.Named) : AllNamed (values.map (.value k)) := by
  induction values with
  | nil => trivial
  | cons x values ih =>
    obtain ⟨hx, hvalues⟩ := List.forall_mem_cons.1 h
    exact ⟨hk, hx, ih hvalues⟩

theorem overridesOf_named {root : ExpectedRoot} {levels : Nat} {names : List String} {index : Nat}
    {l : List Assignment} {os : List Override}
    (h : overridesOf levels root (stepsTo names) index l = .ok os) (hl : ∀ a ∈ l, a.Named) :
    AllNamed os := by
  induction levels generalizing names index l os with
  | zero =>
    cases h
    trivial
  | succ levels ih =>
    obtain ⟨parts, hparts, rfl⟩ := overridesOf_eq_ok h
    apply AllNamed.flatten
    intro part hpart
    obtain ⟨g, hg, hmade⟩ := Outcome.exists_of_forall₂ hparts hpart
    have hmem : ∀ a ∈ g.2, a.Named := fun a ha => hl a ((mem_group_iff hg).1 ha).1
    have hfield : IsName g.1 := by
      obtain ⟨a, ha⟩ := List.exists_mem_of_ne_nil _ (group_ne_nil hg)
      have hsegment : a.target.segments[index]? = some g.1 := ((mem_group_iff hg).1 ha).2
      exact (hmem a ha).target _ (List.mem_of_getElem? hsegment)
    cases hmade with
    | leaves _ hvalues =>
      apply AllNamed.of_values hfield
      intro x hx
      obtain ⟨a, ha, hax⟩ := Outcome.exists_of_forall₂ hvalues hx
      exact (hmem a ha).operand hax
    | nested _ hinner => exact ⟨hfield, ih hinner hmem, trivial⟩

theorem Plan.overrides_named {p : Plan} {root : ExpectedRoot} {os : List Override}
    (h : p.overrides root = .ok os) (hp : ∀ a ∈ p.assignments, a.Named) : AllNamed os := by
  obtain ⟨parts, hparts, h⟩ := Outcome.bind_eq_ok.1 h
  obtain rfl := Outcome.pure_eq_ok.1 h
  apply AllNamed.flatten
  intro part hpart
  obtain ⟨g, hgroup, hg⟩ := Outcome.exists_of_mem_mapM hparts hpart
  refine overridesOf_named (stepsTo_nil ▸ hg) fun a ha => hp a ?_
  exact List.mem_flatMap.2 ⟨g, hgroup, ha⟩

end AdapterForge

import AdapterForge.Proofs.LocalNames
import AdapterForge.Proofs.PipelineAgreement
import AdapterForge.Proofs.TreeNames

/-!
What the statements of a program refer to is there: the builders are started somewhere, and what a value
is read from is given to the method or found by it.
-/
namespace AdapterForge

/-- The builder of the modified object, or one of those that are started. -/
def Builder.Among (started : List FieldPath) : Builder → Prop
  | .root => True
  | .nested path => path ∈ started

def Statement.Supplied (started : List FieldPath) : Statement → Prop
  | .locateExt => True
  | .start path kind =>
    path ∈ started ∧ kind = .ofPath path ∧ (Builder.parentOf path).Among started
  | .assign b field value => b.Among started ∧ IsName field ∧ value.Named
  | .commit path => path ∈ started ∧ (Builder.parentOf path).Among started

structure Program.Supplied (q : Program) : Prop where
  statements : ∀ s ∈ q.statements, s.Supplied (startedPaths q.statements)
  paths : ∀ path ∈ startedPaths q.statements, ∀ k ∈ path.segments, IsName k
  sources : ∀ b field x, .assign b field (.field x) ∈ q.statements →
    Java.rootVar x.root ∈ Java.methodNames q
  located : .locateExt ∈ q.statements → q.scope = .request

theorem supplied_statementsOf {root : ExpectedRoot} {names : List String} {os : List Override}
    {started : List FieldPath} (h : PlacedIn root names os) (hos : AllNamed os) {b : Builder}
    (hb : b.names = names) (hopen : b.Among started)
    (hsub : startedPaths (statementsOf b os) ⊆ started) :
    ∀ s ∈ statementsOf b os, s.Supplied started := by
  induction h generalizing b with
  | nil => exact fun _ hs => absurd hs List.not_mem_nil
  | value _ ih =>
    obtain ⟨hfield, hvalue, hos⟩ := hos
    rw [statementsOf, List.forall_mem_cons]
    exact ⟨⟨hopen, hfield, hvalue⟩, ih hos hb hopen hsub⟩
  | @object names k inner r _ _ ihi ihr =>
    subst hb
    obtain ⟨-, hinner, hos⟩ := hos
    rw [startedPaths_placed] at hsub
    obtain ⟨hchild, hsub⟩ := List.cons_subset.1 hsub
    obtain ⟨hsubInner, hsubRest⟩ := List.append_subset.1 hsub
    have hparent : (Builder.parentOf (b.child k)).Among started := by
      rw [b.parentOf_child]
      exact hopen
    rw [statementsOf_placed, List.forall_mem_cons, List.forall_mem_append, List.forall_mem_cons]
    exact ⟨⟨hchild, rfl, hparent⟩, ihi hinner (b.names_child k) hchild hsubInner,
      ⟨hchild, hparent⟩, ihr hos rfl hopen hsubRest⟩

theorem FieldPath.leaf_mem_segments (p : FieldPath) : p.leaf ∈ p.segments := List.getLastD_mem_cons

theorem Java.rootVar_mem_givenNames (scope : Scope) : rootVar scope.root ∈ givenNames scope := by
  cases scope <;> decide

namespace Plan

variable {scope : Scope} {l : List Assignment} {p : Plan} {root : ExpectedRoot} {os : List Override}

theorem rootVar_mem_methodNames (hp : ofAssignments scope l = .ok p) (hos : p.overrides root = .ok os)
    (hadmits : ∀ a ∈ p.assignments, scope.Admits a) {b : Builder} {field : String} {x : Source}
    (hx : .assign b field (.field x) ∈ p.located ++ statementsOf .root os) :
    Java.rootVar x.root ∈ Java.methodNames ⟨p.scope, p.located ++ statementsOf .root os⟩ := by
  have hassign : .assign b field (.field x) ∈ statementsOf .root os := by
    refine (List.mem_append.1 hx).resolve_left fun hmem => ?_
    rw [located] at hmem
    split at hmem <;> simp at hmem
  obtain ⟨a, ha, hoperand⟩ := overrides_operand hos hassign
  have hcopy : a.value = .copy x := by
    unfold Assignment.operand at hoperand
    split at hoperand <;> cases hoperand
    assumption
  rw [Java.methodNames, scope_of_ofAssignments hp]
  obtain hroot | hroot := (hadmits a ha).source_root x hcopy
  · rw [hroot]
    cases hscope : scope with
    | impression => exact List.mem_append_left _ (by decide : "impExt" ∈ Java.givenNames .impression)
    | request =>
      have hlocated : .locateExt ∈ p.located ++ statementsOf .root os :=
        (locateExt_mem_iff (overrides_placed hos)).2
          ⟨(scope_of_ofAssignments hp).trans hscope, a, ha, Assignment.readsExt_of_copy hcopy hroot⟩
      exact List.mem_append_right _ (List.mem_flatMap.2 ⟨_, hlocated, List.mem_singleton.2 rfl⟩)
  · rw [hroot]
    exact List.mem_append_left _ (Java.rootVar_mem_givenNames scope)

/-- The program of a plan that was made from a description refers to nothing that is missing. -/
theorem supplied_program (hp : ofAssignments scope l = .ok p) (hos : p.overrides root = .ok os)
    (hadmits : ∀ a ∈ p.assignments, scope.Admits a) (hnamed : ∀ a ∈ p.assignments, a.Named) :
    Program.Supplied ⟨p.scope, p.located ++ statementsOf .root os⟩ where
  statements := by
    rw [p.startedPaths_located, List.forall_mem_append]
    refine ⟨fun s hs => ?_, supplied_statementsOf (overrides_placed hos) (overrides_named hos hnamed) rfl
      trivial (List.Subset.refl _)⟩
    rw [located] at hs
    split at hs
    · obtain rfl := List.mem_singleton.1 hs
      trivial
    · exact absurd hs List.not_mem_nil
  paths path hpath k hk := by
    rw [p.startedPaths_located] at hpath
    obtain ⟨-, a, ha, habove⟩ := ((pathsAbove_overrides hp hos).mem_iff path).1 hpath
    exact (hnamed a ha).target k (habove.1.subset hk)
  sources _ _ _ hx := rootVar_mem_methodNames hp hos hadmits hx
  located hmem := ((locateExt_mem_iff (overrides_placed hos)).1 hmem).1

end Plan

end AdapterForge

import AdapterForge.Proofs.PipelineAgreement
import AdapterForge.Proofs.Shape

/-!
An adapter compiles exactly when its literals are numbers and strings and its targets, scope by
scope, form no chain. Past the planning of both scopes nothing can fail.
-/
namespace AdapterForge

def Written.IsLiteral (v : Written) : Prop := (∃ n, v = .number n) ∨ ∃ s, v = .string s

structure Compilable (l : List Assignment) : Prop where
  literals : ∀ a ∈ Plan.writing l, ∀ v, a.value = .fixed v → v.IsLiteral
  separate : ∀ a ∈ Plan.writing l, ∀ b ∈ Plan.writing l,
    a.target.segments <+: b.target.segments → a.target = b.target

theorem Assignment.exists_operand_iff {a : Assignment} :
    (∃ x, a.operand = .ok x) ↔ ∀ v, a.value = .fixed v → v.IsLiteral := by
  unfold operand
  cases ha : a.value with
  | copy s => simp
  | fixed v => cases v <;> simp [Written.IsLiteral]

namespace Plan

variable {scope : Scope} {l : List Assignment} {p : Plan}

theorem exists_ofAssignments_iff (scope : Scope) (l : List Assignment) :
    (∃ p, ofAssignments scope l = .ok p) ↔ Compilable l := by
  constructor
  · rintro ⟨p, hp⟩
    obtain ⟨hoperand, hshape, -⟩ := ofAssignments_eq_ok hp
    exact ⟨fun a ha => Assignment.exists_operand_iff.1 (hoperand a ha),
      separate_of_checkShape hshape⟩
  · rintro ⟨hliterals, hsep⟩
    have hkept : kept l = .ok (writing l) :=
      kept_of_operands fun a ha => Assignment.exists_operand_iff.2 (hliterals a ha)
    have hshape : checkShape (AdapterForge.maxDepth (writing l)) 0 (writing l) = .ok () :=
      checkShape_of_separate hsep fun _ _ => rfl
    exact ⟨_, Outcome.bind_eq_ok.2 ⟨_, hkept, Outcome.bind_eq_ok.2 ⟨_, hshape, rfl⟩⟩⟩

theorem exists_program_of_ofAssignments (h : ofAssignments scope l = .ok p) :
    ∃ q, p.program = .ok q := by
  obtain ⟨os, hos⟩ := exists_overrides_of_ofAssignments h .request
  exact ⟨_, program_of_overrides hos⟩

end Plan

theorem exists_expectedRequest {imp request : List Assignment} {p q : Plan} {s t : Scope}
    (hp : Plan.ofAssignments s imp = .ok p) (hq : Plan.ofAssignments t request = .ok q) :
    ∃ o, expectedRequest p q = .ok o := by
  obtain ⟨first, hfirst⟩ := Plan.exists_overrides_of_ofAssignments hp .firstImp
  obtain ⟨rest, hrest⟩ := Plan.exists_overrides_of_ofAssignments hq .request
  rw [expectedRequest, hfirst, hrest]
  exact ⟨_, rfl⟩

theorem Compiled.exists_ofPlans {imp request : List Assignment} {p q : Plan} {s t : Scope}
    (hp : Plan.ofAssignments s imp = .ok p) (hq : Plan.ofAssignments t request = .ok q) :
    ∃ c, Compiled.ofPlans p q = .ok c := by
  obtain ⟨first, hfirst⟩ := Plan.exists_overrides_of_ofAssignments hp .firstImp
  obtain ⟨rest, hrest⟩ := Plan.exists_overrides_of_ofAssignments hq .request
  obtain ⟨o, ho⟩ := exists_expectedRequest hp hq
  rw [Compiled.ofPlans, ho, Plan.program?_of_overrides hfirst, Plan.program?_of_overrides hrest]
  exact ⟨_, rfl⟩

namespace Adapter

theorem exists_compile_iff (a : Adapter) :
    (∃ c, a.compile = .ok c) ↔ Compilable a.imp ∧ Compilable a.request := by
  rw [← Plan.exists_ofAssignments_iff .impression, ← Plan.exists_ofAssignments_iff .request]
  constructor
  · rintro ⟨c, hc⟩
    obtain ⟨p, q, -, -, hp, hq, -⟩ := compile_eq_ok hc
    exact ⟨⟨p, hp⟩, q, hq⟩
  · rintro ⟨⟨p, hp⟩, q, hq⟩
    obtain ⟨c, hc⟩ := Compiled.exists_ofPlans hp hq
    exact ⟨c, Outcome.bind_eq_ok.2 ⟨p, hp, Outcome.bind_eq_ok.2 ⟨q, hq, hc⟩⟩⟩

/-- An adapter compiles exactly when both scopes are compilable, and it is planning that finds out:
plans have programs and an expectation. -/
theorem compiles_iff (a : Adapter) :
    ((∃ c, a.compile = .ok c) ↔ Compilable a.imp ∧ Compilable a.request) ∧
      ∀ p q, Plan.ofAssignments .impression a.imp = .ok p →
        Plan.ofAssignments .request a.request = .ok q →
        (∃ x, p.program = .ok x) ∧ (∃ y, q.program = .ok y) ∧ ∃ o, expectedRequest p q = .ok o :=
  ⟨exists_compile_iff a, fun _ _ hp hq =>
    ⟨Plan.exists_program_of_ofAssignments hp, Plan.exists_program_of_ofAssignments hq,
      exists_expectedRequest hp hq⟩⟩

theorem compiles_iff_sample :
    Compilable sampleAdapter.imp ∧ Compilable sampleAdapter.request ∧
      ∃ p q x y o, Plan.ofAssignments .impression sampleAdapter.imp = .ok p ∧
        Plan.ofAssignments .request sampleAdapter.request = .ok q ∧
        p.program = .ok x ∧ q.program = .ok y ∧ expectedRequest p q = .ok o := by
  obtain ⟨hiff, hmade⟩ := compiles_iff sampleAdapter
  obtain ⟨himp, hrequest⟩ := hiff.1 exists_compile_sampleAdapter
  obtain ⟨p, hp⟩ : ∃ p, Plan.ofAssignments .impression sampleAdapter.imp = .ok p := ⟨_, rfl⟩
  obtain ⟨q, hq⟩ : ∃ q, Plan.ofAssignments .request sampleAdapter.request = .ok q := ⟨_, rfl⟩
  obtain ⟨⟨x, hx⟩, ⟨y, hy⟩, o, ho⟩ := hmade p q hp hq
  exact ⟨himp, hrequest, p, q, x, y, o, hp, hq, hx, hy, ho⟩

end Adapter

end AdapterForge

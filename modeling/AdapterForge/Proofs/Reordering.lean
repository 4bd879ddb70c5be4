import AdapterForge.Proofs.Compilation
import AdapterForge.Proofs.PipelineWriting
import AdapterForge.Proofs.Resolution

/-!
Rules may change places. What an adapter does depends on their order only where they write to the
same field, and there impressions take values before copies anyway.
-/
namespace AdapterForge

/-- What rules have in common that must not change places. -/
structure Slot where
  scope : Scope
  target : FieldPath
  static : Bool
  deriving DecidableEq

def Scope.slot (scope : Scope) (target : FieldPath) (static : Bool) : Slot :=
  ⟨scope, target, decide (scope = .impression) && static⟩

def Rule.slot? (r : Rule) : Option Slot :=
  let scope := Scope.ofTarget r.target
  (scope.resolveTarget r.target).toOption.map fun target => scope.slot target r.staticValue.isSome

def Assignment.slot (scope : Scope) (a : Assignment) : Slot := scope.slot a.target a.isStatic

/-- The same rules in an order that keeps those of one slot as they are. -/
structure Reordered (l m : List Rule) : Prop where
  perm : l.Perm m
  kept : ∀ r ∈ l, r.slot?.isSome → l.filter (·.slot? = r.slot?) = m.filter (·.slot? = r.slot?)

theorem Reordered.filter_eq {l m : List Rule} (h : Reordered l m) (k : Slot) :
    l.filter (·.slot? = some k) = m.filter (·.slot? = some k) := by
  by_cases hk : ∃ r ∈ l, r.slot? = some k
  · obtain ⟨r, hr, hrk⟩ := hk
    have hkept := h.kept r hr (by rw [hrk]; rfl)
    rwa [hrk] at hkept
  · have hnil : ∀ {n : List Rule}, (∀ r ∈ n, r ∈ l) → n.filter (·.slot? = some k) = [] := by
      intro n hn
      rw [List.filter_eq_nil_iff]
      intro r hr hrk
      exact hk ⟨r, hn r hr, by simpa using hrk⟩
    rw [hnil fun r hr => hr, hnil fun r hr => h.perm.mem_iff.2 hr]

theorem Rule.slot?_of_assignmentIn? {scope : Scope} {params : List Param} {r : Rule}
    {a : Assignment} (h : r.assignmentIn? scope params = some a) :
    r.slot? = some (a.slot scope) := by
  obtain ⟨rfl, ha⟩ := assignmentIn?_eq_some h
  obtain ⟨htarget, hvalue⟩ := resolve_eq_ok (assignment_eq_ok ha).1
  have hstatic : r.staticValue.isSome = a.isStatic := by
    rcases hvalue with ⟨v, hv, hav⟩ | ⟨s, x, hv, -, hax⟩
    · rw [hv, Assignment.isStatic, hav]
      rfl
    · rw [hv, Assignment.isStatic, hax]
      rfl
  rw [slot?, htarget, hstatic]
  rfl

/-- Assignments of one scope in an order that keeps those of one slot as they are. -/
structure Rearranged (scope : Scope) (l m : List Assignment) : Prop where
  perm : l.Perm m
  kept : ∀ k, l.filter (·.slot scope = k) = m.filter (·.slot scope = k)

theorem Reordered.rearranged {l m : List Rule} (h : Reordered l m) (scope : Scope)
    (params : List Param) :
    Rearranged scope (l.filterMap (Rule.assignmentIn? scope params))
      (m.filterMap (Rule.assignmentIn? scope params)) := by
  refine ⟨h.perm.filterMap _, ?_⟩
  intro k
  have hslot : ∀ n : List Rule,
      (n.filterMap (Rule.assignmentIn? scope params)).filter (·.slot scope = k) =
        (n.filter (·.slot? = some k)).filterMap (Rule.assignmentIn? scope params) := by
    intro n
    rw [List.filter_filterMap, List.filterMap_filter]
    congr 1
    funext r
    cases hr : r.assignmentIn? scope params with
    | none => simp
    | some a => by_cases hk : a.slot scope = k <;> simp [Rule.slot?_of_assignmentIn? hr, hk]
  rw [hslot l, hslot m, h.filter_eq k]

theorem Compilable.perm {l m : List Assignment} (h : l.Perm m) (hl : Compilable l) :
    Compilable m := by
  have hmem : ∀ a ∈ Plan.writing m, a ∈ Plan.writing l := fun a ha =>
    (h.filter _).mem_iff.2 ha
  exact ⟨fun a ha => hl.literals a (hmem a ha),
    fun a ha b hb => hl.separate a (hmem a ha) b (hmem b hb)⟩

theorem Rearranged.compilable_iff {scope : Scope} {l m : List Assignment}
    (h : Rearranged scope l m) : Compilable l ↔ Compilable m :=
  ⟨.perm h.perm, .perm h.perm.symm⟩

namespace Plan

variable {scope : Scope} {l m : List Assignment} {p q : Plan}

theorem filter_ordered (scope : Scope) (f : Assignment → Bool) (l : List Assignment) :
    (ordered scope l).filter f = ordered scope (l.filter f) := by
  cases scope with
  | impression =>
    simp only [ordered, List.filter_append, List.filter_filter, Bool.and_comm]
  | request => rfl

theorem ordered_of_rearranged (h : Rearranged scope l m) (target : FieldPath) :
    ordered scope (l.filter (·.target = target)) =
      ordered scope (m.filter (·.target = target)) := by
  cases scope with
  | request =>
    have hslot : ∀ n : List Assignment, n.filter (·.target = target) =
        n.filter (·.slot .request = Scope.request.slot target false) := by
      intro n
      apply List.filter_congr
      intro a _
      simp [Assignment.slot, Scope.slot]
    simp only [ordered, hslot, h.kept]
  | impression =>
    have hkind : ∀ (static : Bool) (f : Assignment → Bool),
        (∀ a, f a = decide (a.isStatic = static)) → ∀ n : List Assignment,
          (n.filter (·.target = target)).filter f =
            n.filter (·.slot .impression = Scope.impression.slot target static) := by
      intro static f hf n
      rw [List.filter_filter]
      apply List.filter_congr
      intro a _
      simp [hf, Assignment.slot, Scope.slot, Bool.and_comm]
    simp only [ordered, hkind true (·.isStatic) (by simp), hkind false (!·.isStatic) (by simp),
      h.kept]

theorem filter_assignments (h : ofAssignments scope l = .ok p) (target : FieldPath) :
    p.assignments.filter (·.target = target) =
      writing (ordered scope (l.filter (·.target = target))) := by
  have hnil : ordered scope [] = [] := by cases scope <;> rfl
  have hfirst : ∀ a : Assignment, decide (a.target = target) = true →
      a.target.segment? 0 = some target.first := by
    intro a ha
    obtain rfl : a.target = target := by simpa using ha
    rfl
  rw [← p.flatMap_keyed, keyed_eq h, List.flatMap_map,
    filter_flatMap_groupBySegment (filter_ordered scope _) hnil hfirst, writing, writing,
    filter_ordered, List.filter_filter, List.filter_filter]
  simp only [Bool.and_comm]

/-- Plans that write the same, whatever they read and whatever they write to. -/
structure SameWrites (p q : Plan) : Prop where
  isEmpty : p.isEmpty = q.isEmpty
  writes : ∀ s fields, p.assignments.foldlM (Assignment.write? s) fields =
    q.assignments.foldlM (Assignment.write? s) fields

theorem sameWrites (h : Rearranged scope l m) (hp : ofAssignments scope l = .ok p)
    (hq : ofAssignments scope m = .ok q) : SameWrites p q := by
  constructor
  · rw [Bool.eq_iff_iff, isEmpty_iff hp, isEmpty_iff hq]
    simp only [h.perm.mem_iff]
  · intro s fields
    have hkept : ∀ target, p.assignments.filter (·.target = target) =
        q.assignments.filter (·.target = target) := by
      intro target
      rw [filter_assignments hp, filter_assignments hq, ordered_of_rearranged h]
    apply foldlM_eq_of_filter hkept
    intro a ha b hb hab
    exact (separate_assignments hp).stepsCommute s ha hb hab

end Plan

namespace Compiled.Planned

variable {c c' : Compiled} {p p' q q' : Plan}

theorem toOption_run_eq (h : c.Planned p q) (h' : c'.Planned p' q') (hp : p.SameWrites p')
    (hq : q.SameWrites q') (bidRequest : Json) :
    (c.run bidRequest).toOption = (c'.run bidRequest).toOption := by
  have himp : ∀ imp, (c.runImp imp).toOption = (c'.runImp imp).toOption := by
    intro imp
    rw [h.toOption_runImp, h'.toOption_runImp, hp.isEmpty]
    simp only [hp.writes]
  cases bidRequest with
  | object request =>
    rw [h.toOption_run, h'.toOption_run]
    simp only [hq.writes, Outcome.toOption_mapM, himp]
  | _ => rfl

theorem toOption_evaluate_eq (h : c.Planned p q) (h' : c'.Planned p' q') (hp : p.SameWrites p')
    (hq : q.SameWrites q') (bidRequest : Json) :
    (c.expected.evaluate bidRequest).toOption = (c'.expected.evaluate bidRequest).toOption := by
  cases bidRequest with
  | object request =>
    rw [h.toOption_evaluate, h'.toOption_evaluate, hp.isEmpty]
    simp only [hp.writes, hq.writes]
  | _ => rfl

end Compiled.Planned

namespace Adapter

theorem exists_compiled_iff (d : Description) :
    (∃ c, (ofDescription d >>= compile) = .ok c) ↔
      (∀ r ∈ d.rules, ∃ b, r.assignment d.params = .ok b) ∧
        Compilable (d.rules.filterMap (Rule.assignmentIn? .impression d.params)) ∧
        Compilable (d.rules.filterMap (Rule.assignmentIn? .request d.params)) := by
  rw [← exists_ofDescription_iff]
  constructor
  · rintro ⟨c, hc⟩
    obtain ⟨a, ha, hc⟩ := Outcome.bind_eq_ok.1 hc
    obtain ⟨himp, hrequest⟩ := ofDescription_eq_ok ha
    rw [← himp, ← hrequest, ← exists_compile_iff]
    exact ⟨⟨a, ha⟩, c, hc⟩
  · rintro ⟨⟨a, ha⟩, hcompilable⟩
    obtain ⟨himp, hrequest⟩ := ofDescription_eq_ok ha
    rw [← himp, ← hrequest, ← exists_compile_iff] at hcompilable
    obtain ⟨c, hc⟩ := hcompilable
    exact ⟨c, Outcome.bind_eq_ok.2 ⟨a, ha, hc⟩⟩

theorem exists_planned_of_description {d : Description} {c : Compiled}
    (h : (ofDescription d >>= compile) = .ok c) :
    ∃ p q, Plan.ofAssignments .impression
        (d.rules.filterMap (Rule.assignmentIn? .impression d.params)) = .ok p ∧
      Plan.ofAssignments .request
        (d.rules.filterMap (Rule.assignmentIn? .request d.params)) = .ok q ∧ c.Planned p q := by
  obtain ⟨a, ha, hc⟩ := Outcome.bind_eq_ok.1 h
  obtain ⟨himp, hrequest⟩ := ofDescription_eq_ok ha
  obtain ⟨hadmitsImp, hadmitsRequest⟩ := admits_of_ofDescription ha
  rw [← himp, ← hrequest]
  exact exists_planned hadmitsImp hadmitsRequest hc

/-- Rules of different slots may change places: neither whether the adapter compiles nor what it
makes of a request depends on their order. -/
theorem reordered_agree {d : Description} {rules : List Rule} (h : Reordered d.rules rules) :
    ((∃ c, (ofDescription d >>= compile) = .ok c) ↔
      ∃ c, (ofDescription { d with rules := rules } >>= compile) = .ok c) ∧
    ∀ c c', (ofDescription d >>= compile) = .ok c →
      (ofDescription { d with rules := rules } >>= compile) = .ok c' → ∀ bidRequest,
        (c.run bidRequest).toOption = (c'.run bidRequest).toOption ∧
        (c.expected.evaluate bidRequest).toOption = (c'.expected.evaluate bidRequest).toOption := by
  have himp := h.rearranged .impression d.params
  have hrequest := h.rearranged .request d.params
  constructor
  · rw [exists_compiled_iff, exists_compiled_iff, himp.compilable_iff, hrequest.compilable_iff]
    simp only [h.perm.mem_iff]
  · intro c c' hc hc' bidRequest
    obtain ⟨p, q, hp, hq, hplanned⟩ := exists_planned_of_description hc
    obtain ⟨p', q', hp', hq', hplanned'⟩ := exists_planned_of_description hc'
    have hpp := Plan.sameWrites himp hp hp'
    have hqq := Plan.sameWrites hrequest hq hq'
    exact ⟨hplanned.toOption_run_eq hplanned' hpp hqq bidRequest,
      hplanned.toOption_evaluate_eq hplanned' hpp hqq bidRequest⟩

def sampleOrder : List Rule :=
  [⟨"site.page", none, some "site.ref"⟩, ⟨"imp.banner.w", none, some "impExt.placement"⟩,
    ⟨"imp.banner.w", some (.number (.ofNat 300)), none⟩,
    ⟨"bidRequest.site.page", some (.string "p"), none⟩]

/-- The value and the copy that go to the same field of an impression have changed places, the two
writes to the page have not. -/
def sampleReorder : List Rule :=
  [⟨"imp.banner.w", some (.number (.ofNat 300)), none⟩, ⟨"site.page", none, some "site.ref"⟩,
    ⟨"imp.banner.w", none, some "impExt.placement"⟩,
    ⟨"bidRequest.site.page", some (.string "p"), none⟩]

theorem reordered_agree_sample :
    let d : Description := { sampleAdapter.description with rules := sampleOrder }
    Reordered sampleOrder sampleReorder ∧
      ∃ c c', (ofDescription d >>= compile) = .ok c ∧
        (ofDescription { d with rules := sampleReorder } >>= compile) = .ok c' ∧
        ∀ bidRequest, (c.run bidRequest).toOption = (c'.run bidRequest).toOption ∧
          (c.expected.evaluate bidRequest).toOption =
            (c'.expected.evaluate bidRequest).toOption := by
  intro d
  have hreordered : Reordered d.rules sampleReorder := ⟨by decide +kernel, by decide +kernel⟩
  obtain ⟨hiff, hagree⟩ := reordered_agree hreordered
  have hsome : (ofDescription d >>= compile).toOption.isSome = true := by decide +kernel
  obtain ⟨c, hc⟩ := Option.isSome_iff_exists.1 hsome
  rw [Outcome.toOption_eq_some] at hc
  obtain ⟨c', hc'⟩ := hiff.1 ⟨c, hc⟩
  exact ⟨hreordered, c, c', hc, hc', hagree c c' hc hc'⟩

end Adapter

end AdapterForge

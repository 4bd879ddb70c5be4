import AdapterForge.Proofs.Compilation
import AdapterForge.Proofs.Resolution

/-!
An error blames a transformation that is at fault. Resolution stops at the first rule that fails
alone; planning stops at the first value that is no literal and, when there is none, at a target
that lies below another one.
-/
namespace AdapterForge

def Written.kind? : Written → Option ValueKind
  | .number _ | .string _ => none
  | .null => some .null
  | .bool _ => some .boolean
  | .array _ => some .array
  | .object _ => some .object

theorem Assignment.operand_eq_error_iff {a : Assignment} {e : RuleError} :
    a.operand = .error e ↔
      ∃ v kind, a.value = .fixed v ∧ v.kind? = some kind ∧ e = ⟨a.raw, .valueType kind⟩ := by
  unfold operand
  cases a.value with
  | copy s => simp
  | fixed v => cases v <;> simp [Written.kind?, eq_comm]

section Targets

variable {scope : Scope} {raw target : String} {params : List Param} {e : RuleError}

theorem Scope.target_of_resolveTarget (h : scope.resolveTarget raw = .error e) :
    e.target = raw := by
  unfold resolveTarget at h
  split at h
  · cases h; rfl
  · split at h
    · cases h; rfl
    · split at h
      · cases h; rfl
      · split at h <;> cases h
        rfl

theorem Scope.target_of_resolveSource (h : scope.resolveSource target raw = .error e) :
    e.target = target := by
  unfold resolveSource at h
  split at h
  · cases h; rfl
  · split at h
    · cases h; rfl
    · split at h
      · cases h; rfl
      · split at h <;> cases h
        rfl

theorem Rule.target_of_resolve {r : Rule} (h : r.resolve scope = .error e) :
    e.target = r.target := by
  unfold resolve at h
  split at h
  · cases h; rfl
  · cases h; rfl
  · obtain ht | ⟨target, -, h⟩ := Outcome.bind_eq_error.1 h
    · exact Scope.target_of_resolveTarget ht
    · cases h
  · obtain ht | ⟨target, -, h⟩ := Outcome.bind_eq_error.1 h
    · exact Scope.target_of_resolveTarget ht
    · obtain hs | ⟨x, -, h⟩ := Outcome.bind_eq_error.1 h
      · exact Scope.target_of_resolveSource hs
      · cases h

theorem Assignment.target_of_checkParam {a : Assignment} (h : a.checkParam params = .error e) :
    e.target = a.raw := by
  unfold checkParam at h
  split at h
  · split at h
    · cases h; rfl
    · split at h <;> cases h
      rfl
  · cases h

theorem Rule.raw_of_resolve {r : Rule} {a : Assignment} (h : r.resolve scope = .ok a) :
    a.raw = r.target :=
  (resolve_eq_ok_iff.1 h).1

theorem Rule.target_of_assignment {r : Rule} (h : r.assignment params = .error e) :
    e.target = r.target := by
  obtain hr | ⟨a, ha, hcheck⟩ := Outcome.bind_eq_error.1 h
  · exact target_of_resolve hr
  · rw [Assignment.target_of_checkParam hcheck, raw_of_resolve ha]

end Targets

theorem FieldPath.leaf_of_segments {p : FieldPath} {names : List String} {k : String}
    (h : p.segments = names ++ [k]) : p.leaf = k := by
  have hlast : p.segments.getLast? = some p.leaf := by
    rw [segments, List.getLast?_cons, leaf, List.getLastD_eq_getLast?]
  rw [h, List.getLast?_concat] at hlast
  exact (Option.some.inj hlast).symm

theorem exists_nested_of_checkShape {levels index : Nat} {names : List String}
    {l : List Assignment} {e : RuleError} (hnames : ∀ a ∈ l, a.target.segments.take index = names)
    (h : Plan.checkShape levels index l = .error e) :
    ∃ a ∈ l, ∃ b ∈ l, a.target.StrictlyAbove b.target ∧
      e = ⟨b.raw, .unsupported (.assignedAndNested a.target.leaf a.raw)⟩ := by
  -- on the levels; all targets of a level go through the same names, so a leaf lies above the rest
  induction levels generalizing index names l with
  | zero => cases h
  | succ levels ih =>
    rw [checkShape_succ] at h
    obtain ⟨g, hg, hge⟩ := Outcome.exists_of_forM_eq_error h
    have hmem : ∀ a ∈ g.2, a ∈ l := fun a ha => ((mem_group_iff hg).1 ha).1
    have htake := fun a => take_succ_of_mem_group hnames hg (x := a)
    rcases leaves_or_nested index g.2 with hleaf | hn | ⟨hl, hn⟩
    · rw [checkGroup_of_leaves levels hleaf] at hge
      cases hge
    · rw [checkGroup_of_nested levels hn] at hge
      obtain ⟨a, ha, b, hb, hab⟩ := ih htake hge
      exact ⟨a, hmem a ha, b, hmem b hb, hab⟩
    · obtain ⟨a, ha, hal, b, hb, hbn, he⟩ := checkGroup_mixed levels hl hn
      obtain rfl := Except.error.inj (hge.symm.trans he)
      have habove := FieldPath.above_of_take_eq ((htake a ha).trans (htake b hb).symm) hal
      have hne : a.target ≠ b.target := fun hab => hbn (hab ▸ hal)
      have hall : a.target.segments = names ++ [g.1] := by
        rw [← htake a ha, FieldPath.take_segments hal]
      rw [← FieldPath.leaf_of_segments hall]
      exact ⟨a, hmem a ha, b, hmem b hb, ⟨habove, hne⟩, rfl⟩

/-- How an error blames an assignment of a scope: for the first value that is no literal, or, where
all values are literals, for a target below another one. -/
inductive Blamed (l : List Assignment) : RuleError → Prop where
  | value {pre post : List Assignment} {a : Assignment} {v : Written} {kind : ValueKind}
      (split : Plan.writing l = pre ++ a :: post)
      (before : ∀ b ∈ pre, ∀ w, b.value = .fixed w → w.IsLiteral)
      (value : a.value = .fixed v) (kind_eq : v.kind? = some kind) :
      Blamed l ⟨a.raw, .valueType kind⟩
  | nested {a b : Assignment}
      (literals : ∀ c ∈ Plan.writing l, ∀ w, c.value = .fixed w → w.IsLiteral)
      (leaf_mem : a ∈ Plan.writing l) (below_mem : b ∈ Plan.writing l)
      (above : a.target.StrictlyAbove b.target) :
      Blamed l ⟨b.raw, .unsupported (.assignedAndNested a.target.leaf a.raw)⟩

theorem Blamed.exists_mem {l : List Assignment} {e : RuleError} (h : Blamed l e) :
    ∃ a ∈ l, e.target = a.raw := by
  have hmem : ∀ a ∈ Plan.writing l, a ∈ l := fun a ha => (List.mem_filter.1 ha).1
  cases h with
  | @value pre post a v kind hsplit =>
    exact ⟨a, hmem a (hsplit ▸ List.mem_append_right pre List.mem_cons_self), rfl⟩
  | @nested a b _ _ hb => exact ⟨b, hmem b hb, rfl⟩

namespace Plan

variable {scope : Scope} {l : List Assignment} {e : RuleError}

theorem kept_eq_error (h : kept l = .error e) : (writing l).mapM Assignment.operand = .error e := by
  rw [kept_eq] at h
  change ((writing l).mapM Assignment.operand).map _ = _ at h
  cases hx : (writing l).mapM Assignment.operand with
  | ok xs =>
    rw [hx] at h
    cases h
  | error e' =>
    rw [hx] at h
    cases h
    rfl

theorem blamed_of_ofAssignments (h : ofAssignments scope l = .error e) : Blamed l e := by
  obtain hkept | ⟨k, hk, h⟩ := Outcome.bind_eq_error.1 h
  · obtain ⟨pre, a, post, hsplit, hpre, ha⟩ := Outcome.mapM_eq_error_iff.1 (kept_eq_error hkept)
    obtain ⟨v, kind, hv, hkind, rfl⟩ := Assignment.operand_eq_error_iff.1 ha
    exact .value hsplit (fun b hb => Assignment.exists_operand_iff.1 (hpre b hb)) hv hkind
  · obtain ⟨rfl, hoperand⟩ := kept_eq_ok hk
    obtain hshape | ⟨-, -, h⟩ := Outcome.bind_eq_error.1 h
    · obtain ⟨a, ha, b, hb, hab, rfl⟩ := exists_nested_of_checkShape (fun _ _ => rfl) hshape
      exact .nested (fun c hc => Assignment.exists_operand_iff.1 (hoperand c hc)) ha hb hab
    · cases h

theorem not_compilable_of_ofAssignments (h : ofAssignments scope l = .error e) :
    ¬ Compilable l := by
  intro hl
  obtain ⟨p, hp⟩ := (exists_ofAssignments_iff scope l).2 hl
  rw [h] at hp
  cases hp

end Plan

namespace Adapter

theorem ofDescription_eq_error {d : Description} {e : RuleError} (h : ofDescription d = .error e) :
    ∃ pre r post, d.rules = pre ++ r :: post ∧
      (∀ r' ∈ pre, ∃ b, r'.assignment d.params = .ok b) ∧ r.assignment d.params = .error e := by
  obtain h | ⟨l, -, h⟩ := Outcome.bind_eq_error.1 h
  · obtain ⟨pre, r, post, hsplit, hpre, hr⟩ := Outcome.mapM_eq_error_iff.1 h
    refine ⟨pre, r, post, hsplit, ?_, ?_⟩
    · intro r' hr'
      obtain ⟨x, hx⟩ := hpre r' hr'
      obtain ⟨b, hb, -⟩ := Outcome.bind_eq_ok.1 hx
      exact ⟨b, hb⟩
    · obtain hr | ⟨b, -, hb⟩ := Outcome.bind_eq_error.1 hr
      · exact hr
      · cases hb
  · cases h

theorem compile_eq_error {a : Adapter} {e : RuleError} (h : a.compile = .error e) :
    Plan.ofAssignments .impression a.imp = .error e ∨
      (∃ p, Plan.ofAssignments .impression a.imp = .ok p) ∧
        Plan.ofAssignments .request a.request = .error e := by
  obtain himp | ⟨p, hp, h⟩ := Outcome.bind_eq_error.1 h
  · exact .inl himp
  · obtain hrequest | ⟨q, hq, h⟩ := Outcome.bind_eq_error.1 h
    · exact .inr ⟨⟨p, hp⟩, hrequest⟩
    · -- both scopes are planned, so nothing is left that could fail
      obtain ⟨c, hc⟩ := Compiled.exists_ofPlans hp hq
      rw [hc] at h
      cases h

theorem exists_rule_of_blamed {d : Description} {a : Adapter} (h : ofDescription d = .ok a)
    {e : RuleError} (he : Blamed a.imp e ∨ Blamed a.request e) :
    ∃ r ∈ d.rules, e.target = r.target := by
  obtain ⟨himp, hrequest⟩ := exists_rule_of_mem h
  rcases he with he | he
  · obtain ⟨b, hb, hraw⟩ := he.exists_mem
    obtain ⟨r, hr, hrb, -⟩ := himp b hb
    exact ⟨r, hr, hraw.trans (Rule.raw_of_resolve hrb)⟩
  · obtain ⟨b, hb, hraw⟩ := he.exists_mem
    obtain ⟨r, hr, hrb, -⟩ := hrequest b hb
    exact ⟨r, hr, hraw.trans (Rule.raw_of_resolve hrb)⟩

/-- A description that is not resolved fails as its first failing rule does alone, under the target of
that rule. An adapter that is not compiled fails in its impression scope when that is at fault and
in its request scope otherwise, with an assignment of that scope to blame. -/
theorem refusal_blames (d : Description) :
    (∀ e, ofDescription d = .error e →
      ∃ pre r post, d.rules = pre ++ r :: post ∧
        (∀ r' ∈ pre, ∃ b, r'.assignment d.params = .ok b) ∧
        r.assignment d.params = .error e ∧ e.target = r.target) ∧
    ∀ a e, ofDescription d = .ok a → a.compile = .error e →
      (¬ Compilable a.imp ∧ Blamed a.imp e ∨
        Compilable a.imp ∧ ¬ Compilable a.request ∧ Blamed a.request e) ∧
      ∃ r ∈ d.rules, e.target = r.target := by
  constructor
  · intro e h
    obtain ⟨pre, r, post, hsplit, hpre, hr⟩ := ofDescription_eq_error h
    exact ⟨pre, r, post, hsplit, hpre, hr, r.target_of_assignment hr⟩
  · intro a e ha h
    obtain himp | ⟨hp, hrequest⟩ := compile_eq_error h
    · have hblamed := Plan.blamed_of_ofAssignments himp
      exact ⟨.inl ⟨Plan.not_compilable_of_ofAssignments himp, hblamed⟩,
        exists_rule_of_blamed ha (.inl hblamed)⟩
    · have hblamed := Plan.blamed_of_ofAssignments hrequest
      have himp := (Plan.exists_ofAssignments_iff .impression a.imp).1 hp
      exact ⟨.inr ⟨himp, Plan.not_compilable_of_ofAssignments hrequest, hblamed⟩,
        exists_rule_of_blamed ha (.inr hblamed)⟩

/-- The second rule has neither a value nor a source, and the third one has no target. -/
def unresolvedRules : List Rule :=
  [⟨"imp.tagid", some (.string "t"), none⟩, ⟨"site.id", none, none⟩, ⟨"", none, some "id"⟩]

/-- All rules are resolved, but the second one writes below the field of the third one. -/
def chainedRules : List Rule :=
  [⟨"imp.tagid", none, some "impExt.placement"⟩, ⟨"site.publisher.id", none, some "id"⟩,
    ⟨"site.publisher", some (.string "p"), none⟩]

def sampleOf (rules : List Rule) : Description := { sampleAdapter.description with rules := rules }

def chainedAdapter : Adapter where
  description := sampleOf chainedRules
  imp := [⟨"imp.tagid", ⟨"tagid", []⟩, .copy ⟨.impExt, ⟨"placement", []⟩⟩⟩]
  request := [⟨"site.publisher.id", ⟨"site", ["publisher", "id"]⟩, .copy ⟨.request, ⟨"id", []⟩⟩⟩,
    ⟨"site.publisher", ⟨"site", ["publisher"]⟩, .fixed (.string "p")⟩]

theorem refusal_blames_sample :
    (∃ e r, ofDescription (sampleOf unresolvedRules) = .error e ∧ r ∈ unresolvedRules ∧
      r.assignment (sampleOf unresolvedRules).params = .error e ∧ e.target = r.target) ∧
    ofDescription (sampleOf chainedRules) = .ok chainedAdapter ∧
      ∃ e, chainedAdapter.compile = .error e ∧
        (Blamed chainedAdapter.imp e ∨ Blamed chainedAdapter.request e) ∧
        ∃ r ∈ chainedRules, e.target = r.target := by
  constructor
  · obtain ⟨hresolve, -⟩ := refusal_blames (sampleOf unresolvedRules)
    obtain ⟨e, he⟩ : ∃ e, ofDescription (sampleOf unresolvedRules) = .error e := ⟨_, rfl⟩
    obtain ⟨pre, r, post, hsplit, -, hr, htarget⟩ := hresolve e he
    have hmem : r ∈ (sampleOf unresolvedRules).rules := by simp [hsplit]
    exact ⟨e, r, he, hmem, hr, htarget⟩
  · have ha : ofDescription (sampleOf chainedRules) = .ok chainedAdapter := rfl
    obtain ⟨-, hcompile⟩ := refusal_blames (sampleOf chainedRules)
    obtain ⟨e, he⟩ : ∃ e, chainedAdapter.compile = .error e := ⟨_, rfl⟩
    obtain ⟨hblamed, hrule⟩ := hcompile chainedAdapter e ha he
    exact ⟨ha, e, he, hblamed.imp (·.2) (·.2.2), hrule⟩

end Adapter

end AdapterForge

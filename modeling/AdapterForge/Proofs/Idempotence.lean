import AdapterForge.Proofs.PlanWriting

/-!
Modifying a request a second time changes nothing, as long as nothing is read where something is
written.
-/
namespace AdapterForge

section

variable {s t : Sources} {l m : List Assignment} {fields after : Fields Json}

theorem Assignment.write?_bind_of_target_eq {a b : Assignment} {v : Json}
    (h : a.target = b.target) (hv : a.value? s = some v) (fields : Fields Json) :
    (a.write? s fields).bind (b.write? s) = b.write? s fields := by
  unfold write?
  rw [hv, Option.bind_some, h]
  cases b.value? s with
  | none => cases Json.write? false fields b.target.segments v <;> rfl
  | some w => exact Json.write?_absorb b.target.segments fields

theorem foldlM_write?_cons {a : Assignment} (hsep : Separate (a :: l)) {v : Json}
    (hv : a.value? s = some v) (ha : ∃ b ∈ l, b.target = a.target) (fields : Fields Json) :
    (a :: l).foldlM (Assignment.write? s) fields = l.foldlM (Assignment.write? s) fields := by
  induction l generalizing fields with
  | nil =>
    obtain ⟨b, hb, -⟩ := ha
    cases hb
  | cons c l ih =>
    simp only [List.foldlM_cons, Option.bind_eq_bind]
    rw [← Option.bind_assoc]
    by_cases hc : c.target = a.target
    · rw [Assignment.write?_bind_of_target_eq hc.symm hv]
    · have hcomm : StepsCommute (Assignment.write? s) a c :=
        hsep.stepsCommute s (by simp) (by simp) (Ne.symm hc)
      -- a write apart from `a` goes first; the later one to the target of `a` is still to come
      have hlater : ∃ b ∈ l, b.target = a.target := by
        obtain ⟨b, hb, hba⟩ := ha
        rcases List.mem_cons.1 hb with rfl | hb
        · exact absurd hba hc
        · exact ⟨b, hb, hba⟩
      have hrest := ih (hsep.subset fun b hb => by
        rcases List.mem_cons.1 hb with rfl | hb <;> simp [*]) hlater
      simp only [List.foldlM_cons, Option.bind_eq_bind] at hrest
      rw [hcomm fields, Option.bind_assoc]
      congr 1
      funext next
      exact hrest next

theorem foldlM_write?_append (hsep : Separate l) (hm : ∀ a ∈ m, a ∈ l)
    (hv : ∀ a ∈ m, ∃ v, a.value? s = some v) (fields : Fields Json) :
    (m ++ l).foldlM (Assignment.write? s) fields = l.foldlM (Assignment.write? s) fields := by
  induction m generalizing fields with
  | nil => rfl
  | cons a m ih =>
    obtain ⟨v, hav⟩ := hv a (by simp)
    have hal : a ∈ l := hm a (by simp)
    have hml : ∀ b ∈ m, b ∈ l := fun b hb => hm b (List.mem_cons_of_mem _ hb)
    have hsep' : Separate (a :: (m ++ l)) := hsep.subset fun b hb => by
      rcases List.mem_cons.1 hb with rfl | hb
      · exact hal
      · exact (List.mem_append.1 hb).elim (hml b) id
    rw [List.cons_append, foldlM_write?_cons hsep' hav ⟨a, by simp [hal], rfl⟩]
    exact ih hml (fun b hb => hv b (List.mem_cons_of_mem _ hb)) fields

theorem exists_value?_of_foldlM (h : l.foldlM (Assignment.write? s) fields = some after) :
    ∀ a ∈ l, ∃ v, a.value? s = some v := by
  induction l generalizing fields with
  | nil => simp
  | cons a l ih =>
    rw [List.foldlM_cons, Option.bind_eq_bind, Option.bind_eq_some_iff] at h
    obtain ⟨next, ha, h⟩ := h
    obtain ⟨v, hv, -⟩ := Option.bind_eq_some_iff.1 ha
    intro b hb
    rcases List.mem_cons.1 hb with rfl | hb
    · exact ⟨v, hv⟩
    · exact ih h b hb

theorem foldlM_write?_congr (h : ∀ a ∈ l, a.value? s = a.value? t) (fields : Fields Json) :
    l.foldlM (Assignment.write? s) fields = l.foldlM (Assignment.write? t) fields := by
  induction l generalizing fields with
  | nil => rfl
  | cons a l ih =>
    rw [List.foldlM_cons, List.foldlM_cons, Assignment.write?, h a (by simp), ← Assignment.write?]
    congr 1
    funext next
    exact ih (fun b hb => h b (List.mem_cons_of_mem _ hb)) next

/-- The same writes again, with values that are still there, change nothing. -/
theorem foldlM_write?_again (hsep : Separate l)
    (h : l.foldlM (Assignment.write? s) fields = some after)
    (hread : ∀ a ∈ l, ∀ v, a.value? s = some v → a.value? t = some v) :
    l.foldlM (Assignment.write? t) after = some after := by
  have hvalue := exists_value?_of_foldlM h
  have hsame : ∀ a ∈ l, a.value? s = a.value? t := by
    intro a ha
    obtain ⟨v, hv⟩ := hvalue a ha
    rw [hv, hread a ha v hv]
  have htwice := foldlM_write?_append hsep (fun _ ha => ha) hvalue fields
  rw [List.foldlM_append, h] at htwice
  rw [← foldlM_write?_congr hsame]
  exact htwice

theorem follow?_foldlM_write? (h : l.foldlM (Assignment.write? s) fields = some after)
    {names : List String} (hl : ∀ a ∈ l, Apart names a.target.segments) {v : Json}
    (hv : (Json.object fields).follow? names = some v) :
    (Json.object after).follow? names = some v := by
  induction l generalizing fields with
  | nil =>
    obtain rfl : fields = after := by simpa using h
    exact hv
  | cons a l ih =>
    rw [List.foldlM_cons, Option.bind_eq_bind, Option.bind_eq_some_iff] at h
    obtain ⟨next, ha, h⟩ := h
    obtain ⟨w, -, ha⟩ := Option.bind_eq_some_iff.1 ha
    exact ih h (fun b hb => hl b (List.mem_cons_of_mem _ hb))
      (Json.follow?_write? ha (hl a (by simp)) hv)

theorem Assignment.value?_mono {a : Assignment} {v : Json} (hv : a.value? s = some v)
    (h : ∀ x, a.value = .copy x →
      (s.root? x.root).bind (·.follow? x.path.segments) = some v →
        (t.root? x.root).bind (·.follow? x.path.segments) = some v) :
    a.value? t = some v := by
  cases ha : a.value with
  | copy x =>
    rw [value?_of_copy ha] at hv ⊢
    exact h x ha hv
  | fixed w =>
    obtain ⟨y, hy, hv⟩ := Option.bind_eq_some_iff.1 hv
    rw [Outcome.toOption_eq_some] at hy
    rw [value?_of_operand hy]
    have hlit : ∃ z, y = .literal z := by
      unfold operand at hy
      rw [ha] at hy
      cases w <;> simp at hy <;> exact ⟨_, hy.symm⟩
    obtain ⟨z, rfl⟩ := hlit
    exact hv

end

/-- The field of an impression that a source reads; an extension lies in its impression. -/
def Source.impPath? (x : Source) : Option (List String) :=
  match x.root with
  | .imp => some x.path.segments
  | .impExt => some ("ext" :: "bidder" :: x.path.segments)
  | .request => none

def Source.requestPath? (x : Source) : Option (List String) :=
  match x.root with
  | .request => some x.path.segments
  | .imp | .impExt => none

def impReads (l : List Assignment) : List (List String) :=
  l.filterMap fun a => a.source?.bind (·.impPath?)

def requestReads (l : List Assignment) : List (List String) :=
  l.filterMap fun a => a.source?.bind (·.requestPath?)

theorem mem_impReads {l : List Assignment} {a : Assignment} (ha : a ∈ l) {x : Source}
    (hx : a.value = .copy x) {names : List String} (h : x.impPath? = some names) :
    names ∈ impReads l := by
  refine List.mem_filterMap.2 ⟨a, ha, ?_⟩
  simp only [Assignment.source?, hx, Option.bind_some, h]

theorem mem_requestReads {l : List Assignment} {a : Assignment} (ha : a ∈ l) {x : Source}
    (hx : a.value = .copy x) (h : x.root = .request) : x.path.segments ∈ requestReads l := by
  refine List.mem_filterMap.2 ⟨a, ha, ?_⟩
  simp only [Assignment.source?, hx, Option.bind_some, Source.requestPath?, h]

theorem follow?_bidderExt? (imp : Json) (p : FieldPath) :
    (bidderExt? imp).bind (·.follow? p.segments) =
      imp.follow? ("ext" :: "bidder" :: p.segments) := by
  unfold bidderExt?
  cases imp with
  | object fields =>
    have hget : (Json.object fields).get? "ext" = fields.get? "ext" := rfl
    rw [hget, Json.follow?_cons]
    cases fields.get? "ext" with
    | none => rfl
    | some ext =>
      cases ext with
      | object ext =>
        have hbidder : (Json.object ext).present? "bidder" = Json.nonNull? (ext.get? "bidder") := rfl
        rw [Option.bind_some, hbidder, Option.getD_some, Json.follow?_cons]
        cases ext.get? "bidder" with
        | none => rfl
        | some v => cases v <;> rfl
      | _ => rfl
  | _ => rfl

theorem root?_bind_follow? (imp : Json) (request : Option Json) {x : Source} {names : List String}
    (h : x.impPath? = some names) :
    (Sources.root? ⟨some imp, bidderExt? imp, request⟩ x.root).bind (·.follow? x.path.segments) =
      imp.follow? names := by
  unfold Source.impPath? at h
  split at h
  · next hx =>
    cases h
    rw [hx]
    rfl
  · next hx =>
    cases h
    rw [hx]
    exact follow?_bidderExt? imp x.path
  · cases h

theorem exists_impPath? {a : Assignment} (h : Scope.impression.Admits a) {x : Source}
    (hx : a.value = .copy x) : ∃ names, x.impPath? = some names := by
  unfold Source.impPath?
  rcases h.source_root x hx with hr | hr <;> rw [hr]
  · exact ⟨_, rfl⟩
  · exact ⟨_, rfl⟩

theorem Program.runImp_eq_ok {q : Program} {imp after : Json} {ext : Option Json}
    (h : q.runImp imp ext = .ok after) : ∃ base, imp = .object base := by
  cases imp with
  | object base => exact ⟨base, rfl⟩
  | _ => cases h

/-- What becomes of an impression, and what can still be read there. -/
structure Settled (c : Compiled) (targets : List Assignment) (imp after : Json) : Prop where
  again : c.runImp after = .ok after
  reads : ∀ names, (∀ b ∈ targets, Apart names b.target.segments) → ∀ v,
    imp.follow? names = some v → after.follow? names = some v

namespace Compiled

variable {c : Compiled} {p : Plan} {os : List Override} {l : List Assignment}

theorem settled_of_runImp (hc : c.imp = programOf p os) (h : Plan.ofAssignments .impression l = .ok p)
    (hadmits : ∀ a ∈ p.assignments, Scope.impression.Admits a)
    (hos : p.overrides .firstImp = .ok os)
    (hreads : ∀ names ∈ impReads p.assignments, ∀ b ∈ p.assignments,
      Apart names b.target.segments)
    {imp after : Json} (hrun : c.runImp imp = .ok after) : Settled c p.assignments imp after := by
  cases he : p.isEmpty with
  | true =>
    rw [runImp_of_isEmpty hc he] at hrun
    cases hrun
    exact ⟨runImp_of_isEmpty hc he imp, fun _ _ _ h => h⟩
  | false =>
    have hprogram := runImp_of_isEmpty_eq_false hc he
    rw [hprogram] at hrun
    obtain ⟨base, rfl⟩ := Program.runImp_eq_ok hrun
    have hwrites := Plan.runImp_writes h hadmits hos base (bidderExt? (.object base))
    rw [hrun] at hwrites
    obtain ⟨fields, hfields, rfl⟩ := Option.map_eq_some_iff.1 hwrites.symm
    have hkept : ∀ names, (∀ b ∈ p.assignments, Apart names b.target.segments) → ∀ v,
        (Json.object base).follow? names = some v → (Json.object fields).follow? names = some v :=
      fun names hnames v => follow?_foldlM_write? hfields hnames
    have hread : ∀ a ∈ p.assignments, ∀ v,
        a.value? ⟨some (.object base), bidderExt? (.object base), none⟩ = some v →
        a.value? ⟨some (.object fields), bidderExt? (.object fields), none⟩ = some v := by
      intro a ha v hv
      refine Assignment.value?_mono hv fun x hx hfollow => ?_
      obtain ⟨names, hnames⟩ := exists_impPath? (hadmits a ha) hx
      rw [root?_bind_follow? _ _ hnames] at hfollow ⊢
      exact hkept names (hreads names (mem_impReads ha hx hnames)) v hfollow
    refine ⟨?_, hkept⟩
    have hagain := foldlM_write?_again (Plan.separate_assignments h) hfields hread
    rw [hprogram, ← Outcome.toOption_eq_some, Plan.runImp_writes h hadmits hos, hagain]
    rfl

theorem value?_requestWrites (hadmits : ∀ a ∈ p.assignments, Scope.request.Admits a)
    (hreads : ∀ names ∈ requestReads p.assignments, ∀ b ∈ p.assignments,
      Apart names b.target.segments)
    {request builder after : Fields Json}
    (hbuilder : ∀ k, k ≠ "imp" → builder.get? k = request.get? k)
    {exts exts' : List (Option Json)}
    (hexts : ∀ a ∈ p.assignments, ∀ x, a.value = .copy x → x.root = .impExt → ∀ v,
      exts.head?.join.bind (·.follow? x.path.segments) = some v →
        exts'.head?.join.bind (·.follow? x.path.segments) = some v)
    {s : Sources} (hafter : p.assignments.foldlM (Assignment.write? s) builder = some after)
    {a : Assignment} (ha : a ∈ p.assignments) {v : Json}
    (hv : a.value? ⟨none, exts.head?.join, some (.object request)⟩ = some v) :
    a.value? ⟨none, exts'.head?.join, some (.object after)⟩ = some v := by
  refine Assignment.value?_mono hv fun x hx hfollow => ?_
  rcases (hadmits a ha).source_root x hx with hroot | hroot
  · rw [hroot] at hfollow ⊢
    exact hexts a ha x hx hroot v hfollow
  -- no field that is read lies on the way to a write, so it is still there
  · have hne := (hadmits a ha).source_ne x hx hroot
    rw [hroot] at hfollow ⊢
    apply follow?_foldlM_write? hafter (hreads _ (mem_requestReads ha hx hroot))
    have hget := hbuilder x.path.first hne
    have hrequest : (Json.object request).follow? x.path.segments = some v := hfollow
    rw [FieldPath.segments, Json.follow?_cons] at hrequest ⊢
    rw [hget]
    exact hrequest

theorem finish_again (hc : c.request = programOf p os)
    (h : Plan.ofAssignments .request l = .ok p)
    (hadmits : ∀ a ∈ p.assignments, Scope.request.Admits a) (hos : p.overrides .request = .ok os)
    (hreads : ∀ names ∈ requestReads p.assignments, ∀ b ∈ p.assignments,
      Apart names b.target.segments)
    {request builder : Fields Json} (hbuilder : ∀ k, k ≠ "imp" → builder.get? k = request.get? k)
    {exts exts' : List (Option Json)}
    (hexts : ∀ a ∈ p.assignments, ∀ x, a.value = .copy x → x.root = .impExt → ∀ v,
      exts.head?.join.bind (·.follow? x.path.segments) = some v →
        exts'.head?.join.bind (·.follow? x.path.segments) = some v)
    {r : Json} (hrun : c.finish request builder exts = .ok r) :
    ∃ after, r = .object after ∧ after.get? "imp" = builder.get? "imp" ∧
      c.finish after after exts' = .ok r := by
  cases he : p.isEmpty with
  | true =>
    rw [finish_of_isEmpty hc he] at hrun
    cases hrun
    exact ⟨builder, rfl, rfl, finish_of_isEmpty hc he _ _ _⟩
  | false =>
    have hprogram := finish_of_isEmpty_eq_false hc he
    rw [hprogram] at hrun
    have hwrites := Plan.runRequest_writes h hadmits hos hbuilder exts
    rw [hrun] at hwrites
    obtain ⟨after, hafter, rfl⟩ := Option.map_eq_some_iff.1 hwrites.symm
    have himp : after.get? "imp" = builder.get? "imp" := by
      have hdig : (Json.object after).dig? ["imp"] = (Json.object builder).dig? ["imp"] :=
        dig?_foldlM_write? hafter fun a ha =>
          apart_cons.2 (.inl ((hadmits a ha).target_ne rfl).symm)
      simpa [Json.dig?, Json.get?] using hdig
    refine ⟨after, rfl, himp, ?_⟩
    have hagain := foldlM_write?_again (Plan.separate_assignments h) hafter fun a ha v hv =>
      value?_requestWrites hadmits hreads hbuilder hexts hafter ha hv
    rw [hprogram, ← Outcome.toOption_eq_some,
      Plan.runRequest_writes h hadmits hos (fun _ _ => rfl), hagain]
    rfl

theorem impressions_of_not_contains {request : Fields Json} (h : request.get? "imp" = none) :
    impressions request = .ok [] := by
  simp only [impressions, h]

theorem run_settled {request after : Fields Json} {imps modified : List Json} {r : Json}
    (himps : impressions request = .ok imps)
    (hsettled : List.Forall₂ (Settled c p.assignments) imps modified)
    (hget : after.get? "imp" =
      (if request.contains "imp" then request.set "imp" (.array modified) else request).get? "imp")
    (hagain : c.finish after after (modified.map bidderExt?) = .ok r) :
    c.run (.object after) = .ok r := by
  by_cases hcontains : request.contains "imp" = true
  · rw [if_pos hcontains, Fields.get?_set, if_pos rfl] at hget
    have hmodified : modified.mapM c.runImp = .ok modified := by
      rw [Outcome.mapM_eq_ok_iff, List.forall₂_same]
      intro v hv
      obtain ⟨imp, -, himp⟩ := Outcome.exists_of_forall₂ hsettled hv
      exact himp.again
    rw [run_of_get? c hget, hmodified]
    exact (congrArg (c.finish after · _) (Fields.set_of_get? hget)).trans hagain
  · have hnone : request.get? "imp" = none := by simpa [Fields.contains_eq] using hcontains
    rw [if_neg hcontains, hnone] at hget
    rw [impressions_of_not_contains hnone] at himps
    cases himps
    cases hsettled
    have hafter : ¬ after.contains "imp" = true := by simp [Fields.contains_eq, hget]
    simp only [run_object, impressions_of_not_contains hget, if_neg hafter]
    exact hagain

end Compiled

theorem Settled.reads_ext {c : Compiled} {targets : List Assignment} {imps modified : List Json}
    (h : List.Forall₂ (Settled c targets) imps modified) {p : FieldPath}
    (hp : ∀ b ∈ targets, Apart ("ext" :: "bidder" :: p.segments) b.target.segments) {v : Json}
    (hv : (imps.map bidderExt?).head?.join.bind (·.follow? p.segments) = some v) :
    (modified.map bidderExt?).head?.join.bind (·.follow? p.segments) = some v := by
  cases h with
  | nil => exact hv
  | @cons imp after imps modified hfirst _ =>
    have hbefore : (bidderExt? imp).bind (·.follow? p.segments) = some v := hv
    rw [follow?_bidderExt?] at hbefore
    have hafter := hfirst.reads _ hp v hbefore
    rw [← follow?_bidderExt?] at hafter
    exact hafter

instance {p q : List String} : Decidable (Apart p q) := inferInstanceAs (Decidable (_ ∧ _))

/-- Nothing is read where something is written. -/
def Adapter.ReadsApart (a : Adapter) : Prop :=
  (∀ names ∈ impReads (a.imp ++ a.request), ∀ b ∈ Plan.writing a.imp,
    Apart names b.target.segments) ∧
  ∀ names ∈ requestReads a.request, ∀ b ∈ Plan.writing a.request, Apart names b.target.segments

instance (a : Adapter) : Decidable a.ReadsApart := inferInstanceAs (Decidable (_ ∧ _))

theorem Adapter.run_idempotent {a : Adapter} {impRules requestRules : List Rule}
    (himp : impRules.mapM (Rule.resolve .impression) = .ok a.imp)
    (hrequest : requestRules.mapM (Rule.resolve .request) = .ok a.request) {c : Compiled}
    (hc : a.compile = .ok c) (hapart : a.ReadsApart) {bidRequest r : Json}
    (hrun : c.run bidRequest = .ok r) : c.run r = .ok r := by
  obtain ⟨p, q, first, rest, hp, hq, hfirst, hrest, hcompiled⟩ := compile_eq_ok hc
  have hpadmits := Plan.admits_assignments hp (admits_of_resolved himp)
  have hqadmits := Plan.admits_assignments hq (admits_of_resolved hrequest)
  have hpreads : ∀ names ∈ impReads (a.imp ++ a.request), ∀ b ∈ p.assignments,
      Apart names b.target.segments := fun names hnames b hb =>
    hapart.1 names hnames b ((Plan.assignments_perm hp).mem_iff.1 hb)
  have hqreads : ∀ names ∈ requestReads a.request, ∀ b ∈ q.assignments,
      Apart names b.target.segments := fun names hnames b hb =>
    hapart.2 names hnames b ((Plan.assignments_perm hq).mem_iff.1 hb)
  have hpimp : p.assignments ⊆ a.imp ++ a.request := fun b hb =>
    List.mem_append_left _ ((Plan.mem_assignments hp).1 hb).1
  have hqrequest : q.assignments ⊆ a.request := fun b hb =>
    ((Plan.mem_assignments hq).1 hb).1
  obtain ⟨request, rfl⟩ : ∃ request, bidRequest = .object request := by
    cases bidRequest with
    | object request => exact ⟨request, rfl⟩
    | _ => cases hrun
  rw [Compiled.run_object, Outcome.bind_eq_ok] at hrun
  obtain ⟨imps, himps, hrun⟩ := hrun
  obtain ⟨modified, hmodified, hfinish⟩ := Outcome.bind_eq_ok.1 hrun
  have hsettled : List.Forall₂ (Settled c p.assignments) imps modified :=
    (Outcome.mapM_eq_ok_iff.1 hmodified).imp fun _ _ =>
      Compiled.settled_of_runImp (congrArg Compiled.imp hcompiled) hp hpadmits hfirst
        fun names hnames => hpreads names (List.filterMap_subset _ hpimp hnames)
  have hbuilder : ∀ k, k ≠ "imp" →
      (if request.contains "imp" then request.set "imp" (.array modified) else request).get? k =
        request.get? k := by
    intro k hk
    split
    · rw [Fields.get?_set, if_neg hk]
    · rfl
  have hexts : ∀ b ∈ q.assignments, ∀ x, b.value = .copy x → x.root = .impExt → ∀ v,
      (imps.map bidderExt?).head?.join.bind (·.follow? x.path.segments) = some v →
        (modified.map bidderExt?).head?.join.bind (·.follow? x.path.segments) = some v := by
    intro b hb x hx hroot v hv
    have hpath : x.impPath? = some ("ext" :: "bidder" :: x.path.segments) := by
      rw [Source.impPath?, hroot]
    exact Settled.reads_ext hsettled
      (hpreads _ (mem_impReads (List.mem_append_right _ (hqrequest hb)) hx hpath)) hv
  obtain ⟨after, rfl, hget, hagain⟩ := Compiled.finish_again (congrArg Compiled.request hcompiled)
    hq hqadmits hrest (fun names hnames => hqreads names (List.filterMap_subset _ hqrequest hnames))
    hbuilder hexts hfinish
  exact Compiled.run_settled himps hsettled hget hagain

theorem Adapter.run_idempotent_sample :
    ∃ c r, sampleAdapter.compile = .ok c ∧ c.run (.object sampleRequest) = .ok r ∧
      c.run r = .ok r := by
  obtain ⟨c, r, hc, hrun⟩ : ∃ c r, sampleAdapter.compile = .ok c ∧
      c.run (.object sampleRequest) = .ok r := ⟨_, _, rfl, rfl⟩
  exact ⟨c, r, hc, hrun, Adapter.run_idempotent sampleImpRules_resolve sampleRequestRules_resolve hc
    (by decide +kernel) hrun⟩

end AdapterForge

import AdapterForge.Proofs.PipelineAgreement
import AdapterForge.Proofs.Shape

/-!
A program does what its assignments do one at a time, each as a write of its own.
-/
namespace AdapterForge

theorem Sources.toOption_readFrom (whole : Source) (done : List String) (v : Json)
    (names : List String) : (readFrom whole done v names).toOption = v.follow? names := by
  induction names generalizing done v with
  | nil => cases v <;> rfl
  | cons k r ih =>
    cases v with
    | object fields => exact ih (done ++ [k]) ((fields.get? k).getD .null)
    | _ => rfl

theorem Sources.toOption_read (s : Sources) (x : Source) :
    (s.read x).toOption = (s.root? x.root).bind (·.follow? x.path.segments) := by
  unfold read
  cases s.root? x.root with
  | none => rfl
  | some v => exact toOption_readFrom x [] v x.path.segments

namespace Assignment

def value? (s : Sources) (a : Assignment) : Option Json :=
  a.operand.toOption.bind fun x => (s.eval x).toOption

/-- An assignment as a write to an object that part of its path has led to. -/
def writeFrom? (s : Sources) (raw : Bool) (index : Nat) (fields : Fields Json) (a : Assignment) :
    Option (Fields Json) :=
  (a.value? s).bind (Json.write? raw fields (a.target.segments.drop index))

def write? (s : Sources) (fields : Fields Json) (a : Assignment) : Option (Fields Json) :=
  (a.value? s).bind (Json.write? false fields a.target.segments)

theorem stepsCommute_of_apart {s : Sources} {raw : Bool} {index : Nat} {a b : Assignment}
    (h : Apart (a.target.segments.drop index) (b.target.segments.drop index)) :
    StepsCommute (writeFrom? s raw index) a b := by
  intro fields
  unfold writeFrom?
  cases a.value? s with
  | none => cases b.value? s <;> simp
  | some v =>
    cases b.value? s with
    | none => simp
    | some w => exact Json.write?_comm h fields

end Assignment

theorem Separate.stepsCommute {l : List Assignment} (h : Separate l) (s : Sources)
    {a b : Assignment} (ha : a ∈ l) (hb : b ∈ l) (hab : a.target ≠ b.target) :
    StepsCommute (Assignment.write? s) a b :=
  @Assignment.stepsCommute_of_apart s false 0 a b (h.apart ha hb hab)

/-- Whether names lead to an `ext` field or below one. -/
def throughExt (names : List String) : Bool := ObjectKind.along none names = some .json

theorem isJson_ofField (names : List String) (k : String) :
    (ObjectKind.ofField k (ObjectKind.along none names)).isJson =
      (throughExt names || decide (k = "ext")) := by
  by_cases hk : k = "ext"
  · simp [ObjectKind.ofField, hk, ObjectKind.isJson]
  · by_cases hn : ObjectKind.along none names = some .json <;>
      simp [ObjectKind.ofField, hk, hn, throughExt, ObjectKind.isJson]

theorem throughExt_append (names : List String) (k : String) :
    throughExt (names ++ [k]) = (throughExt names || decide (k = "ext")) := by
  rw [← isJson_ofField, throughExt, ObjectKind.along_append]
  cases ObjectKind.ofField k (ObjectKind.along none names) <;> simp [ObjectKind.isJson]

section

variable {t : Sources} {bidRequest given : Json} {root : ExpectedRoot}

theorem toOption_expectedSeed (h : givenRoot t bidRequest root = some given) (names : List String)
    (k : String) :
    (expectedSeed t bidRequest root (stepsTo (names ++ [k]))).toOption =
      Json.opened? (throughExt (names ++ [k])) ((given.at? names).bind (·.get? k)) := by
  rw [expectedSeed_eq h, stepsTo, map_field_stepsFrom, ← stepsTo, kindAfter_stepsTo, isJson_ofField,
    ← throughExt_append, Json.at?_concat]
  cases (given.at? names).bind (·.get? k) with
  | none => rfl
  | some v => cases v <;> cases throughExt (names ++ [k]) <;> rfl

theorem get?_of_expectedSeed (h : givenRoot t bidRequest root = some given) {names : List String}
    {k : String} {seed : Fields Json}
    (hseed : expectedSeed t bidRequest root (stepsTo (names ++ [k])) = .ok seed) (j : String) :
    seed.get? j = (given.at? (names ++ [k])).bind (·.get? j) := by
  rw [← Outcome.toOption_eq_some, toOption_expectedSeed h] at hseed
  rw [Json.get?_of_opened? hseed, Json.at?_concat, Json.nonNull?_bind_get?]

theorem evalOverrides_append (l r : List Override) (fields : Fields Json) :
    evalOverrides t bidRequest (l ++ r) fields =
      evalOverrides t bidRequest l fields >>= evalOverrides t bidRequest r := by
  induction l generalizing fields with
  | nil => rfl
  | cons o l ih =>
    cases o with
    | value k x =>
      simp only [List.cons_append, evalOverrides]
      cases t.eval x with
      | error e => rfl
      | ok v => exact ih _
    | object k o =>
      simp only [List.cons_append, evalOverrides]
      cases o.eval t bidRequest with
      | error e => rfl
      | ok g => exact ih _
    | singleImp o =>
      simp only [List.cons_append, evalOverrides]
      cases o.eval t bidRequest with
      | error e => rfl
      | ok g => exact ih _

variable {index : Nat} {k : String} {items : List Assignment}

theorem Assignment.get?_writeFrom?_of_ne {raw : Bool} {a : Assignment} {fields after : Fields Json}
    (hk : a.target.segment? index = some k) (h : a.writeFrom? t raw index fields = some after)
    {j : String} (hj : j ≠ k) : after.get? j = fields.get? j := by
  obtain ⟨v, -, h⟩ := Option.bind_eq_some_iff.1 h
  rw [FieldPath.drop_segments hk] at h
  exact Json.get?_write?_of_ne h hj

theorem get?_foldlM_writeFrom?_of_ne {raw : Bool} {fields after : Fields Json}
    (hk : ∀ a ∈ items, a.target.segment? index = some k)
    (h : items.foldlM (Assignment.writeFrom? t raw index) fields = some after) {j : String}
    (hj : j ≠ k) : after.get? j = fields.get? j :=
  view_foldlM (·.get? j) (fun a ha _ _ hwrite => Assignment.get?_writeFrom?_of_ne (hk a ha) hwrite hj) h

theorem Assignment.value?_of_operand {a : Assignment} {x : Operand} (h : a.operand = .ok x) :
    a.value? t = (t.eval x).toOption := by
  rw [value?, h]
  rfl

theorem toOption_evalOverrides_leaves {values : List Operand}
    (hleaf : ∀ a ∈ items, a.target.depth = index + 1)
    (hk : ∀ a ∈ items, a.target.segment? index = some k)
    (h : List.Forall₂ (fun (a : Assignment) x => a.operand = .ok x) items values) (raw : Bool)
    (fields : Fields Json) :
    (evalOverrides t bidRequest (values.map (.value k)) fields).toOption =
      items.foldlM (Assignment.writeFrom? t raw index) fields := by
  induction h generalizing fields with
  | nil => rfl
  | @cons a x items values hax _ ih =>
    have hdrop : a.target.segments.drop index = [k] := by
      have hnil := (FieldPath.drop_succ_eq_nil_iff (by rw [hleaf a (by simp)]; omega)).2
        (hleaf a (by simp))
      rw [FieldPath.drop_segments (hk a (by simp)), hnil]
    have hrest := ih (fun b hb => hleaf b (List.mem_cons_of_mem _ hb)) fun b hb =>
      hk b (List.mem_cons_of_mem _ hb)
    rw [List.map_cons, evalOverrides, Outcome.toOption_bind, List.foldlM_cons,
      Assignment.writeFrom?, Assignment.value?_of_operand hax, hdrop]
    cases (t.eval x).toOption with
    | none => rfl
    | some v => exact hrest (Json.put fields k v)

theorem Assignment.writeFrom?_succ {a : Assignment} {raw : Bool} (fields : Fields Json)
    (hk : a.target.segment? index = some k) (hn : a.target.depth ≠ index + 1) :
    a.writeFrom? t raw index fields =
      (Json.opened? (raw || k = "ext") (fields.get? k)).bind fun inner =>
        (a.writeFrom? t (raw || k = "ext") (index + 1) inner).map fun inner =>
          fields.set k (.object inner) := by
  have hne : a.target.segments.drop (index + 1) ≠ [] := by
    obtain ⟨hlt, -⟩ := List.getElem?_eq_some_iff.1 hk
    exact fun h => hn ((FieldPath.drop_succ_eq_nil_iff hlt).1 h)
  unfold writeFrom?
  rw [FieldPath.drop_segments hk]
  cases a.value? t with
  | none => cases Json.opened? (raw || k = "ext") (fields.get? k) <;> rfl
  | some v => exact Json.write?_cons raw fields k v hne

theorem foldlM_writeFrom?_succ {raw : Bool} (hne : items ≠ [])
    (hk : ∀ a ∈ items, a.target.segment? index = some k)
    (hn : ∀ a ∈ items, a.target.depth ≠ index + 1) (fields : Fields Json) :
    items.foldlM (Assignment.writeFrom? t raw index) fields =
      (Json.opened? (raw || k = "ext") (fields.get? k)).bind fun inner =>
        (items.foldlM (Assignment.writeFrom? t (raw || k = "ext") (index + 1)) inner).map
          fun inner => fields.set k (.object inner) := by
  induction items generalizing fields with
  | nil => exact absurd rfl hne
  | cons a items ih =>
    simp only [List.foldlM_cons, Option.bind_eq_bind]
    rw [Assignment.writeFrom?_succ fields (hk a (by simp)) (hn a (by simp)), Option.bind_assoc]
    congr 1
    funext inner
    rw [Option.bind_map, Option.map_bind]
    congr 1
    funext inner'
    by_cases hi : items = []
    · subst hi
      rfl
    · have hrest := ih hi (fun b hb => hk b (List.mem_cons_of_mem _ hb))
        (fun b hb => hn b (List.mem_cons_of_mem _ hb)) (fields.set k (.object inner'))
      rw [Function.comp_apply, hrest, Fields.get?_set, if_pos rfl, Json.opened?_object,
        Option.bind_some]
      simp only [Fields.set_set]
      rfl

theorem toOption_evalOverrides_flatten {raw : Bool} {groups : List (String × List Assignment)}
    {parts : List (List Override)} (held : String → Option Json)
    (hkeys : (groups.map (·.1)).Nodup)
    (hk : ∀ g ∈ groups, ∀ a ∈ g.2, a.target.segment? index = some g.1)
    (h : List.Forall₂ (fun g part => ∀ fields : Fields Json, fields.get? g.1 = held g.1 →
      (evalOverrides t bidRequest part fields).toOption =
        g.2.foldlM (Assignment.writeFrom? t raw index) fields) groups parts)
    {fields : Fields Json} (hfields : ∀ g ∈ groups, fields.get? g.1 = held g.1) :
    (evalOverrides t bidRequest parts.flatten fields).toOption =
      (groups.flatMap (·.2)).foldlM (Assignment.writeFrom? t raw index) fields := by
  induction h generalizing fields with
  | nil => rfl
  | @cons g part groups parts hpart _ ih =>
    rw [List.map_cons, List.nodup_cons] at hkeys
    rw [List.flatten_cons, evalOverrides_append, Outcome.toOption_bind,
      hpart fields (hfields g (by simp)), List.flatMap_cons, List.foldlM_append]
    cases hg : g.2.foldlM (Assignment.writeFrom? t raw index) fields with
    | none => rfl
    | some after =>
      refine ih hkeys.2 (fun g' hg' => hk g' (List.mem_cons_of_mem _ hg')) ?_
      intro g' hg'
      have hne : g'.1 ≠ g.1 := fun e => hkeys.1 (e ▸ List.mem_map_of_mem hg')
      rw [get?_foldlM_writeFrom?_of_ne (hk g (by simp)) hg hne]
      exact hfields g' (List.mem_cons_of_mem _ hg')

theorem toOption_evalOverrides_object (fields : Fields Json) (names : List String) (k : String)
    (inner : List Override) :
    (evalOverrides t bidRequest [.object k (.mk root (stepsTo (names ++ [k])) inner)]
        fields).toOption =
      (expectedSeed t bidRequest root (stepsTo (names ++ [k]))).toOption.bind fun seed =>
        (evalOverrides t bidRequest inner seed).toOption.map fun g =>
          fields.set k (.object g) := by
  simp only [evalOverrides, ExpectedObject.eval, Outcome.toOption_bind, Option.bind_assoc]
  congr 1
  funext seed
  cases (evalOverrides t bidRequest inner seed).toOption <;> rfl

theorem Assignment.stepsCommute_of_segment?_ne {raw : Bool} {a b : Assignment}
    (ha : index < a.target.depth) (hb : index < b.target.depth)
    (hab : a.target.segment? index ≠ b.target.segment? index) :
    StepsCommute (writeFrom? t raw index) a b := by
  obtain ⟨k, hk⟩ := FieldPath.exists_segment? ha
  obtain ⟨j, hj⟩ := FieldPath.exists_segment? hb
  apply stepsCommute_of_apart
  rw [FieldPath.drop_segments hk, FieldPath.drop_segments hj]
  refine apart_cons.2 (.inl fun e => hab ?_)
  rw [hk, hj, e]

/-- A group of writes below one field is a write of that field. -/
theorem toOption_evalOverrides_nested (hgiven : givenRoot t bidRequest root = some given)
    {names : List String} {inner : List Override} (hne : items ≠ [])
    (hk : ∀ a ∈ items, a.target.segment? index = some k)
    (hn : ∀ a ∈ items, a.target.depth ≠ index + 1)
    (hinner : ∀ seed : Fields Json,
      (∀ j, seed.get? j = (given.at? (names ++ [k])).bind (·.get? j)) →
      (evalOverrides t bidRequest inner seed).toOption =
        items.foldlM (Assignment.writeFrom? t (throughExt (names ++ [k])) (index + 1)) seed)
    {fields : Fields Json} (hheld : fields.get? k = (given.at? names).bind (·.get? k)) :
    (evalOverrides t bidRequest [.object k (.mk root (stepsTo (names ++ [k])) inner)]
        fields).toOption =
      items.foldlM (Assignment.writeFrom? t (throughExt names) index) fields := by
  rw [toOption_evalOverrides_object, foldlM_writeFrom?_succ hne hk hn, hheld, ← throughExt_append,
    ← toOption_expectedSeed hgiven]
  cases hs : expectedSeed t bidRequest root (stepsTo (names ++ [k])) with
  | error e => rfl
  | ok seed => exact congrArg (Option.map _) (hinner seed (get?_of_expectedSeed hgiven hs))

/-- The overrides for a list of assignments do what its writes do one at a time. -/
theorem toOption_evalOverrides (hgiven : givenRoot t bidRequest root = some given) {levels : Nat}
    {names : List String} {l : List Assignment} {os : List Override}
    (h : overridesOf levels root (stepsTo names) index l = .ok os)
    (hdepth : EndsWithin levels index (·.target) l)
    {fields : Fields Json}
    (hfields : ∀ a ∈ l, ∀ k, a.target.segment? index = some k →
      fields.get? k = (given.at? names).bind (·.get? k)) :
    (evalOverrides t bidRequest os fields).toOption =
      l.foldlM (Assignment.writeFrom? t (throughExt names) index) fields := by
  induction levels generalizing index names l os fields with
  | zero =>
    cases h
    rw [hdepth.eq_nil]
    rfl
  | succ levels ih =>
    obtain ⟨parts, hparts, rfl⟩ := overridesOf_eq_ok h
    have hsome : ∀ a ∈ l, (a.target.segment? index).isSome := fun a ha =>
      Option.isSome_iff_exists.2 (FieldPath.exists_segment? (hdepth a ha).1)
    -- the overrides regroup the writes; writes of different groups go to different fields
    rw [foldlM_groupBySegment hsome fun a ha b hb =>
      Assignment.stepsCommute_of_segment?_ne (hdepth a ha).1 (hdepth b hb).1]
    refine toOption_evalOverrides_flatten (fun k => (given.at? names).bind (·.get? k))
      (groupBySegment_keys_nodup l) (fun g hg a ha => ((mem_group_iff hg).1 ha).2)
      (Outcome.forall₂_imp_of_mem hparts ?_) ?_
    · intro g hg part hmade fields hheld
      have hk : ∀ a ∈ g.2, a.target.segment? index = some g.1 := fun a ha =>
        ((mem_group_iff hg).1 ha).2
      cases hmade with
      | leaves hleaf hvalues => exact toOption_evalOverrides_leaves hleaf hk hvalues _ fields
      | @nested k items inner hn hinner =>
        have hdeep := hdepth.group hg hn
        -- the seed holds what the given object holds, so the invariant starts again below
        exact toOption_evalOverrides_nested hgiven (group_ne_nil hg) hk hn
          (fun seed hseed => ih hinner hdeep fun a _ j _ => hseed j) hheld
    · intro g hg
      obtain ⟨a, ha⟩ := List.exists_mem_of_ne_nil _ (group_ne_nil hg)
      obtain ⟨ha, hk⟩ := (mem_group_iff hg).1 ha
      exact hfields a ha g.1 hk

end

namespace Plan

variable {scope : Scope} {l : List Assignment} {p : Plan}

theorem toOption_evalOverrides {root : ExpectedRoot} {os : List Override}
    (h : ofAssignments scope l = .ok p) (hos : p.overrides root = .ok os) {t : Sources}
    {bidRequest : Json} {given fields : Fields Json}
    (hgiven : givenRoot t bidRequest root = some (.object given))
    (hfields : ∀ a ∈ p.assignments, fields.get? a.target.first = given.get? a.target.first) :
    (evalOverrides t bidRequest os fields).toOption =
      p.assignments.foldlM (Assignment.write? t) fields := by
  obtain ⟨parts, hparts, rfl⟩ := overrides_eq_ok hos
  have hk : ∀ g ∈ p.keyed, ∀ a ∈ g.2, a.target.segment? 0 = some g.1 := fun g hg a ha =>
    segment?_of_mem_keyed h hg ha
  have hpart : ∀ g ∈ p.keyed, ∀ part,
      overridesOf (AdapterForge.maxDepth g.2) root (stepsTo []) 0 g.2 = .ok part →
      ∀ fields : Fields Json, fields.get? g.1 = given.get? g.1 →
        (evalOverrides t bidRequest part fields).toOption =
          g.2.foldlM (Assignment.writeFrom? t false 0) fields := by
    intro g hg part hpart fields hheld
    refine AdapterForge.toOption_evalOverrides hgiven hpart (endsWithin_maxDepth _ g.2) ?_
    intro a ha k hak
    obtain rfl : g.1 = k := by simpa [hk g hg a ha] using hak
    exact hheld
  have hheld : ∀ g ∈ p.keyed, fields.get? g.1 = given.get? g.1 := by
    intro g hg
    obtain ⟨a, ha⟩ := exists_mem_of_mem_keyed h hg
    have hfirst : a.target.first = g.1 := Option.some.inj (hk g hg a ha)
    rw [← hfirst]
    apply hfields a
    rw [← p.flatMap_keyed]
    exact List.mem_flatMap.2 ⟨g, hg, ha⟩
  rw [← p.flatMap_keyed]
  exact toOption_evalOverrides_flatten given.get? (keys_nodup h) hk
    (Outcome.forall₂_imp_of_mem hparts hpart) hheld

end Plan

section

variable {s : Sources} {l : List Assignment} {fields after : Fields Json}

theorem foldlM_eq_none {α β : Type} {step : β → α → Option β} {l : List α} {a : α} (ha : a ∈ l)
    (h : ∀ b, step b a = none) (b : β) : l.foldlM step b = none := by
  induction l generalizing b with
  | nil => cases ha
  | cons c l ih =>
    rw [List.foldlM_cons]
    rcases List.mem_cons.1 ha with rfl | ha
    · rw [h b]
      rfl
    · cases step b c with
      | none => rfl
      | some d => exact ih ha d

theorem dig?_foldlM_write? (h : l.foldlM (Assignment.write? s) fields = some after)
    {names : List String} (hl : ∀ a ∈ l, Apart names a.target.segments) :
    (Json.object after).dig? names = (Json.object fields).dig? names := by
  refine view_foldlM (fun f => (Json.object f).dig? names) (fun a ha f g hwrite => ?_) h
  obtain ⟨v, -, hwrite⟩ := Option.bind_eq_some_iff.1 hwrite
  exact Json.dig?_write? hwrite (hl a ha)

/-- Writes that find their values and are not blocked at the start do not block each other. -/
theorem exists_foldlM_write? (hsep : Separate l) (hv : ∀ a ∈ l, ∃ v, a.value? s = some v)
    (hopens : ∀ a ∈ l, Json.OpensAbove false fields a.target.segments) :
    ∃ after, l.foldlM (Assignment.write? s) fields = some after := by
  induction l generalizing fields with
  | nil => exact ⟨fields, rfl⟩
  | cons a l ih =>
    obtain ⟨v, hav⟩ := hv a (by simp)
    obtain ⟨next, hnext⟩ := (hopens a (by simp)).exists_write? a.target.segments_ne_nil v
    have hrest : ∀ b ∈ l, Json.OpensAbove false next b.target.segments := by
      intro b hb
      refine (hopens b (List.mem_cons_of_mem _ hb)).write? hnext fun hab => ?_
      rw [hsep a (by simp) b (List.mem_cons_of_mem _ hb) hab]
    obtain ⟨after, hafter⟩ := ih (hsep.subset fun b hb => List.mem_cons_of_mem _ hb)
      (fun b hb => hv b (List.mem_cons_of_mem _ hb)) hrest
    refine ⟨after, ?_⟩
    rw [List.foldlM_cons, Assignment.write?, hav, Option.bind_some, hnext]
    exact hafter

theorem dig?_foldlM_last (hsep : Separate l) (h : l.foldlM (Assignment.write? s) fields = some after)
    {pre post : List Assignment} {a : Assignment} (hl : l = pre ++ a :: post)
    (hlast : ∀ b ∈ post, b.target ≠ a.target) :
    ∃ v, a.value? s = some v ∧
      (Json.object after).dig? a.target.segments = Json.nonNull? (some v) := by
  subst hl
  rw [List.foldlM_append, Option.bind_eq_bind, Option.bind_eq_some_iff] at h
  obtain ⟨before, -, h⟩ := h
  rw [List.foldlM_cons, Option.bind_eq_bind, Option.bind_eq_some_iff] at h
  obtain ⟨next, ha, h⟩ := h
  obtain ⟨v, hv, ha⟩ := Option.bind_eq_some_iff.1 ha
  refine ⟨v, hv, ?_⟩
  rw [dig?_foldlM_write? h, Json.dig?_write?_self ha]
  intro b hb
  exact hsep.apart (by simp) (by simp [hb]) (hlast b hb).symm

end

/-- A result is what assignments leave of an object when each is a write of its own. -/
structure ResultOf (s : Sources) (l : List Assignment) (start : Fields Json)
    (result : Except RunError Json) : Prop where
  writes : result.toOption = (l.foldlM (Assignment.write? s) start).map Json.object
  unchanged : ∀ r, result = .ok r → ∀ names, (∀ a ∈ l, Apart names a.target.segments) →
    r.dig? names = (Json.object start).dig? names
  last : ∀ r, result = .ok r → ∀ pre a post, l = pre ++ a :: post →
    (∀ b ∈ post, b.target ≠ a.target) →
    ∃ v, a.value? s = some v ∧ r.dig? a.target.segments = Json.nonNull? (some v)

theorem Separate.resultOf {s : Sources} {l : List Assignment} (hsep : Separate l)
    {start : Fields Json} {result : Except RunError Json}
    (h : result.toOption = (l.foldlM (Assignment.write? s) start).map Json.object) :
    ResultOf s l start result := by
  have hafter : ∀ r, result = .ok r →
      ∃ after, l.foldlM (Assignment.write? s) start = some after ∧ r = .object after := by
    rintro r rfl
    obtain ⟨after, hafter, hr⟩ := Option.map_eq_some_iff.1 h.symm
    exact ⟨after, hafter, hr.symm⟩
  refine ⟨h, ?_, ?_⟩
  · intro r hr names hnames
    obtain ⟨after, hafter, rfl⟩ := hafter r hr
    exact dig?_foldlM_write? hafter hnames
  · intro r hr pre a post hl hlast
    obtain ⟨after, hafter, rfl⟩ := hafter r hr
    exact dig?_foldlM_last hsep hafter hl hlast

namespace Assignment

theorem copy_of_readsExt {a : Assignment} (h : a.readsExt = true) :
    ∃ x, a.value = .copy x ∧ x.root = .impExt := by
  unfold readsExt source? at h
  cases hv : a.value with
  | fixed v => simp [hv] at h
  | copy x => exact ⟨x, rfl, by simpa [hv] using h⟩

theorem value?_of_copy {a : Assignment} {x : Source} (h : a.value = .copy x) {s : Sources} :
    a.value? s = (s.root? x.root).bind (·.follow? x.path.segments) := by
  have ho : a.operand = .ok (.field x) := by
    unfold operand
    rw [h]
  rw [value?_of_operand ho]
  exact s.toOption_read x

end Assignment

namespace Plan

variable {l : List Assignment} {p : Plan} {os : List Override}

theorem runImp_writes (h : ofAssignments .impression l = .ok p)
    (hadmits : ∀ a ∈ p.assignments, Scope.impression.Admits a)
    (hos : p.overrides .firstImp = .ok os) (base : Fields Json) (ext : Option Json) :
    ((Program.mk p.scope (p.located ++ statementsOf .root os)).runImp (.object base)
        ext).toOption =
      (p.assignments.foldlM (Assignment.write? ⟨some (.object base), ext, none⟩) base).map
        Json.object := by
  have hrun := runImp_agrees (scope_of_ofAssignments h) hos hadmits base ext none .null
  have hwrites :
      (evalOverrides ⟨some (.object base), ext, none⟩ .null os base).toOption = _ :=
    toOption_evalOverrides h hos rfl fun _ _ => rfl
  rw [Outcome.toOption_congr hrun, Outcome.toOption_map, hwrites]

theorem runRequest_nil (hscope : p.scope = .request) (hreads : p.readsExt = true)
    (base builder : Fields Json) :
    ((Program.mk p.scope (p.located ++ statementsOf .root os)).runRequest (.object base)
        (.object builder) []).toOption = none := by
  simp only [Program.runRequest_object, located, hscope, hreads]
  rfl

theorem foldlM_write?_of_readsExt (hreads : p.readsExt = true) (imp request : Option Json)
    (fields : Fields Json) :
    p.assignments.foldlM (Assignment.write? ⟨imp, none, request⟩) fields = none := by
  obtain ⟨a, ha, hext⟩ := List.any_eq_true.1 hreads
  obtain ⟨x, hx, hroot⟩ := Assignment.copy_of_readsExt hext
  apply foldlM_eq_none ha
  intro b
  rw [Assignment.write?, Assignment.value?_of_copy hx, hroot]
  rfl

theorem runRequest_writes (h : ofAssignments .request l = .ok p)
    (hadmits : ∀ a ∈ p.assignments, Scope.request.Admits a)
    (hos : p.overrides .request = .ok os) {base builder : Fields Json}
    (hbuilder : ∀ k, k ≠ "imp" → builder.get? k = base.get? k) (exts : List (Option Json)) :
    ((Program.mk p.scope (p.located ++ statementsOf .root os)).runRequest (.object base)
        (.object builder) exts).toOption =
      (p.assignments.foldlM (Assignment.write? ⟨none, exts.head?.join, some (.object base)⟩)
        builder).map Json.object := by
  have hscope := scope_of_ofAssignments h
  by_cases hexts : p.readsExt = true → exts.head? = some exts.head?.join
  · have hrun := runRequest_agrees hscope hos hadmits base builder none _ hexts
    have hwrites : (evalOverrides ⟨none, exts.head?.join, some (.object base)⟩ (.object base) os
        builder).toOption = _ :=
      toOption_evalOverrides h hos rfl fun a ha => hbuilder _ ((hadmits a ha).target_ne rfl)
    rw [Outcome.toOption_congr hrun, Outcome.toOption_map, hwrites]
  -- no impression, but its extension is read: the program fails at once, and so does that read
  · obtain ⟨hreads, hne⟩ := Classical.not_imp.1 hexts
    have hnil : exts = [] := by
      cases exts with
      | nil => rfl
      | cons ext exts => exact absurd rfl hne
    subst hnil
    rw [runRequest_nil hscope hreads]
    exact (congrArg (Option.map _) (foldlM_write?_of_readsExt hreads _ _ _)).symm

/-- The program of a plan does what its assignments do one at a time, in the order in which they are
compiled. -/
theorem program_writes {scope : Scope} {rules : List Rule}
    (hrules : rules.mapM (Rule.resolve scope) = .ok l) (h : ofAssignments scope l = .ok p) :
    ∃ q, p.program = .ok q ∧ p.assignments.Perm (writing l) ∧
      (scope = .impression → ∀ base ext,
        ResultOf ⟨some (.object base), ext, none⟩ p.assignments base
          (q.runImp (.object base) ext)) ∧
      (scope = .request → ∀ base builder exts,
        (∀ k, k ≠ "imp" → builder.get? k = base.get? k) →
        ResultOf ⟨none, exts.head?.join, some (.object base)⟩ p.assignments builder
          (q.runRequest (.object base) (.object builder) exts)) := by
  have hsep := separate_assignments h
  have hadmits := admits_assignments h (admits_of_resolved hrules)
  cases scope with
  | impression =>
    obtain ⟨os, hos⟩ := exists_overrides_of_ofAssignments h .firstImp
    refine ⟨_, program_of_overrides hos, assignments_perm h, ?_, nofun⟩
    intro _ base ext
    exact hsep.resultOf (runImp_writes h hadmits hos base ext)
  | request =>
    obtain ⟨os, hos⟩ := exists_overrides_of_ofAssignments h .request
    refine ⟨_, program_of_overrides hos, assignments_perm h, nofun, ?_⟩
    intro _ base builder exts hbuilder
    exact hsep.resultOf (runRequest_writes h hadmits hos hbuilder exts)

theorem program_writes_sample :
    let builder := sampleRequest.set "imp" (.array [])
    let ext := bidderExt? (.object sampleImp)
    ∃ p q, ofAssignments .request sampleAdapter.request = .ok p ∧ p.program = .ok q ∧
      ResultOf ⟨none, ext, some (.object sampleRequest)⟩ p.assignments builder
        (q.runRequest (.object sampleRequest) (.object builder) [ext]) := by
  intro builder ext
  obtain ⟨p, hp⟩ : ∃ p, ofAssignments .request sampleAdapter.request = .ok p := ⟨_, rfl⟩
  obtain ⟨q, hq, -, -, hrun⟩ := program_writes sampleRequestRules_resolve hp
  have hbuilder : ∀ k, k ≠ "imp" → builder.get? k = sampleRequest.get? k := by
    intro k hk
    rw [Fields.get?_set, if_neg hk]
  exact ⟨p, q, hp, hq, hrun rfl sampleRequest builder [ext] hbuilder⟩

end Plan

end AdapterForge

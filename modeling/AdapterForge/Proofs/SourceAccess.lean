import AdapterForge.Java.Expected
import AdapterForge.Java.Method
import AdapterForge.Proofs.LegalNames

/-!
How copied fields are read in the methods and in the test. A source is read through getters from end
to end, which is how its objects are read as long as none of them is an `ext`.
-/
namespace AdapterForge

namespace Java

/-- A field of a model is read by its getter, a member of a JSON node by its name. -/
def access : ObjectKind → String → String
  | .model _, k => "." ++ getter k ++ "()"
  | .json, k => ".get(" ++ quote k ++ ")"

def getterAccess (k : String) : String := "." ++ getter k ++ "()"

/-- A field read step by step, each time as the kind of the object that has been reached asks for.
The object to start from is a model. -/
def kindAccesses (p : FieldPath) : List String :=
  getterAccess p.first :: p.rest.mapIdx fun n k => access (.ofPath (p.upTo (n + 1))) k

def kindChain (base : String) (p : FieldPath) : String := base ++ String.join (kindAccesses p)

theorem getterChain_eq (base : String) (fields : List String) :
    getterChain base fields = base ++ String.join (fields.map getterAccess) := by
  unfold getterChain
  induction fields generalizing base with
  | nil => simp
  | cons k r ih =>
    rw [List.foldl_cons, ih, List.map_cons, String.join_cons]
    simp only [getterAccess, String.append_assoc]

/-- A nested object that is to be rebuilt is read by the kind of the object around it. -/
theorem readGiven_accesses {path parent : FieldPath} (h : path.parent? = some parent)
    (scope : Scope) (type : String) :
    ∃ declared, (readGiven scope path type).head? =
      some (declared ++ localVar parent ++ access (.ofPath parent) path.leaf ++ " : null;") := by
  unfold readGiven
  rw [h]
  dsimp only
  cases ObjectKind.ofPath parent with
  | model name =>
    refine ⟨"final " ++ type ++ " " ++ localVar path ++ " = " ++ localVar parent ++ " != null ? ", ?_⟩
    simp [access, String.append_assoc]
  | json =>
    refine ⟨"final JsonNode " ++ nodeVar path ++ " = " ++ localVar parent ++ " != null ? ", ?_⟩
    simp [access, String.append_assoc]

theorem access_of_isJson_eq_false {kind : ObjectKind} (h : kind.isJson = false) (k : String) :
    access kind k = getterAccess k := by
  cases kind with
  | model name => rfl
  | json => cases h

theorem quote_mem_access {kind : ObjectKind} (h : kind.isJson = true) (k : String) :
    '"' ∈ (access kind k).toList := by
  cases kind with
  | model name => cases h
  | json => simp [access, quote]

theorem quote_not_mem_of_isName {s : String} (h : IsName s) : '"' ∉ s.toList := by
  intro hmem
  have hchar := h.isNameChar _ hmem
  revert hchar
  decide

theorem quote_not_mem_getterAccess {k : String} (h : IsName k) :
    '"' ∉ (getterAccess k).toList := by
  have hget := quote_not_mem_of_isName (isIdentifier_getter h).1
  simpa [getterAccess] using hget

section

variable {p : FieldPath}

/-- The objects on the way are JSON nodes from the first `ext` on. -/
theorem exists_isJson_upTo_iff :
    (∃ n, n < p.rest.length ∧ (ObjectKind.ofPath (p.upTo (n + 1))).isJson = true) ↔
      "ext" ∈ p.segments.dropLast := by
  simp only [ObjectKind.isJson_ofPath, p.segments_upTo (Nat.succ_pos _)]
  rw [List.dropLast_eq_take, FieldPath.length_segments, FieldPath.depth, Nat.add_sub_cancel]
  constructor
  · rintro ⟨n, hn, hext⟩
    exact List.take_subset_take_left _ hn hext
  · intro hext
    rcases Nat.eq_zero_or_pos p.rest.length with hrest | hrest
    · rw [hrest, List.take_zero] at hext
      cases hext
    · exact ⟨p.rest.length - 1, by omega, by rwa [Nat.succ_eq_add_one, Nat.sub_add_cancel hrest]⟩

theorem kindAccesses_of_not_mem (h : "ext" ∉ p.segments.dropLast) :
    kindAccesses p = p.segments.map getterAccess := by
  rw [kindAccesses, FieldPath.segments, List.map_cons]
  congr 1
  apply List.ext_getElem
  · simp
  · intro n hn _
    rw [List.length_mapIdx] at hn
    rw [List.getElem_mapIdx, List.getElem_map]
    apply access_of_isJson_eq_false
    rw [← Bool.not_eq_true]
    exact fun hjson => h (exists_isJson_upTo_iff.1 ⟨n, hn, hjson⟩)

theorem quote_mem_kindAccesses (h : "ext" ∈ p.segments.dropLast) :
    ∃ s ∈ kindAccesses p, '"' ∈ s.toList := by
  obtain ⟨n, hn, hjson⟩ := exists_isJson_upTo_iff.2 h
  refine ⟨access (.ofPath (p.upTo (n + 1))) p.rest[n], ?_, quote_mem_access hjson _⟩
  refine List.mem_cons_of_mem _ (List.mem_iff_getElem.2 ⟨n, by simpa using hn, ?_⟩)
  rw [List.getElem_mapIdx]

/-- Getters read a field by the kinds of the objects on the way exactly when no such object is an
`ext`. -/
theorem getterChain_eq_kindChain_iff (hnames : ∀ k ∈ p.segments, IsName k) {base : String}
    (hbase : '"' ∉ base.toList) :
    getterChain base p.segments = kindChain base p ↔ "ext" ∉ p.segments.dropLast := by
  rw [getterChain_eq, kindChain]
  constructor
  · intro heq hext
    obtain ⟨s, hs, hquote⟩ := quote_mem_kindAccesses hext
    have hmem : '"' ∈ (base ++ String.join (p.segments.map getterAccess)).toList := by
      rw [heq, String.toList_append]
      exact List.mem_append_right _ (String.toList_join ▸ List.mem_flatMap.2 ⟨s, hs, hquote⟩)
    rw [String.toList_append, List.mem_append, String.toList_join, List.mem_flatMap] at hmem
    obtain hmem | ⟨s, hs, hmem⟩ := hmem
    · exact hbase hmem
    · obtain ⟨k, hk, rfl⟩ := List.mem_map.1 hs
      exact quote_not_mem_getterAccess (hnames k hk) hmem
  · intro hext
    rw [kindAccesses_of_not_mem hext]

end

/-- The object that a source is read from, inside the test. -/
def testVar : SourceRoot → String
  | .imp | .impExt => rootExpr .firstImp
  | .request => rootExpr .request

theorem expectedValue_field (params : List Param) {x : Source} (h : x.root ≠ .impExt) :
    expectedValue params (.field x) = getterChain (testVar x.root) x.path.segments := by
  obtain ⟨root, path⟩ := x
  cases root with
  | imp => rfl
  | impExt => exact absurd rfl h
  | request => rfl

end Java

namespace Adapter

open Java

variable {d : Description} {a : Adapter}

/-- Fields of the impression and of the request are read through getters from end to end, in the
methods and in the test. These are the reads that the kinds of their objects ask for exactly when no
object on the way is an `ext`. -/
theorem sources_read_by_getters (ha : ofDescription d = .ok a) {x : Source} (hx : x ∈ a.sources)
    (hroot : x.root ≠ .impExt) (params : List Param) :
    (mutationValue (.field x) =
        rootVar x.root ++ String.join (x.path.segments.map getterAccess) ∧
      expectedValue params (.field x) =
        testVar x.root ++ String.join (x.path.segments.map getterAccess)) ∧
    (mutationValue (.field x) = kindChain (rootVar x.root) x.path ↔
      "ext" ∉ x.path.segments.dropLast) ∧
    (expectedValue params (.field x) = kindChain (testVar x.root) x.path ↔
      "ext" ∉ x.path.segments.dropLast) := by
  have hnames := names_of_mem_sources ha hx
  have hvar : '"' ∉ (rootVar x.root).toList := by
    cases x.root <;> decide
  have hgiven : '"' ∉ (testVar x.root).toList := by
    cases x.root <;> decide
  rw [expectedValue_field params hroot, mutationValue]
  exact ⟨⟨getterChain_eq _ _, getterChain_eq _ _⟩, getterChain_eq_kindChain_iff hnames hvar,
    getterChain_eq_kindChain_iff hnames hgiven⟩

theorem sources_read_by_getters_sample :
    ∃ x ∈ fixtureAdapter.sources, x.root ≠ .impExt ∧
      mutationValue (.field x) = "bidRequest.getSite().getPublisher().getId()" ∧
      mutationValue (.field x) = kindChain (rootVar x.root) x.path ∧
      expectedValue fixtureAdapter.params (.field x) = kindChain (testVar x.root) x.path := by
  have ha : ofDescription fixtureAdapter.description = .ok fixtureAdapter := rfl
  have hx : (⟨.request, ⟨"site", ["publisher", "id"]⟩⟩ : Source) ∈ fixtureAdapter.sources := by
    decide
  obtain ⟨-, hvar, hgiven⟩ := sources_read_by_getters ha hx (by decide) fixtureAdapter.params
  exact ⟨_, hx, by decide, by decide +kernel, hvar.2 (by decide), hgiven.2 (by decide)⟩

/-- The consent is read out of an extension by a getter, and the data that is rebuilt there is read
as a member of a JSON node. -/
theorem ext_members_read_by_getters :
    ∃ a, ofDescription (fixtureDescription [⟨"user.id", none, some "user.ext.consent"⟩,
        ⟨"ext.data.id", none, some "ext.consent"⟩]) = .ok a ∧
      ∃ x ∈ a.sources, x.root ≠ .impExt ∧
        mutationValue (.field x) = "bidRequest.getUser().getExt().getConsent()" ∧
        expectedValue a.params (.field x) = "bidRequest.getUser().getExt().getConsent()" ∧
        kindChain (rootVar x.root) x.path = "bidRequest.getUser().getExt().get(\"consent\")" ∧
        (readGiven .request ⟨"ext", ["data"]⟩ "ObjectNode").head? =
          some "final JsonNode extDataNode = ext != null ? ext.get(\"data\") : null;" :=
  ⟨_, rfl, ⟨.request, ⟨"user", ["ext", "consent"]⟩⟩, by decide +kernel, by decide,
    by decide +kernel, by decide +kernel, by decide +kernel, by decide +kernel⟩

end Adapter

end AdapterForge

import AdapterForge.Proofs.FreeNames
import AdapterForge.Proofs.SuppliedPrograms

/-!
The names in the methods of an adapter.
-/
namespace AdapterForge.Java

/-- Words that need no import: those of the language, and two classes of its core. -/
def javaWords : List String := "Override" :: "Void" :: reservedWords

structure MethodUses (P : NameUse → Prop) (q : Program) (extClass : String) : Prop where
  words : ∀ w ∈ javaWords, ∀ t, P ⟨w, t⟩
  locals : ∀ v ∈ methodNames q, P ⟨v, false⟩
  ext : P ⟨extClass, true⟩
  models : ∀ name, .model name ∈ q.startedKinds → ∀ t, P ⟨name, t⟩
  nodes : .json ∈ q.startedKinds → P ⟨"mapper", false⟩ ∧ ∀ t, P ⟨"ObjectNode", t⟩
  nested : readsNestedJson q = true → P ⟨"JsonNode", true⟩

def UsableName (P : NameUse → Prop) (isType : Bool) (name : String) : Prop :=
  IsName name ∧ P ⟨name, isType⟩

section

variable {P : NameUse → Prop} {q : Program} {extClass : String} {path : FieldPath}

theorem mem_startedPaths_iff {l : List Statement} :
    path ∈ startedPaths l ↔ ∃ kind, .start path kind ∈ l := by
  rw [startedPaths, List.mem_filterMap]
  constructor
  · rintro ⟨s, hs, hpath⟩
    cases s with
    | start p kind =>
      obtain rfl := Option.some.inj hpath
      exact ⟨kind, hs⟩
    | _ => cases hpath
  · rintro ⟨kind, hs⟩
    exact ⟨_, hs, rfl⟩

theorem start_mem_of_supplied (h : q.Supplied) (hpath : path ∈ startedPaths q.statements) :
    .start path (.ofPath path) ∈ q.statements := by
  obtain ⟨kind, hs⟩ := mem_startedPaths_iff.1 hpath
  obtain ⟨-, rfl, -⟩ := h.statements _ hs
  exact hs

theorem ofPath_mem_startedKinds (h : q.Supplied) (hpath : path ∈ startedPaths q.statements) :
    .ofPath path ∈ q.startedKinds :=
  List.mem_filterMap.2 ⟨_, start_mem_of_supplied h hpath, rfl⟩

theorem startVars_subset (hpath : path ∈ startedPaths q.statements) :
    startVars path ⊆ methodNames q := by
  obtain ⟨kind, hs⟩ := mem_startedPaths_iff.1 hpath
  exact fun v hv => List.mem_append_right _ (List.mem_flatMap.2 ⟨_, hs, hv⟩)

namespace MethodUses

theorem localVar (h : MethodUses P q extClass) (hq : q.Supplied)
    (hpath : path ∈ startedPaths q.statements) : UsableName P false (localVar path) :=
  ⟨isName_localVar (hq.paths path hpath), h.locals _ (startVars_subset hpath (by simp [startVars]))⟩

theorem builderVar (h : MethodUses P q extClass) (hq : q.Supplied)
    (hpath : path ∈ startedPaths q.statements) : UsableName P false (builderVar path) :=
  ⟨(isIdentifier_builderVar (hq.paths path hpath)).1,
    h.locals _ (startVars_subset hpath (by simp [startVars]))⟩

theorem nodeVar (h : MethodUses P q extClass) (hq : q.Supplied)
    (hpath : path ∈ startedPaths q.statements)
    (hnested : path.parent?.any (fun p => (ObjectKind.ofPath p).isJson) = true) :
    UsableName P false (nodeVar path) :=
  ⟨(isIdentifier_nodeVar (hq.paths path hpath)).1,
    h.locals _ (startVars_subset hpath (by simp [startVars, hnested]))⟩

theorem base (h : MethodUses P q extClass) : UsableName P false q.scope.base := by
  refine ⟨?_, h.locals _ (List.mem_append_left _ ?_)⟩
  · cases q.scope <;> decide
  · cases q.scope <;> decide

theorem builderName (h : MethodUses P q extClass) (hq : q.Supplied) {b : Builder}
    (hb : b.Among (startedPaths q.statements)) : UsableName P false (builderName q.scope b) := by
  cases b with
  | root =>
    refine ⟨?_, h.locals _ (List.mem_append_left _ ?_)⟩
    · cases q.scope <;> decide
    · cases q.scope <;> decide
  | nested path => exact h.builderVar hq hb

end MethodUses

theorem nodes_of_isJson (h : MethodUses P q extClass) (hq : q.Supplied) {b : Builder}
    (hb : b.Among (startedPaths q.statements)) (hjson : isJsonBuilder b = true) :
    P ⟨"mapper", false⟩ ∧ ∀ t, P ⟨"ObjectNode", t⟩ := by
  cases b with
  | root => cases hjson
  | nested path =>
    apply h.nodes
    have hkind := ofPath_mem_startedKinds hq hb
    cases hpath : ObjectKind.ofPath path with
    | json => rwa [hpath] at hkind
    | model name =>
      rw [isJsonBuilder, hpath] at hjson
      cases hjson

theorem namesIn_mutationValue (h : MethodUses P q extClass) (hq : q.Supplied) {b : Builder}
    {field : String} {x : Operand} (hx : .assign b field x ∈ q.statements) :
    NamesIn P (mutationValue x) := by
  obtain ⟨-, -, hnamed⟩ := hq.statements _ hx
  cases x with
  | literal l => exact namesIn_literal l
  | field x =>
    have hroot := h.locals _ (hq.sources _ _ _ hx)
    have hname : IsName (rootVar x.root) := by cases x.root <;> decide
    have hbase : pieceText [.name (rootVar x.root)] = rootVar x.root := String.append_empty
    have hsound : ∀ p ∈ [Piece.name (rootVar x.root)], p.Sound := List.forall_mem_singleton.2 hname
    have hlexes := lexes_getterChain rfl rfl rfl hsound hnamed
    rw [hbase] at hlexes
    have hnames (k : String) : Names P ([Piece.name (rootVar x.root)].flatMap Piece.tokens ++
        [.symbol '.', .word k, .symbol '(', .symbol ')']) :=
      ⟨List.forall_mem_singleton.2 hroot, rfl, rfl⟩
    exact hlexes.namesIn (names_getters hnames x.path.segments_ne_nil)

theorem namesIn_locateExt (h : MethodUses P q extClass) (hext : IsName extClass)
    (hlocated : .locateExt ∈ q.statements) (hscope : q.scope = .request) :
    NamesIn P ("final " ++ extClass ++ " impExt = impsWithExts.get(0).getImpExt();") := by
  have himpExt : "impExt" ∈ methodNames q :=
    List.mem_append_right _ (List.mem_flatMap.2 ⟨_, hlocated, List.mem_singleton.2 rfl⟩)
  have hexts : "impsWithExts" ∈ methodNames q := by
    rw [methodNames, hscope]
    exact List.mem_append_left _ (by decide)
  apply NamesIn.of_pieces (l := [.code "final ", .name extClass,
    .code " impExt = impsWithExts.get(0).getImpExt();"])
  · simp only [pieceText, List.foldr, Piece.text, String.append_assoc, String.append_empty]
  · rfl
  · rfl
  · simpa [Piece.Sound] using hext
  · apply names_of_eq (l := [⟨"final", true⟩, ⟨extClass, true⟩, ⟨"impExt", false⟩,
      ⟨"impsWithExts", false⟩]) rfl rfl rfl
    simpa using ⟨h.words _ (by decide) true, h.ext, h.locals _ himpExt, h.locals _ hexts⟩

theorem MethodUses.type (h : MethodUses P q extClass) (hq : q.Supplied)
    (hpath : path ∈ startedPaths q.statements) :
    UsableName P true ((ObjectKind.ofPath path).modelName?.getD "ObjectNode") := by
  have hkind := ofPath_mem_startedKinds hq hpath
  cases hof : ObjectKind.ofPath path with
  | json =>
    rw [hof] at hkind
    exact ⟨by decide, (h.nodes hkind).2 true⟩
  | model name =>
    rw [hof] at hkind
    have hname := ObjectKind.named_ofPath (hq.paths path hpath)
    rw [hof] at hname
    exact ⟨hname, h.models name hkind true⟩

section Lines

variable {type var outer node field name builder : String}

theorem MethodUses.final (h : MethodUses P q extClass) : P ⟨"final", true⟩ :=
  h.words _ (by decide) true

theorem MethodUses.null (h : MethodUses P q extClass) : P ⟨"null", false⟩ :=
  h.words _ (by decide) false

theorem namesIn_readMember (h : MethodUses P q extClass) (htype : UsableName P true type)
    (hvar : UsableName P false var) (houter : UsableName P false outer)
    (hgetter : IsName (getter field)) :
    NamesIn P ("final " ++ type ++ " " ++ var ++ " = " ++ outer ++ "." ++ getter field ++ "();") := by
  apply NamesIn.of_pieces (l := [.code "final ", .name type, .code " ", .name var, .code " = ",
    .name outer, .code ".", .name (getter field), .code "();"])
  · simp only [pieceText, List.foldr, Piece.text, String.append_assoc, String.append_empty]
  · rfl
  · rfl
  · simpa [Piece.Sound] using ⟨htype.1, hvar.1, houter.1, hgetter⟩
  · apply names_of_eq (l := [⟨"final", true⟩, ⟨type, true⟩, ⟨var, false⟩, ⟨outer, false⟩]) rfl rfl rfl
    simpa using ⟨h.final, htype.2, hvar.2, houter.2⟩

theorem namesIn_readNullable (h : MethodUses P q extClass) (htype : UsableName P true type)
    (hvar : UsableName P false var) (houter : UsableName P false outer)
    (hgetter : IsName (getter field)) :
    NamesIn P ("final " ++ type ++ " " ++ var ++ " = " ++ outer ++ " != null ? " ++ outer ++ "." ++
      getter field ++ "() : null;") := by
  apply NamesIn.of_pieces (l := [.code "final ", .name type, .code " ", .name var, .code " = ",
    .name outer, .code " != null ? ", .name outer, .code ".", .name (getter field),
    .code "() : null;"])
  · simp only [pieceText, List.foldr, Piece.text, String.append_assoc, String.append_empty]
  · rfl
  · rfl
  · simpa [Piece.Sound] using ⟨htype.1, hvar.1, houter.1, hgetter⟩
  · apply names_of_eq (l := [⟨"final", true⟩, ⟨type, true⟩, ⟨var, false⟩, ⟨outer, false⟩,
      ⟨"null", false⟩, ⟨outer, false⟩, ⟨"null", false⟩]) rfl rfl rfl
    simpa using ⟨h.final, htype.2, hvar.2, houter.2, h.null, houter.2, h.null⟩

theorem namesIn_readNode (h : MethodUses P q extClass) (htype : P ⟨"JsonNode", true⟩)
    (hnode : UsableName P false node) (houter : UsableName P false outer) :
    NamesIn P ("final JsonNode " ++ node ++ " = " ++ outer ++ " != null ? " ++ outer ++ ".get(" ++
      quote field ++ ") : null;") := by
  apply NamesIn.of_pieces (l := [.code "final JsonNode ", .name node, .code " = ", .name outer,
    .code " != null ? ", .name outer, .code ".get(", .quoted field, .code ") : null;"])
  · simp only [pieceText, List.foldr, Piece.text, String.append_assoc, String.append_empty]
  · rfl
  · rfl
  · simpa [Piece.Sound] using ⟨hnode.1, houter.1⟩
  · apply names_of_eq (l := [⟨"final", true⟩, ⟨"JsonNode", true⟩, ⟨node, false⟩, ⟨outer, false⟩,
      ⟨"null", false⟩, ⟨outer, false⟩, ⟨"null", false⟩]) rfl rfl rfl
    simpa using ⟨h.final, htype, hnode.2, houter.2, h.null, houter.2, h.null⟩

theorem namesIn_castNode (h : MethodUses P q extClass) (htype : ∀ t, P ⟨"ObjectNode", t⟩)
    (hvar : UsableName P false var) (hnode : UsableName P false node) :
    NamesIn P ("final ObjectNode " ++ var ++ " = " ++ node ++ " != null && " ++ node ++
      ".isObject() ? (ObjectNode) " ++ node ++ " : null;") := by
  apply NamesIn.of_pieces (l := [.code "final ObjectNode ", .name var, .code " = ", .name node,
    .code " != null && ", .name node, .code ".isObject() ? (ObjectNode) ", .name node,
    .code " : null;"])
  · simp only [pieceText, List.foldr, Piece.text, String.append_assoc, String.append_empty]
  · rfl
  · rfl
  · simpa [Piece.Sound] using ⟨hvar.1, hnode.1⟩
  · apply names_of_eq (l := [⟨"final", true⟩, ⟨"ObjectNode", true⟩, ⟨var, false⟩, ⟨node, false⟩,
      ⟨"null", false⟩, ⟨node, false⟩, ⟨"ObjectNode", false⟩, ⟨node, false⟩, ⟨"null", false⟩]) rfl rfl rfl
    simpa using ⟨h.final, htype true, hvar.2, hnode.2, h.null, hnode.2, htype false, hnode.2, h.null⟩

theorem namesIn_startModel (h : MethodUses P q extClass) (hname : IsName name)
    (hclass : ∀ t, P ⟨name, t⟩) (hbuilder : UsableName P false builder) (hvar : UsableName P false var) :
    NamesIn P ("final " ++ name ++ "." ++ name ++ "Builder " ++ builder ++ " = " ++ var ++
      " != null ? " ++ var ++ ".toBuilder() : " ++ name ++ ".builder();") := by
  have hbuilderClass : IsName (name ++ "Builder") :=
    (isIdentifier_append hname (by decide) (c := 'B') (by decide) (by decide)).1
  have htype : "Builder " = "Builder" ++ " " := by decide
  apply NamesIn.of_pieces (l := [.code "final ", .name name, .code ".", .name (name ++ "Builder"),
    .code " ", .name builder, .code " = ", .name var, .code " != null ? ", .name var,
    .code ".toBuilder() : ", .name name, .code ".builder();"])
  · rw [htype]
    simp only [pieceText, List.foldr, Piece.text, String.append_assoc, String.append_empty]
  · rfl
  · rfl
  · simpa [Piece.Sound] using ⟨hname, hbuilderClass, hbuilder.1, hvar.1, hname⟩
  · apply names_of_eq (l := [⟨"final", true⟩, ⟨name, true⟩, ⟨builder, false⟩, ⟨var, false⟩,
      ⟨"null", false⟩, ⟨var, false⟩, ⟨name, false⟩]) rfl rfl rfl
    simpa using ⟨h.final, hclass true, hbuilder.2, hvar.2, h.null, hvar.2, hclass false⟩

theorem namesIn_startNode (h : MethodUses P q extClass) (hmapper : P ⟨"mapper", false⟩)
    (htype : ∀ t, P ⟨"ObjectNode", t⟩) (hbuilder : UsableName P false builder)
    (hvar : UsableName P false var) :
    NamesIn P ("final ObjectNode " ++ builder ++ " = " ++ var ++ " != null ? " ++ var ++
      ".deepCopy() : mapper.createObjectNode();") := by
  apply NamesIn.of_pieces (l := [.code "final ObjectNode ", .name builder, .code " = ", .name var,
    .code " != null ? ", .name var, .code ".deepCopy() : mapper.createObjectNode();"])
  · simp only [pieceText, List.foldr, Piece.text, String.append_assoc, String.append_empty]
  · rfl
  · rfl
  · simpa [Piece.Sound] using ⟨hbuilder.1, hvar.1⟩
  · apply names_of_eq (l := [⟨"final", true⟩, ⟨"ObjectNode", true⟩, ⟨builder, false⟩, ⟨var, false⟩,
      ⟨"null", false⟩, ⟨var, false⟩, ⟨"mapper", false⟩]) rfl rfl rfl
    simpa using ⟨h.final, htype true, hbuilder.2, hvar.2, h.null, hvar.2, hmapper⟩

end Lines

theorem namesIn_readGiven (h : MethodUses P q extClass) (hq : q.Supplied)
    (hpath : path ∈ startedPaths q.statements)
    (hparent : (Builder.parentOf path).Among (startedPaths q.statements)) :
    ∀ line ∈ readGiven q.scope path ((ObjectKind.ofPath path).modelName?.getD "ObjectNode"),
      NamesIn P line := by
  have htype := h.type hq hpath
  have hvar := h.localVar hq hpath
  have hgetter : IsName (getter path.leaf) :=
    (isIdentifier_getter (hq.paths path hpath _ path.leaf_mem_segments)).1
  cases habove : path.parent? with
  | none =>
    simp only [readGiven, habove, List.forall_mem_singleton]
    exact namesIn_readMember h htype hvar h.base hgetter
  | some parent =>
    have hparentMem : parent ∈ startedPaths q.statements := by
      rw [Builder.parentOf, habove] at hparent
      exact hparent
    have houter := h.localVar hq hparentMem
    cases hkind : ObjectKind.ofPath parent with
    | model name =>
      simp only [readGiven, habove, hkind, List.forall_mem_singleton]
      exact namesIn_readNullable h htype hvar houter hgetter
    | json =>
      have hnested : path.parent?.any (fun p => (ObjectKind.ofPath p).isJson) = true := by
        rw [habove, Option.any_some, hkind]
        rfl
      have hnode := h.nodeVar hq hpath hnested
      have hjsonNode : P ⟨"JsonNode", true⟩ :=
        h.nested (List.any_eq_true.2 ⟨_, start_mem_of_supplied hq hpath, hnested⟩)
      have hjson : isJsonBuilder (.nested parent) = true := by
        rw [isJsonBuilder, hkind]
        rfl
      have hobjectNode := (nodes_of_isJson h hq (b := .nested parent) hparentMem hjson).2
      simp only [readGiven, habove, hkind]
      exact List.forall_mem_cons.2 ⟨namesIn_readNode h hjsonNode hnode houter,
        List.forall_mem_singleton.2 (namesIn_castNode h hobjectNode hvar hnode)⟩

theorem namesIn_startBuilder (h : MethodUses P q extClass) (hq : q.Supplied)
    (hpath : path ∈ startedPaths q.statements) : NamesIn P (startBuilder path (.ofPath path)) := by
  have hkind := ofPath_mem_startedKinds hq hpath
  have hkindName := ObjectKind.named_ofPath (hq.paths path hpath)
  have hbuilder := h.builderVar hq hpath
  have hvar := h.localVar hq hpath
  cases hof : ObjectKind.ofPath path with
  | model name =>
    rw [hof] at hkind hkindName
    exact namesIn_startModel h hkindName (h.models name hkind) hbuilder hvar
  | json =>
    rw [hof] at hkind
    obtain ⟨hmapper, hnode⟩ := h.nodes hkind
    exact namesIn_startNode h hmapper hnode hbuilder hvar

section Calls

variable {target field value : String}

theorem namesIn_setMember (htarget : UsableName P false target) (hfield : IsName field)
    (hvalue : Argument P value) : NamesIn P (target ++ "." ++ field ++ "(" ++ value ++ ")" ++ ";") := by
  apply NamesIn.of_argument hvalue [.name target, .code ".", .name field, .code "("] [.code ";"]
  · simp only [List.cons_append, List.nil_append, pieceText, List.foldr, Piece.text,
      String.append_assoc, String.append_empty]
  · rfl
  · rfl
  · simpa [Piece.Sound] using ⟨htarget.1, hfield⟩
  · exact names_one htarget.2 rfl rfl rfl
  · exact names_none rfl rfl rfl

theorem namesIn_setKey (method : String) (hmethod : IsName method)
    (htarget : UsableName P false target) (hvalue : Argument P value) :
    NamesIn P (target ++ ("." ++ method ++ "(") ++ quote field ++ ", " ++ value ++ ")" ++ ";") := by
  apply NamesIn.of_argument hvalue
    [.name target, .code ".", .name method, .code "(", .quoted field, .code ", "] [.code ";"]
  · simp only [List.cons_append, List.nil_append, pieceText, List.foldr, Piece.text,
      String.append_assoc, String.append_empty]
  · rfl
  · rfl
  · simpa [Piece.Sound] using ⟨htarget.1, hmethod⟩
  · exact names_one htarget.2 rfl rfl rfl
  · exact names_none rfl rfl rfl

theorem namesIn_toTree (hmapper : P ⟨"mapper", false⟩) (hvalue : NamesIn P value) :
    NamesIn P ("mapper.valueToTree(" ++ value ++ ")") := by
  apply hvalue.of_value [.code "mapper.valueToTree("] [.code ")"]
  · simp only [List.cons_append, List.nil_append, pieceText, List.foldr, Piece.text,
      String.append_assoc, String.append_empty]
  · rfl
  · rfl
  · simp [Piece.Sound]
  · exact names_one hmapper rfl rfl rfl
  · exact names_none rfl rfl rfl

end Calls

theorem namesIn_writeCall (h : MethodUses P q extClass) (hq : q.Supplied) {b : Builder} {field : String}
    {x : Operand} (hx : .assign b field x ∈ q.statements) :
    NamesIn P (writeCall (builderName q.scope b) (isJsonBuilder b) field x ++ ";") := by
  obtain ⟨hb, hfield, -⟩ := hq.statements _ hx
  have htarget := h.builderName hq hb
  have hvalue := namesIn_mutationValue h hq hx
  cases hjson : isJsonBuilder b with
  | false => exact namesIn_setMember htarget hfield hvalue.argument
  | true =>
    cases x with
    | literal l => exact namesIn_setKey "put" (by decide) htarget hvalue.argument
    | field x =>
      have htree := namesIn_toTree (nodes_of_isJson h hq hb hjson).1 hvalue
      have hopen : ", mapper.valueToTree(" = ", " ++ "mapper.valueToTree(" := by decide
      have hclose : "))" = ")" ++ ")" := by decide
      have htext : writeCall (builderName q.scope b) true field (.field x) ++ ";" =
          builderName q.scope b ++ ".set(" ++ quote field ++ ", " ++
            ("mapper.valueToTree(" ++ mutationValue (.field x) ++ ")") ++ ")" ++ ";" := by
        simp only [writeCall, if_true, hopen, hclose, String.append_assoc]
      rw [htext]
      exact namesIn_setKey "set" (by decide) htarget htree.argument

def builtObject (path : FieldPath) : String :=
  match ObjectKind.ofPath path with
  | .model _ => builderVar path ++ ".build()"
  | .json => builderVar path

theorem commitCall_eq (scope : Scope) (path : FieldPath) :
    commitCall scope path =
      if isJsonBuilder (.parentOf path) then
        builderName scope (.parentOf path) ++ ".set(" ++ quote path.leaf ++ ", " ++
          builtObject path ++ ");"
      else
        builderName scope (.parentOf path) ++ "." ++ path.leaf ++ "(" ++ builtObject path ++ ");" :=
  rfl

theorem argument_builtObject (h : MethodUses P q extClass) (hq : q.Supplied)
    (hpath : path ∈ startedPaths q.statements) :
    Argument P (builtObject path) := by
  obtain ⟨hname, hbuilder⟩ := h.builderVar hq hpath
  unfold builtObject
  cases ObjectKind.ofPath path with
  | model name =>
    apply NamesIn.argument
    apply NamesIn.of_pieces (l := [.name (builderVar path), .code ".build()"])
    · simp only [pieceText, List.foldr, Piece.text, String.append_empty]
    · rfl
    · rfl
    · simpa [Piece.Sound] using hname
    · exact names_one hbuilder rfl rfl rfl
  | json =>
    have hlexes : Lexes (builderVar path) [.word (builderVar path)] :=
      Lexes.of_pieces (l := [.name (builderVar path)]) String.append_empty.symm rfl rfl
        (List.forall_mem_singleton.2 hname)
    refine ⟨hlexes.whole, fun c hc => ?_⟩
    rw [hlexes.tokens_eq]
    obtain rfl | rfl := hc
    · exact names_one hbuilder rfl rfl rfl
    · exact names_one hbuilder rfl rfl rfl

theorem namesIn_commitCall (h : MethodUses P q extClass) (hq : q.Supplied)
    (hpath : path ∈ startedPaths q.statements)
    (hparent : (Builder.parentOf path).Among (startedPaths q.statements)) :
    NamesIn P (commitCall q.scope path) := by
  have hleaf : IsName path.leaf := hq.paths path hpath _ path.leaf_mem_segments
  have hbuilt := argument_builtObject h hq hpath
  have htarget := h.builderName hq hparent
  have hclose : ");" = ")" ++ ";" := by decide
  rw [commitCall_eq, hclose, ← String.append_assoc, ← String.append_assoc]
  cases isJsonBuilder (Builder.parentOf path) with
  | true => exact namesIn_setKey "set" (by decide) htarget hbuilt
  | false => exact namesIn_setMember htarget hleaf hbuilt

theorem namesIn_statementLines (h : MethodUses P q extClass) (hext : IsName extClass) (hq : q.Supplied)
    (isFirst : Bool) {s : Statement} (hs : s ∈ q.statements) :
    ∀ line ∈ statementLines q.scope extClass isFirst s, line = "" ∨ NamesIn P line := by
  cases s with
  | locateExt =>
    exact List.forall_mem_singleton.2 (.inr (namesIn_locateExt h hext hs (hq.located hs)))
  | start path kind =>
    obtain ⟨hpath, rfl, hparent⟩ := hq.statements _ hs
    rw [statementLines, List.forall_mem_append, List.forall_mem_append, List.forall_mem_singleton]
    refine ⟨⟨?_, fun line hline => .inr (namesIn_readGiven h hq hpath hparent line hline)⟩,
      .inr (namesIn_startBuilder h hq hpath)⟩
    cases isFirst with
    | true => exact fun _ hline => absurd hline List.not_mem_nil
    | false => exact List.forall_mem_singleton.2 (.inl rfl)
  | assign b field x => exact List.forall_mem_singleton.2 (.inr (namesIn_writeCall h hq hs))
  | commit path =>
    obtain ⟨hpath, hparent⟩ := hq.statements _ hs
    exact List.forall_mem_singleton.2 (.inr (namesIn_commitCall h hq hpath hparent))

theorem namesIn_bodyLines (h : MethodUses P q extClass) (hext : IsName extClass) (hq : q.Supplied) :
    ∀ line ∈ bodyLines q.scope extClass q.statements, line = "" ∨ NamesIn P line := by
  have hlines := fun isFirst s hs => namesIn_statementLines h hext hq isFirst (s := s) hs
  cases hq : q.statements with
  | nil => exact fun _ hline => absurd hline List.not_mem_nil
  | cons s r =>
    rw [hq] at hlines
    rw [bodyLines, List.forall_mem_append]
    refine ⟨hlines _ s List.mem_cons_self, fun line hline => ?_⟩
    obtain ⟨t, ht, hline⟩ := List.mem_flatMap.1 hline
    exact hlines _ t (List.mem_cons_of_mem _ ht) line hline

theorem names_flatMap_lines {lines : List String} (h : ∀ line ∈ lines, line = "" ∨ NamesIn P line)
    (level : Nat) :
    Names P ((lines.map fun text => (⟨level, text⟩ : Line)).flatMap (tokens ·.text)) := by
  rw [List.flatMap_map]
  refine .flatMap fun line hline => ?_
  obtain rfl | hnames := h line hline
  · exact .nil
  · exact hnames.names

theorem whole_methodLines {body : List String} (hbody : ∀ line ∈ body, line = "" ∨ NamesIn P line)
    {before after : List Line} (hbefore : ∀ l ∈ before, l.text = "" ∨ Whole l.text.toList)
    (hafter : ∀ l ∈ after, l.text = "" ∨ Whole l.text.toList) (level : Nat) :
    ∀ l ∈ before ++ body.map (fun text => ⟨level, text⟩) ++ after,
      l.text = "" ∨ Whole l.text.toList := by
  rw [List.forall_mem_append, List.forall_mem_append, List.forall_mem_map]
  exact ⟨⟨hbefore, fun line hline => (hbody line hline).imp_right NamesIn.whole⟩, hafter⟩

theorem names_modifyImp (ctx : RenderContext) (h : MethodUses P q ctx.extClass)
    (hext : IsName ctx.extClass) (hq : q.Supplied) (hscope : q.scope = .impression)
    (himp : P ⟨"Imp", true⟩) (hmethod : P ⟨"modifyImp", false⟩)
    (hunit : ∀ c ∈ ctx.indent.toList, c = ' ' ∨ c = '\t') : Names P (tokens (modifyImp q ctx)) := by
  have hbody := namesIn_bodyLines h hext hq
  have hheader : Lexes ("protected Imp modifyImp(Imp imp, " ++ ctx.extClass ++ " impExt) \x7b")
      ([Piece.code "protected Imp modifyImp(Imp imp, ", .name ctx.extClass,
        .code " impExt) \x7b"].flatMap Piece.tokens) := by
    apply Lexes.of_pieces
    · simp only [pieceText, List.foldr, Piece.text, String.append_assoc, String.append_empty]
    · rfl
    · rfl
    · simpa [Piece.Sound] using hext
  have hword (w : String) (hw : w ∈ javaWords) : P ⟨w, true⟩ := h.words w hw true
  have hgiven : ∀ v ∈ givenNames .impression, P ⟨v, false⟩ := fun v hv =>
    h.locals v (List.mem_append_left _ (hscope ▸ hv))
  have hbuilder : P ⟨"impBuilder", false⟩ := hgiven _ (by decide)
  apply names_layout hunit
  · apply whole_methodLines hbody
    · simp only [List.forall_mem_cons]
      exact ⟨.inr (lexes_code rfl rfl).whole, .inr hheader.whole, .inr (lexes_code rfl rfl).whole,
        List.forall_mem_nil _⟩
    · simp only [List.forall_mem_cons]
      exact ⟨.inl trivial, .inr (lexes_code rfl rfl).whole, .inr (lexes_code rfl rfl).whole,
        List.forall_mem_nil _⟩
  · rw [List.flatMap_append, List.flatMap_append]
    refine .append (.append ?_ (names_flatMap_lines hbody 2)) ?_
    · simp only [List.flatMap_cons, hheader.tokens_eq]
      apply names_of_eq (l := [⟨"Override", true⟩, ⟨"protected", true⟩, ⟨"Imp", true⟩,
        ⟨"modifyImp", false⟩, ⟨"Imp", true⟩, ⟨"imp", false⟩, ⟨ctx.extClass, true⟩,
        ⟨"impExt", false⟩, ⟨"final", true⟩, ⟨"Imp", true⟩, ⟨"impBuilder", false⟩,
        ⟨"imp", false⟩]) rfl rfl rfl
      have hgivenImp : P ⟨"imp", false⟩ := hgiven _ (by decide)
      simpa using ⟨hword _ (by decide), hword _ (by decide), himp, hmethod, himp, hgivenImp, h.ext,
        hgiven _ (by decide), hword _ (by decide), himp, hbuilder, hgivenImp⟩
    · apply names_of_eq (l := [⟨"return", true⟩, ⟨"impBuilder", false⟩]) rfl rfl rfl
      simpa using ⟨hword _ (by decide), hbuilder⟩

theorem names_modifyRequest (ctx : RenderContext) (h : MethodUses P q ctx.extClass)
    (hext : IsName ctx.extClass) (hq : q.Supplied) (hscope : q.scope = .request)
    (hrequest : P ⟨"BidRequest", true⟩) (hlist : P ⟨"List", true⟩) (hwithExt : P ⟨"ImpWithExt", true⟩)
    (hmethod : P ⟨"modifyRequest", false⟩) (hunit : ∀ c ∈ ctx.indent.toList, c = ' ' ∨ c = '\t') :
    Names P (tokens (modifyRequest q ctx)) := by
  have hbody := namesIn_bodyLines h hext hq
  have hfirst : Lexes ("protected void modifyRequest(BidRequest bidRequest, " ++
      "BidRequest.BidRequestBuilder requestBuilder,")
      ([Piece.code "protected void modifyRequest(BidRequest bidRequest, ",
        .code "BidRequest.BidRequestBuilder requestBuilder,"].flatMap Piece.tokens) := by
    apply Lexes.of_pieces
    · simp only [pieceText, List.foldr, Piece.text, String.append_empty]
    · rfl
    · rfl
    · simp [Piece.Sound]
  have hsecond : Lexes ("List<ImpWithExt<" ++ ctx.extClass ++ ">> impsWithExts) \x7b")
      ([Piece.code "List<ImpWithExt<", .name ctx.extClass,
        .code ">> impsWithExts) \x7b"].flatMap Piece.tokens) := by
    apply Lexes.of_pieces
    · simp only [pieceText, List.foldr, Piece.text, String.append_assoc, String.append_empty]
    · rfl
    · rfl
    · simpa [Piece.Sound] using hext
  have hword (w : String) (hw : w ∈ javaWords) : P ⟨w, true⟩ := h.words w hw true
  have hgiven : ∀ v ∈ givenNames .request, P ⟨v, false⟩ := fun v hv =>
    h.locals v (List.mem_append_left _ (hscope ▸ hv))
  apply names_layout hunit
  · apply whole_methodLines hbody
    · exact List.forall_mem_cons.2 ⟨.inr (lexes_code rfl rfl).whole, List.forall_mem_cons.2
        ⟨.inr hfirst.whole, List.forall_mem_singleton.2 (.inr hsecond.whole)⟩⟩
    · exact List.forall_mem_singleton.2 (.inr (lexes_code rfl rfl).whole)
  · rw [List.flatMap_append, List.flatMap_append]
    refine .append (.append ?_ (names_flatMap_lines hbody 2)) (names_none rfl rfl rfl)
    simp only [List.flatMap_cons, hfirst.tokens_eq, hsecond.tokens_eq]
    apply names_of_eq (l := [⟨"Override", true⟩, ⟨"protected", true⟩, ⟨"void", true⟩,
      ⟨"modifyRequest", false⟩, ⟨"BidRequest", true⟩, ⟨"bidRequest", false⟩, ⟨"BidRequest", true⟩,
      ⟨"requestBuilder", false⟩, ⟨"List", true⟩, ⟨"ImpWithExt", true⟩, ⟨ctx.extClass, true⟩,
      ⟨"impsWithExts", false⟩]) rfl rfl rfl
    simpa using ⟨hword _ (by decide), hword _ (by decide), hword _ (by decide), hmethod, hrequest,
      hgiven _ (by decide), hrequest, hgiven _ (by decide), hlist, hwithExt, h.ext, hgiven _ (by decide)⟩

end

end AdapterForge.Java

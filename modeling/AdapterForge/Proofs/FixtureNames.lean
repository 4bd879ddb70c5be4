import AdapterForge.Fixture.Java
import AdapterForge.Proofs.FreeNames

/-!
The names in the Java of a fixture: calls behind a builder or a node, with objects inside that are built
the same way.
-/
namespace AdapterForge.Java

/-- Tokens that go on with an expression and do not turn a variable before them into a type. -/
structure NamesBehind (P : NameUse → Prop) (ts : List Token) : Prop extends Names P ts where
  ne_nil : ts ≠ []
  plain : followType ts = false

def NamedCall (P : NameUse → Prop) (s : String) : Prop :=
  ∃ g : List Piece, s = pieceText g ∧ IsCall g ∧ NamesBehind P (g.flatMap Piece.tokens)

def Buildable (P : NameUse → Prop) : ObjectKind → Prop
  | .model name => P ⟨name, false⟩
  | .json => P ⟨"mapper", false⟩ ∧ P ⟨"ObjectNode", true⟩

section

variable {P : NameUse → Prop} {s value field : String}

namespace NamesBehind

variable {ts us : List Token}

theorem append (ht : NamesBehind P ts) (hu : Names P us) : NamesBehind P (ts ++ us) :=
  ⟨ht.toNames.append hu, List.append_ne_nil_of_left_ne_nil ht.ne_nil us,
    (followType_append ht.closed ht.ne_nil).trans ht.plain⟩

theorem cons {v : String} (hv : P ⟨v, false⟩) (h : NamesBehind P ts) : Names P (.word v :: ts) where
  names := by
    have hcons : namesFrom .free (.word v :: ts) = ⟨v, followType ts⟩ :: namesFrom .free ts := rfl
    rw [hcons, h.plain]
    exact List.forall_mem_cons.2 ⟨hv, h.names⟩
  closed := by
    obtain ⟨t, r, rfl⟩ := List.exists_cons_of_ne_nil h.ne_nil
    exact h.closed
  place := h.place

end NamesBehind

theorem exists_pieces_of_calls {calls : List String} (h : ∀ s ∈ calls, NamedCall P s) :
    ∃ gs : List (List Piece), String.join calls = pieceText gs.flatten ∧ (∀ g ∈ gs, IsCall g) ∧
      Names P (gs.flatten.flatMap Piece.tokens) ∧
      (calls ≠ [] → NamesBehind P (gs.flatten.flatMap Piece.tokens)) := by
  induction calls with
  | nil => exact ⟨[], rfl, List.forall_mem_nil _, .nil, absurd rfl⟩
  | cons s calls ih =>
    obtain ⟨⟨g, rfl, hg, hnames⟩, hcalls⟩ := List.forall_mem_cons.1 h
    obtain ⟨gs, hjoin, hgs, hrest, -⟩ := ih hcalls
    have hall := hnames.append hrest
    rw [← List.flatMap_append, ← List.flatten_cons] at hall
    refine ⟨g :: gs, ?_, List.forall_mem_cons.2 ⟨hg, hgs⟩, hall.toNames, fun _ => hall⟩
    rw [String.join_cons, hjoin, List.flatten_cons, pieceText_append]

theorem namesIn_calls {base : List Piece} (hplain : startsPlain base = true)
    (hfit : fit .blank base = true) (hpoint : (lastMode .blank base).endsBefore '.' = true)
    (hbase : ∀ p ∈ base, p.Sound) (hnames : Names P (base.flatMap Piece.tokens)) {calls : List String}
    (hcalls : ∀ s ∈ calls, NamedCall P s) : NamesIn P (pieceText base ++ String.join calls) := by
  obtain ⟨gs, hjoin, hgs, hrest, -⟩ := exists_pieces_of_calls hcalls
  rw [hjoin]
  exact (lexes_calls hplain hfit hpoint hbase hgs).namesIn (hnames.append hrest)

theorem namedCall_of_value (hvalue : Argument P value) (before : List Piece)
    (htext : s = pieceText (before ++ [.expr value, .code ")"]))
    (hfit : ∀ m : Mode, m.endsBefore '.' = true → fit m (before ++ [.expr value, .code ")"]) = true)
    (hsound : ∀ p ∈ before, p.Sound) (hbefore : NamesBehind P (before.flatMap Piece.tokens)) :
    NamedCall P s := by
  refine ⟨_, htext, ⟨fun m hm => ⟨hfit m hm, ?_⟩, ?_⟩, ?_⟩
  · rw [lastMode, List.foldl_append]
    rfl
  · rw [List.forall_mem_append, List.forall_mem_cons, List.forall_mem_singleton]
    exact ⟨hsound, hvalue.whole, trivial⟩
  · rw [List.flatMap_append, List.flatMap_cons]
    exact hbefore.append (hvalue.names ')' (.inr rfl))

theorem namedCall_setter (hfield : IsName field) (hvalue : Argument P value) :
    NamedCall P ("." ++ field ++ "(" ++ value ++ ")") := by
  apply namedCall_of_value hvalue [.code ".", .name field, .code "("]
  · simp only [List.cons_append, List.nil_append, pieceText, List.foldr, Piece.text,
      String.append_assoc, String.append_empty]
  · intro m hm
    rw [List.cons_append, fit, Bool.and_eq_true, Bool.and_eq_true]
    exact ⟨⟨hm, rfl⟩, rfl⟩
  · simpa [Piece.Sound] using hfield
  · exact ⟨names_none rfl rfl rfl, List.cons_ne_nil _ _, rfl⟩

theorem namedCall_leafCall (hfield : IsName field) (inJson : Bool) (v : Literal) :
    NamedCall P (leafCall inJson field v) := by
  unfold leafCall
  cases inJson with
  | false => exact namedCall_setter hfield (namesIn_literal v).argument
  | true =>
    apply namedCall_of_value (namesIn_literal v).argument [.code ".put(", .quoted field, .code ", "]
    · simp only [if_true, List.cons_append, List.nil_append, pieceText, List.foldr, Piece.text,
        String.append_assoc, String.append_empty]
    · intro m hm
      rw [List.cons_append, fit, Bool.and_eq_true, Bool.and_eq_true]
      exact ⟨⟨hm, rfl⟩, rfl⟩
    · simp [Piece.Sound]
    · exact ⟨names_none rfl rfl rfl, List.cons_ne_nil _ _, rfl⟩

theorem namedCall_objectCall (hfield : IsName field) {inJson : Bool}
    (hnode : inJson = true → P ⟨"ObjectNode", true⟩) (hvalue : NamesIn P value) :
    NamedCall P (objectCall inJson field value) := by
  unfold objectCall
  cases inJson with
  | false => exact namedCall_setter hfield hvalue.argument
  | true =>
    apply namedCall_of_value hvalue.argument [.code ".<ObjectNode>set(", .quoted field, .code ", "]
    · simp only [if_true, List.cons_append, List.nil_append, pieceText, List.foldr, Piece.text,
        String.append_assoc, String.append_empty]
    · intro m hm
      rw [List.cons_append, fit, Bool.and_eq_true, Bool.and_eq_true]
      exact ⟨⟨hm, rfl⟩, rfl⟩
    · simp [Piece.Sound]
    · exact ⟨names_one (hnode rfl) rfl rfl rfl, List.cons_ne_nil _ _, rfl⟩

theorem namedCall_build : NamedCall P ".build()" := by
  refine ⟨[.code ".build()"], String.append_empty.symm, ⟨fun m hm => ⟨?_, rfl⟩, ?_⟩, ?_⟩
  · rw [fit, Bool.and_eq_true, Bool.and_eq_true]
    exact ⟨⟨hm, rfl⟩, rfl⟩
  · exact List.forall_mem_singleton.2 trivial
  · exact ⟨names_none rfl rfl rfl, List.cons_ne_nil _ _, rfl⟩

theorem namesIn_built {name : String} (hname : IsName name) (huse : P ⟨name, false⟩)
    {calls : List String} (hcalls : ∀ s ∈ calls, NamedCall P s) :
    NamesIn P (name ++ ".builder()" ++ String.join calls ++ ".build()") := by
  have hall : ∀ s ∈ calls ++ [".build()"], NamedCall P s :=
    List.forall_mem_append.2 ⟨hcalls, List.forall_mem_singleton.2 namedCall_build⟩
  have hsound : ∀ p ∈ [Piece.name name, .code ".builder()"], p.Sound := by
    simpa [Piece.Sound] using hname
  have hnames : Names P ([Piece.name name, .code ".builder()"].flatMap Piece.tokens) :=
    names_one huse rfl rfl rfl
  have hcalled := namesIn_calls rfl rfl rfl hsound hnames hall
  have htext : pieceText [.name name, .code ".builder()"] ++ String.join (calls ++ [".build()"]) =
      name ++ ".builder()" ++ String.join calls ++ ".build()" := by
    rw [String.join_append]
    simp only [pieceText, List.foldr, Piece.text, String.join_cons, String.join_nil,
      String.append_assoc, String.append_empty]
  rwa [htext] at hcalled

theorem namesIn_newObject {kind : ObjectKind} (hkind : kind.Named) (huse : Buildable P kind)
    {calls : List String} (hcalls : ∀ s ∈ calls, NamedCall P s) :
    NamesIn P (newObject kind (String.join calls)) := by
  cases kind with
  | model name => exact namesIn_built hkind huse hcalls
  | json =>
    have hnames : Names P ([Piece.code "mapper.createObjectNode()"].flatMap Piece.tokens) :=
      names_one huse.1 rfl rfl rfl
    have hsound : ∀ p ∈ [Piece.code "mapper.createObjectNode()"], p.Sound :=
      List.forall_mem_singleton.2 trivial
    have hcalled := namesIn_calls rfl rfl rfl hsound hnames hcalls
    have hbase : pieceText [.code "mapper.createObjectNode()"] = "mapper.createObjectNode()" :=
      String.append_empty
    rwa [hbase] at hcalled

theorem mem_outerKinds {f : SampleField} {index : Nat} (h : index + 1 < f.path.depth) :
    .ofPath (f.path.upTo (index + 1)) ∈ f.outerKinds :=
  List.mem_map.2 ⟨index, List.mem_range.2 (by omega), rfl⟩

theorem isName_of_take {p : FieldPath} {names : List String} {index : Nat}
    (h : p.segments.take (index + 1) = names ++ [field]) (hnames : ∀ k ∈ p.segments, IsName k) :
    IsName field := by
  apply hnames field
  apply List.mem_of_mem_take (i := index + 1)
  rw [h]
  exact List.mem_append_right _ (List.mem_singleton.2 rfl)

theorem ofPath_upTo_of_take {p : FieldPath} {names : List String} {index : Nat}
    (h : p.segments.take (index + 1) = names ++ [field]) :
    ObjectKind.ofPath (p.upTo (index + 1)) = .ofField field (ObjectKind.along none names) := by
  rw [ObjectKind.ofPath, FieldPath.segments_upTo _ (Nat.succ_pos index), h, ObjectKind.along_append]
  rfl

theorem namedCall_nested (hfield : IsName field) {parent : Option ObjectKind}
    (huse : Buildable P (.ofField field parent)) {calls : List String}
    (hcalls : ∀ s ∈ calls, NamedCall P s) :
    NamedCall P (objectCall (parent == some .json) field
      (newObject (.ofField field parent) (String.join calls))) := by
  apply namedCall_objectCall hfield
  · intro hjson
    have hparent : parent = some .json := eq_of_beq hjson
    rw [hparent, ObjectKind.ofField, if_pos (.inr rfl)] at huse
    exact huse.2
  · exact namesIn_newObject (ObjectKind.named_ofField hfield parent) huse hcalls

theorem exists_calls_sampleCalls {levels index : Nat} {names : List String} {l : List SampleField}
    (htake : ∀ f ∈ l, f.path.segments.take index = names)
    (hdepth : EndsWithin levels index (·.path) l)
    (hnames : ∀ f ∈ l, ∀ k ∈ f.path.segments, IsName k)
    (huse : ∀ f ∈ l, ∀ kind ∈ f.outerKinds, Buildable P kind) :
    ∃ calls, sampleCalls levels (ObjectKind.along none names) index l = String.join calls ∧
      (∀ s ∈ calls, NamedCall P s) ∧ (l ≠ [] → calls ≠ []) := by
  -- on the levels below: the samples of a group share the object that they are set in
  induction levels generalizing index names l with
  | zero =>
    exact ⟨[], rfl, List.forall_mem_nil _, fun hne => absurd hdepth.eq_nil hne⟩
  | succ levels ih =>
    refine ⟨_, rfl, ?_, ?_⟩
    · rw [List.forall_mem_map]
      rintro ⟨field, items⟩ hg
      have hitems : ∀ f ∈ items, f ∈ l := fun f hf => ((mem_group_iff hg).1 hf).1
      have hbelow : ∀ f ∈ items, f.path.segments.take (index + 1) = names ++ [field] :=
        fun f hf => take_succ_of_mem_group htake hg hf
      obtain ⟨first, hfirst⟩ := List.exists_mem_of_ne_nil _ (group_ne_nil hg)
      have hfield := isName_of_take (hbelow first hfirst) (hnames first (hitems first hfirst))
      dsimp only
      cases hfind : items.find? (·.path.depth = index + 1) with
      | some leaf => exact namedCall_leafCall hfield _ leaf.value
      | none =>
        have hdeeper := hdepth.group_of_find? hg hfind
        have hbuild : Buildable P (.ofField field (ObjectKind.along none names)) :=
          ofPath_upTo_of_take (hbelow first hfirst) ▸
            huse first (hitems first hfirst) _ (mem_outerKinds (hdeeper first hfirst).1)
        obtain ⟨calls, hcalls, hnamed, -⟩ := ih hbelow hdeeper (fun f hf => hnames f (hitems f hf))
          fun f hf => huse f (hitems f hf)
        rw [ObjectKind.along_append] at hcalls
        rw [hcalls]
        exact namedCall_nested hfield hbuild hnamed
    · intro hne
      obtain ⟨f, hf⟩ := List.exists_mem_of_ne_nil _ hne
      obtain ⟨k, hk⟩ := FieldPath.exists_segment? (hdepth f hf).1
      obtain ⟨g, hg, -⟩ : ∃ g ∈ groupBySegment index (·.path) l, g.1 = k := exists_group hf hk
      exact List.ne_nil_of_mem (List.mem_map_of_mem hg)

theorem namesIn_customizer {var : String} (hvar : IsName var) (hscope : P ⟨var, false⟩)
    {l : List SampleField} (hidentity : customizer var l = "identity()" → P ⟨"identity", false⟩)
    (hnames : ∀ f ∈ l, ∀ k ∈ f.path.segments, IsName k)
    (huse : ∀ f ∈ l, ∀ kind ∈ f.outerKinds, Buildable P kind) : NamesIn P (customizer var l) := by
  by_cases hempty : l = []
  · have htext : customizer var l = "identity()" := by
      rw [hempty]
      rfl
    rw [htext]
    exact (lexes_code rfl rfl).namesIn (names_one (hidentity htext) rfl rfl rfl)
  have htake : ∀ f ∈ l, f.path.segments.take 0 = [] := fun _ _ => rfl
  obtain ⟨calls, hcalls, hnamed, hne⟩ :=
    exists_calls_sampleCalls htake (endsWithin_maxDepth _ l) hnames huse
  have htext : customizer var l =
      pieceText [.name var, .code " -> ", .name var] ++ String.join calls := by
    rw [customizer, if_neg (by simpa using hempty), ← hcalls]
    simp only [pieceText, List.foldr, Piece.text, String.append_assoc, String.append_empty]
    rfl
  obtain ⟨gs, hjoin, hgs, -, hbehind⟩ := exists_pieces_of_calls hnamed
  have hsound : ∀ p ∈ [Piece.name var, .code " -> ", .name var], p.Sound := by
    simpa [Piece.Sound] using hvar
  have hlexes := lexes_calls rfl rfl rfl hsound hgs
  have harrow : Names P [.word var, .symbol '-', .symbol '>'] :=
    names_one hscope rfl rfl rfl
  rw [htext, hjoin]
  exact hlexes.namesIn (harrow.append (NamesBehind.cons hscope (hbehind (hne hempty))))

theorem lex_sampleNumber (n : Nat) {ending : String} (hending : GoesOn ending.toList) :
    Whole (toString n ++ ending).toList ∧ tokens (toString n ++ ending) = [.number] := by
  have hdigits : (toString n).toList = digitsOf n := by
    rw [digitsOf, Nat.toString_eq_repr, Nat.toList_repr]
  obtain ⟨c, r, hcons⟩ := List.exists_cons_of_ne_nil (digitsOf_ne_nil n)
  obtain ⟨hc, hr⟩ := List.forall_mem_cons.1 (hcons ▸ (isDigits_digitsOf n).2)
  rw [tokens, String.toList_append, hdigits, hcons, List.cons_append]
  exact lex_digit_cons hc ((goesOn_digits hr).append hending)

theorem argument_number {s : String} (h : Whole s.toList ∧ tokens s = [.number]) : Argument P s where
  whole := h.1
  names c hc := by
    rw [h.2]
    obtain rfl | rfl := hc
    · exact names_none rfl rfl rfl
    · exact names_none rfl rfl rfl

theorem argument_paramLiteral (htrue : P ⟨"true", false⟩) (p : SampleParam) :
    Argument P (paramLiteral p) := by
  have hnone : GoesOn "".toList := goesOn_nil
  have hlong : GoesOn "L".toList := ⟨rfl, fun _ => rfl, by decide⟩
  have hdouble : GoesOn ".0".toList := ⟨rfl, fun _ => rfl, by decide⟩
  have hfloat : GoesOn ".0F".toList := ⟨rfl, fun _ => rfl, by decide⟩
  unfold paramLiteral
  cases p.param.type with
  | string => exact (lexes_quote _).namesIn (names_none rfl rfl rfl) |>.argument
  | integer =>
    have hnumber := lex_sampleNumber p.number hnone
    rw [String.append_empty] at hnumber
    exact argument_number hnumber
  | long => exact argument_number (lex_sampleNumber p.number hlong)
  | double => exact argument_number (lex_sampleNumber p.number hdouble)
  | float => exact argument_number (lex_sampleNumber p.number hfloat)
  | boolean =>
    change Argument P "true"
    refine ⟨(lexes_code rfl rfl).whole, fun c hc => ?_⟩
    obtain rfl | rfl := hc
    · exact names_one htrue rfl rfl rfl
    · exact names_one htrue rfl rfl rfl

def argumentPieces : List String → List Piece
  | [] => [.code ")"]
  | [s] => [.expr s, .code ")"]
  | s :: r => .expr s :: .code ", " :: argumentPieces r

theorem pieceText_argumentPieces (l : List String) :
    pieceText (argumentPieces l) = ", ".intercalate l ++ ")" := by
  fun_induction argumentPieces l with
  | case1 => rfl
  | case2 s =>
    rw [String.intercalate_singleton]
    rfl
  | case3 s r hr ih =>
    obtain ⟨t, r, rfl⟩ := List.exists_cons_of_ne_nil fun h => hr h
    change s ++ (", " ++ pieceText (argumentPieces (t :: r))) = _
    rw [ih, String.intercalate_cons_cons, String.append_assoc, String.append_assoc]

theorem names_argumentPieces {l : List String} (h : ∀ s ∈ l, Argument P s) :
    fit .blank (argumentPieces l) = true ∧ (∀ p ∈ argumentPieces l, p.Sound) ∧
      Names P ((argumentPieces l).flatMap Piece.tokens) := by
  fun_induction argumentPieces l with
  | case1 => exact ⟨rfl, List.forall_mem_singleton.2 trivial, names_none rfl rfl rfl⟩
  | case2 s =>
    have hs := List.forall_mem_singleton.1 h
    exact ⟨rfl, List.forall_mem_cons.2 ⟨hs.whole, List.forall_mem_singleton.2 trivial⟩,
      hs.names ')' (.inr rfl)⟩
  | case3 s r hr ih =>
    obtain ⟨hs, hrest⟩ := List.forall_mem_cons.1 h
    obtain ⟨hfit, hsound, hnames⟩ := ih hrest
    refine ⟨?_, List.forall_mem_cons.2 ⟨hs.whole, List.forall_mem_cons.2 ⟨trivial, hsound⟩⟩, ?_⟩
    · exact hfit
    · rw [List.flatMap_cons, List.flatMap_cons, ← List.append_assoc]
      exact (hs.names ',' (.inl rfl)).append hnames

theorem namesIn_extValue (ctx : RenderContext) (l : List SampleParam) (hext : IsName ctx.extClass)
    (hmapper : P ⟨"mapper", false⟩) (htrue : P ⟨"true", false⟩)
    (hclass : l ≠ [] → P ⟨ctx.extClass, false⟩)
    (hnames : builderThreshold < l.length → ∀ p ∈ l, IsName p.param.name) :
    NamesIn P (extValue ctx l) := by
  by_cases hempty : l = []
  · subst hempty
    change NamesIn P "mapper.createObjectNode()"
    exact (lexes_code rfl rfl).namesIn (names_one hmapper rfl rfl rfl)
  rw [extValue, if_neg (by simpa using hempty)]
  by_cases hmany : builderThreshold < l.length
  · rw [if_pos hmany]
    refine namesIn_built hext (hclass hempty) (List.forall_mem_map.2 fun p hp => ?_)
    exact namedCall_setter (hnames hmany p hp) (argument_paramLiteral htrue p)
  · rw [if_neg hmany]
    obtain ⟨hfit, hsound, hargs⟩ := names_argumentPieces
      (List.forall_mem_map.2 fun p (_ : p ∈ l) => argument_paramLiteral htrue p)
    apply NamesIn.of_pieces
      (l := .name ctx.extClass :: .code ".of(" :: argumentPieces (l.map paramLiteral))
    · change _ = ctx.extClass ++ (".of(" ++ pieceText (argumentPieces (l.map paramLiteral)))
      rw [pieceText_argumentPieces]
      simp only [String.append_assoc]
    · rfl
    · exact hfit
    · exact List.forall_mem_cons.2 ⟨hext, List.forall_mem_cons.2 ⟨trivial, hsound⟩⟩
    · have hhead : Names P [.word ctx.extClass, .symbol '.', .word "of", .symbol '('] :=
        names_one (hclass hempty) rfl rfl rfl
      exact hhead.append hargs

end

end AdapterForge.Java

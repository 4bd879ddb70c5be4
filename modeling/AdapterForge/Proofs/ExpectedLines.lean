import AdapterForge.Proofs.FreeNames

/-!
The lines of an expected request. Parentheses that are opened on one of them are closed on another, and
the names on them are those of the kinds of objects that are rebuilt.
-/
namespace AdapterForge.Java

def depthAfter (depth : Nat) : Token → Option Nat
  | .symbol '(' => some (depth + 1)
  | .symbol ')' =>
    match depth with
    | 0 => none
    | depth + 1 => some depth
  | _ => some depth

/-- How many parentheses are open at the end, unless more are closed than have been opened. -/
def nesting? (depth : Nat) (ts : List Token) : Option Nat := ts.foldlM depthAfter depth

def isSemicolon : Token → Bool
  | .symbol c => c = ';'
  | _ => false

/-- Tokens without semicolons between which the number of open parentheses goes from `i` to `o`, where
any number of others may be open as well. -/
structure Moves (i o : Nat) (ts : List Token) : Prop where
  depth : ∀ n, nesting? (n + i) ts = some (n + o)
  noSemicolon : ts.any isSemicolon = false

namespace Moves

variable {i j o : Nat} {ts us : List Token}

theorem append (ht : Moves i j ts) (hu : Moves j o us) : Moves i o (ts ++ us) where
  depth n := by
    rw [nesting?, List.foldlM_append]
    change (nesting? (n + i) ts).bind (fun d => nesting? d us) = _
    rw [ht.depth]
    exact hu.depth n
  noSemicolon := by rw [List.any_append, ht.noSemicolon, hu.noSemicolon]; rfl

theorem nil : Moves i i [] := ⟨fun _ => rfl, rfl⟩

theorem inside (h : Moves 0 0 ts) (k : Nat) : Moves k k ts := ⟨fun n => h.depth (n + k), h.noSemicolon⟩

theorem flatMap {α : Type} {f : α → List Token} {l : List α} (h : ∀ x ∈ l, Moves i i (f x)) :
    Moves i i (l.flatMap f) := by
  induction l with
  | nil => exact nil
  | cons x l ih =>
    obtain ⟨hx, hl⟩ := List.forall_mem_cons.1 h
    rw [List.flatMap_cons]
    exact hx.append (ih hl)

end Moves

/-- A text after which `k` more parentheses are open, with names of one kind. -/
structure Opens (P : NameUse → Prop) (k : Nat) (s : String) : Prop extends NamesIn P s where
  moves : Moves 0 k (tokens s)

section

variable {P : NameUse → Prop} {k o : Nat} {s value : String} {l : List Piece}

theorem Lexes.opens {ts : List Token} (h : Lexes s ts) (hmoves : Moves 0 k ts) (hnames : Names P ts) :
    Opens P k s := ⟨h.namesIn hnames, h.tokens_eq ▸ hmoves⟩

theorem Opens.of_pieces (htext : s = pieceText l) (hplain : startsPlain l = true)
    (hfit : fit .blank l = true) (hsound : ∀ p ∈ l, p.Sound)
    (hmoves : Moves 0 k (l.flatMap Piece.tokens)) (hnames : Names P (l.flatMap Piece.tokens)) :
    Opens P k s := (Lexes.of_pieces htext hplain hfit hsound).opens hmoves hnames

theorem opens_code (hplain : startsPlain [.code s] = true) (hfit : fit .blank [.code s] = true)
    (hmoves : Moves 0 k (tokens s)) (hnames : Names P (tokens s)) : Opens P k s :=
  (lexes_code hplain hfit).opens hmoves hnames

theorem Opens.of_value (hvalue : Opens P 0 value) (before after : List Piece)
    (htext : s = pieceText (before ++ .expr value :: after))
    (hplain : startsPlain (before ++ .expr value :: after) = true)
    (hfit : fit .blank (before ++ .expr value :: after) = true)
    (hbefore : Moves 0 o (before.flatMap Piece.tokens)) (hafter : Moves o k (after.flatMap Piece.tokens))
    (hsound : ∀ p ∈ before ++ after, p.Sound) (hnames : Names P (before.flatMap Piece.tokens))
    (hends : Names P (after.flatMap Piece.tokens)) : Opens P k s := by
  refine ⟨hvalue.toNamesIn.of_value before after htext hplain hfit hsound hnames hends, ?_⟩
  have htokens : tokens s = (before ++ .expr value :: after).flatMap Piece.tokens := by
    rw [htext]
    apply tokens_pieceText hfit
    rw [List.forall_mem_append] at hsound
    rw [List.forall_mem_append, List.forall_mem_cons]
    exact ⟨hsound.1, hvalue.whole, hsound.2⟩
  rw [htokens, List.flatMap_append, List.flatMap_cons]
  exact hbefore.append ((hvalue.moves.inside o).append hafter)

theorem opens_getterChain {base : String} (hplain : startsPlain [.code base] = true)
    (hfit : fit .blank [.code base] = true)
    (hpoint : (modeAfter .blank base.toList).endsBefore '.' = true)
    (hmoves : Moves 0 0 ([Piece.code base].flatMap Piece.tokens))
    (hnames : ∀ k, Names P ([Piece.code base].flatMap Piece.tokens ++
      [.symbol '.', .word k, .symbol '(', .symbol ')']))
    {fields : List String} (hfields : ∀ k ∈ fields, IsName k) (hne : fields ≠ []) :
    Opens P 0 (getterChain base fields) := by
  have hbase : pieceText [.code base] = base := String.append_empty
  have hlexes := lexes_getterChain hplain hfit hpoint (List.forall_mem_singleton.2 trivial) hfields
  rw [hbase] at hlexes
  exact hlexes.opens (hmoves.append (.flatMap fun _ _ => ⟨fun _ => rfl, rfl⟩)) (names_getters hnames hne)

theorem opens_paramChain (hgiven : P ⟨"bidRequest", false⟩) (params : List Param) (path : FieldPath) :
    Opens P 0 (paramChain params path) := by
  refine (lexes_paramChain params path).opens (Moves.append (j := 0) ⟨fun _ => rfl, rfl⟩ ?_)
    (Names.append (names_one hgiven rfl rfl rfl) ?_)
  all_goals rw [List.flatten_append, List.flatMap_append, ← List.flatMap_def, List.flatMap_assoc]
  · exact .append (.flatMap fun _ _ => ⟨fun _ => rfl, rfl⟩) ⟨fun _ => rfl, rfl⟩
  · exact .append (.flatMap fun _ _ => names_none rfl rfl rfl) (names_none rfl rfl rfl)

theorem opens_literal (l : Literal) : Opens P 0 (literal l) := by
  refine ⟨namesIn_literal l, ?_⟩
  cases l with
  | text s =>
    change Moves 0 0 (tokens (quote s))
    rw [(lexes_quote s).tokens_eq]
    exact ⟨fun _ => rfl, rfl⟩
  | number n =>
    obtain ⟨-, sign, htokens, hsign⟩ := lex_number n
    rw [literal, htokens]
    obtain rfl | rfl := hsign
    · exact ⟨fun _ => rfl, rfl⟩
    · exact ⟨fun _ => rfl, rfl⟩

theorem opens_expectedValue (hgiven : P ⟨"bidRequest", false⟩) (params : List Param) {x : Operand}
    (h : x.Named) : Opens P 0 (expectedValue params x) := by
  cases x with
  | literal l => exact opens_literal l
  | field x =>
    obtain ⟨root, path⟩ := x
    cases root with
    | imp =>
      exact opens_getterChain rfl rfl rfl ⟨fun _ => rfl, rfl⟩
        (fun _ => names_one hgiven rfl rfl rfl) h path.segments_ne_nil
    | impExt => exact opens_paramChain hgiven params path
    | request =>
      exact opens_getterChain rfl rfl rfl ⟨fun _ => rfl, rfl⟩
        (fun _ => names_one hgiven rfl rfl rfl) h path.segments_ne_nil

end

/-- What may be put behind any text. -/
structure IsEnding (s : String) : Prop where
  nonempty : s.toList ≠ []
  apart : ∀ m : Mode, m.isOutside = true → m.EndsBefore s.toList
  outside : (modeAfter .blank s.toList).isOutside = true
  oneLine : '\n' ∉ s.toList

theorem IsEnding.behind {s t : String} (ht : IsEnding t) (hs : Whole s.toList) :
    Whole (s ++ t).toList ∧ tokens (s ++ t) = tokens s ++ tokens t := by
  have hends := ht.apart _ hs.outside
  obtain ⟨c, r, hstart, hc⟩ := hs.start
  rw [tokens, String.toList_append]
  refine ⟨⟨⟨c, r ++ t.toList, by rw [hstart, List.cons_append], hc⟩, ?_, ?_⟩, lex_append hends⟩
  · rw [modeAfter_append, modeAfter_of_endsBefore hends ht.nonempty]
    exact ht.outside
  · rw [List.mem_append, not_or]
    exact ⟨hs.oneLine, ht.oneLine⟩

theorem isEnding_of_head {s : String} {c : Char} {r : List Char} (hs : s.toList = c :: r)
    (hc : (Mode.number true).endsBefore c = true)
    (houtside : (modeAfter .blank s.toList).isOutside = true) (honeLine : '\n' ∉ s.toList) :
    IsEnding s where
  nonempty := by simp [hs]
  apart m hm := by
    refine ⟨hm, fun d t hd => ?_⟩
    obtain ⟨rfl, -⟩ := List.cons.inj (hs.symm.trans hd)
    exact Piece.endsBefore_of_number hm hc
  outside := houtside
  oneLine := honeLine

/-- Lines of an expression between parentheses, which are opened and closed on any of them, with names
of one kind. -/
structure Block (P : NameUse → Prop) (l : List Line) : Prop where
  lines : ∀ x ∈ l, 2 ≤ x.level ∧ Whole x.text.toList
  moves : Moves 0 0 (l.flatMap (tokens ·.text))
  names : Names P (l.flatMap (tokens ·.text))

def Usable (P : NameUse → Prop) : ObjectKind → Prop
  | .model name => P ⟨name, false⟩
  | .json => P ⟨"node", false⟩ ∧ P ⟨"mapper", false⟩ ∧ P ⟨"JsonNode", false⟩ ∧
      P ⟨"ObjectNode", false⟩ ∧ P ⟨"ObjectNode", true⟩

section

variable {P : NameUse → Prop}

namespace Block

variable {l m : List Line}

theorem nil : Block P [] := ⟨List.forall_mem_nil _, .nil, .nil⟩

theorem append (hl : Block P l) (hm : Block P m) : Block P (l ++ m) where
  lines := List.forall_mem_append.2 ⟨hl.lines, hm.lines⟩
  moves := by
    rw [List.flatMap_append]
    exact hl.moves.append hm.moves
  names := by
    rw [List.flatMap_append]
    exact hl.names.append hm.names

theorem line {s : String} (h : Opens P 0 s) : Block P [⟨2, s⟩] where
  lines := List.forall_mem_singleton.2 ⟨Nat.le_refl 2, h.whole⟩
  moves := by
    rw [List.flatMap_singleton]
    exact h.moves
  names := by
    rw [List.flatMap_singleton]
    exact h.names

theorem cons {s : String} (h : Opens P 0 s) (hl : Block P l) : Block P (⟨2, s⟩ :: l) :=
  (line h).append hl

end Block

theorem closeLast_spec {ending : String} (hending : IsEnding ending) {Q : Nat → Prop} {first : Line}
    {lines : List Line} (h : ∀ l ∈ first :: lines, Q l.level ∧ Whole l.text.toList) :
    (∀ l ∈ closeLast ending first lines, Q l.level ∧ Whole l.text.toList) ∧
      (closeLast ending first lines).flatMap (tokens ·.text) =
        (first :: lines).flatMap (tokens ·.text) ++ tokens ending := by
  induction lines generalizing first with
  | nil =>
    obtain ⟨hlevel, hwhole⟩ := List.forall_mem_singleton.1 h
    obtain ⟨hbehind, htokens⟩ := hending.behind hwhole
    rw [closeLast, List.flatMap_singleton, List.flatMap_singleton]
    exact ⟨List.forall_mem_singleton.2 ⟨hlevel, hbehind⟩, htokens⟩
  | cons l lines ih =>
    obtain ⟨hfirst, hlines⟩ := List.forall_mem_cons.1 h
    obtain ⟨hall, htokens⟩ := ih hlines
    rw [closeLast, List.flatMap_cons, htokens, ← List.append_assoc]
    exact ⟨List.forall_mem_cons.2 ⟨hfirst, hall⟩, rfl⟩

theorem block_nest {opening head ending : String} {tail : List Line} {k : Nat}
    (hopening : Opens P k (opening ++ head)) (htail : Block P tail) (hending : IsEnding ending)
    (hmoves : Moves k 0 (tokens ending)) (hnames : Names P (tokens ending)) :
    Block P (nest opening head tail ending) := by
  have hlines : ∀ l ∈ (⟨2, opening ++ head⟩ : Line) :: tail.map (fun l => ⟨l.level + 2, l.text⟩),
      2 ≤ l.level ∧ Whole l.text.toList := by
    rw [List.forall_mem_cons, List.forall_mem_map]
    exact ⟨⟨Nat.le_refl 2, hopening.whole⟩,
      fun l hl => ⟨Nat.le_add_left 2 l.level, (htail.lines l hl).2⟩⟩
  obtain ⟨hall, htokens⟩ := closeLast_spec hending hlines
  rw [List.flatMap_cons, List.flatMap_map] at htokens
  refine ⟨hall, ?_, ?_⟩
  · rw [nest, htokens]
    exact (hopening.moves.append (htail.moves.inside k)).append hmoves
  · rw [nest, htokens]
    exact (hopening.names.append htail.names).append hnames

theorem block_stepLines {parent : ObjectKind} {field : String} (hparent : parent.Named)
    (huse : Usable P parent) (hfield : IsName field) : Block P (stepLines parent field) := by
  cases parent with
  | model name =>
    apply Block.line
    apply Opens.of_pieces (l := [.code ".map(", .name name, .code "::", .name (getter field), .code ")"])
    · simp only [pieceText, List.foldr, Piece.text, String.append_assoc, String.append_empty]
    · rfl
    · rfl
    · simpa [Piece.Sound] using ⟨hparent, (isIdentifier_getter hfield).1⟩
    · exact ⟨fun _ => rfl, rfl⟩
    · exact names_one huse rfl rfl rfl
  | json =>
    obtain ⟨hnode, -, hjsonNode, hobjectNode, -⟩ := huse
    refine .cons ?_ (.cons (opens_code rfl rfl ⟨fun _ => rfl, rfl⟩ ?_)
      (.line (opens_code rfl rfl ⟨fun _ => rfl, rfl⟩ ?_)))
    · apply Opens.of_pieces (l := [.code ".map(node -> node.get(", .quoted field, .code "))"])
      · simp only [pieceText, List.foldr, Piece.text, String.append_assoc, String.append_empty]
      · rfl
      · rfl
      · simp [Piece.Sound]
      · exact ⟨fun _ => rfl, rfl⟩
      · exact ⟨List.forall_mem_cons.2 ⟨hnode, List.forall_mem_singleton.2 hnode⟩, rfl, rfl⟩
    · exact names_one hjsonNode rfl rfl rfl
    · exact names_one hobjectNode rfl rfl rfl

theorem block_builderLines {kind : ObjectKind} (hkind : kind.Named) (huse : Usable P kind) :
    Block P (builderLines kind) := by
  cases kind with
  | model name =>
    have hname : IsName name := hkind
    refine .cons ?_ (.line ?_)
    · apply Opens.of_pieces (l := [.code ".map(", .name name, .code "::toBuilder)"])
      · simp only [pieceText, List.foldr, Piece.text, String.append_assoc, String.append_empty]
      · rfl
      · rfl
      · simpa [Piece.Sound] using hname
      · exact ⟨fun _ => rfl, rfl⟩
      · exact names_one huse rfl rfl rfl
    · apply Opens.of_pieces (l := [.code ".orElseGet(", .name name, .code "::builder)"])
      · simp only [pieceText, List.foldr, Piece.text, String.append_assoc, String.append_empty]
      · rfl
      · rfl
      · simpa [Piece.Sound] using hname
      · exact ⟨fun _ => rfl, rfl⟩
      · exact names_one huse rfl rfl rfl
  | json =>
    obtain ⟨-, hmapper, -, hobjectNode, -⟩ := huse
    exact .cons (opens_code rfl rfl ⟨fun _ => rfl, rfl⟩ (names_one hobjectNode rfl rfl rfl))
      (.line (opens_code rfl rfl ⟨fun _ => rfl, rfl⟩ (names_one hmapper rfl rfl rfl)))

theorem block_seedRest {parent : ObjectKind} (hparent : parent.Named) (huse : Usable P parent)
    {steps : List Step} (hsteps : ∀ s ∈ steps, s.Named ∧ Usable P s.kind) :
    Block P (seedRest parent steps) := by
  induction steps generalizing parent with
  | nil => exact block_builderLines hparent huse
  | cons s steps ih =>
    obtain ⟨⟨hs, hkind⟩, hsteps⟩ := List.forall_mem_cons.1 hsteps
    exact (block_stepLines hparent huse hs.field).append (ih hs.kind hkind hsteps)

theorem block_seedTail {steps : List Step} (hsteps : ∀ s ∈ steps, s.Named ∧ Usable P s.kind) :
    Block P (seedTail steps) := by
  cases steps with
  | nil => exact .nil
  | cons s steps =>
    obtain ⟨⟨hs, hkind⟩, hsteps⟩ := List.forall_mem_cons.1 hsteps
    exact block_seedRest hs.kind hkind hsteps

theorem opens_seedHead (hgiven : P ⟨"bidRequest", false⟩) (root : ExpectedRoot) {steps : List Step}
    (hsteps : ∀ s ∈ steps, s.Named) (hoptional : steps ≠ [] → P ⟨"Optional", false⟩) :
    Opens P 0 (seedHead root steps) := by
  cases steps with
  | nil => cases root <;> exact opens_code rfl rfl ⟨fun _ => rfl, rfl⟩ (names_one hgiven rfl rfl rfl)
  | cons s steps =>
    have hs := (List.forall_mem_cons.1 hsteps).1
    have hgetter : IsName (getter s.field) := (isIdentifier_getter hs.field).1
    have huses : ∀ u ∈ [(⟨"Optional", false⟩ : NameUse), ⟨"bidRequest", false⟩], P u :=
      List.forall_mem_cons.2 ⟨hoptional (List.cons_ne_nil _ _), List.forall_mem_singleton.2 hgiven⟩
    cases root with
    | request =>
      apply Opens.of_pieces (l := [.code "Optional.ofNullable(", .code "bidRequest", .code ".",
        .name (getter s.field), .code "())"])
      · change "Optional.ofNullable(" ++ "bidRequest" ++ "." ++ getter s.field ++ "())" = _
        simp only [pieceText, List.foldr, Piece.text, String.append_assoc, String.append_empty]
      · rfl
      · rfl
      · simpa [Piece.Sound] using hgetter
      · exact ⟨fun _ => rfl, rfl⟩
      · exact ⟨huses, rfl, rfl⟩
    | firstImp =>
      apply Opens.of_pieces (l := [.code "Optional.ofNullable(", .code "bidRequest.getImp().get(0)",
        .code ".", .name (getter s.field), .code "())"])
      · change "Optional.ofNullable(" ++ "bidRequest.getImp().get(0)" ++ "." ++ getter s.field ++
          "())" = _
        simp only [pieceText, List.foldr, Piece.text, String.append_assoc, String.append_empty]
      · rfl
      · rfl
      · simpa [Piece.Sound] using hgetter
      · exact ⟨fun _ => rfl, rfl⟩
      · exact ⟨huses, rfl, rfl⟩

theorem opens_objectOpening {kind : ObjectKind} (huse : Usable P kind) {field head : String}
    (hfield : IsName field) (hhead : Opens P 0 head) : Opens P 1 (objectOpening kind field ++ head) := by
  cases kind with
  | model name =>
    apply hhead.of_value (o := 1) [.code ".", .name field, .code "("] []
    · change "." ++ field ++ "(" ++ head = _
      simp only [List.cons_append, List.nil_append, pieceText, List.foldr, Piece.text,
        String.append_assoc, String.append_empty]
    · rfl
    · rfl
    · exact ⟨fun _ => rfl, rfl⟩
    · exact .nil
    · simpa [Piece.Sound] using hfield
    · exact names_none rfl rfl rfl
    · exact .nil
  | json =>
    obtain ⟨-, -, -, -, hobjectNode⟩ := huse
    apply hhead.of_value (o := 1) [.code ".<ObjectNode>set(", .quoted field, .code ", "] []
    · change ".<ObjectNode>set(" ++ quote field ++ ", " ++ head = _
      simp only [List.cons_append, List.nil_append, pieceText, List.foldr, Piece.text,
        String.append_assoc, String.append_empty]
    · rfl
    · rfl
    · exact ⟨fun _ => rfl, rfl⟩
    · exact .nil
    · simp [Piece.Sound]
    · exact names_one hobjectNode rfl rfl rfl
    · exact .nil

theorem isEnding_parenthesis : IsEnding ")" :=
  isEnding_of_head (c := ')') (r := []) rfl rfl rfl (by decide)

theorem isEnding_parentheses : IsEnding "))" :=
  isEnding_of_head (c := ')') (r := [')']) rfl rfl rfl (by decide)

theorem isEnding_semicolon : IsEnding ";" :=
  isEnding_of_head (c := ';') (r := []) rfl rfl rfl (by decide)

theorem Opens.close {k o : Nat} {s ending : String} (h : Opens P k s) (hending : IsEnding ending)
    (hmoves : Moves k o (tokens ending)) (hnames : Names P (tokens ending)) :
    Opens P o (s ++ ending) := by
  obtain ⟨hwhole, htokens⟩ := hending.behind h.whole
  refine ⟨⟨hwhole, ?_⟩, ?_⟩
  · rw [htokens]
    exact h.names.append hnames
  · rw [htokens]
    exact h.moves.append hmoves

theorem opens_toTree (hmapper : P ⟨"mapper", false⟩) {value : String} (hvalue : Opens P 0 value) :
    Opens P 0 ("mapper.valueToTree(" ++ value ++ ")") := by
  apply hvalue.of_value (o := 1) [.code "mapper.valueToTree("] [.code ")"]
  · simp only [List.cons_append, List.nil_append, pieceText, List.foldr, Piece.text,
      String.append_assoc, String.append_empty]
  · rfl
  · rfl
  · exact ⟨fun _ => rfl, rfl⟩
  · exact ⟨fun _ => rfl, rfl⟩
  · simp [Piece.Sound]
  · exact names_one hmapper rfl rfl rfl
  · exact names_none rfl rfl rfl

theorem opens_putCall {value : String} (field : String) (hvalue : Opens P 0 value) :
    Opens P 0 (".put(" ++ quote field ++ ", " ++ value ++ ")") := by
  apply hvalue.of_value (o := 1) [.code ".put(", .quoted field, .code ", "] [.code ")"]
  · simp only [List.cons_append, List.nil_append, pieceText, List.foldr, Piece.text,
      String.append_assoc, String.append_empty]
  · rfl
  · rfl
  · exact ⟨fun _ => rfl, rfl⟩
  · exact ⟨fun _ => rfl, rfl⟩
  · simp [Piece.Sound]
  · exact names_none rfl rfl rfl
  · exact names_none rfl rfl rfl

theorem opens_valueCall (hgiven : P ⟨"bidRequest", false⟩) (params : List Param) {kind : ObjectKind}
    (huse : Usable P kind) {field : String} (hfield : IsName field) {x : Operand} (hx : x.Named) :
    Opens P 0 (valueCall params kind field x) := by
  have hvalue := opens_expectedValue hgiven params hx
  have hclose {s : String} (h : Opens P 1 s) : Opens P 0 (s ++ ")") :=
    h.close isEnding_parenthesis ⟨fun _ => rfl, rfl⟩ (names_none rfl rfl rfl)
  cases kind with
  | model name => exact hclose (opens_objectOpening huse hfield hvalue)
  | json =>
    cases x with
    | literal l => exact opens_putCall field hvalue
    | field x =>
      have htree := opens_toTree huse.2.1 hvalue
      have hopen : ", mapper.valueToTree(" = ", " ++ "mapper.valueToTree(" := by decide
      have hends : "))" = ")" ++ ")" := by decide
      have htext : valueCall params .json field (.field x) =
          objectOpening .json field ++
            ("mapper.valueToTree(" ++ expectedValue params (.field x) ++ ")") ++ ")" := by
        change ".<ObjectNode>set(" ++ quote field ++ ", mapper.valueToTree(" ++
          expectedValue params (.field x) ++ "))" = ".<ObjectNode>set(" ++ quote field ++ ", " ++ _ ++ _
        rw [hopen, hends]
        simp only [String.append_assoc]
      rw [htext]
      exact hclose (opens_objectOpening huse hfield htree)

theorem block_objectTail {params : List Param} (root : ExpectedRoot) {steps : List Step}
    (hsteps : ∀ s ∈ steps, s.Named ∧ Usable P s.kind) {os : List Override}
    (hos : Block P (overrideLines params (kindAfter root steps) os)) :
    Block P (objectTail params (.mk root steps os)) := by
  have hbuild : Block P (buildLines (kindAfter root steps)) := by
    cases kindAfter root steps with
    | model name => exact .line (opens_code rfl rfl ⟨fun _ => rfl, rfl⟩ (names_none rfl rfl rfl))
    | json => exact .nil
  rw [objectTail]
  exact ((block_seedTail hsteps).append hos).append hbuild

theorem usable_kindAfter (root : ExpectedRoot) {steps : List Step} (hne : steps ≠ [])
    (hsteps : ∀ s ∈ steps, Usable P s.kind) : Usable P (kindAfter root steps) := by
  have hlast := List.getLast?_eq_some_getLast hne
  unfold kindAfter
  rw [hlast]
  exact hsteps _ (List.getLast_mem hne)

/-- By induction on the tree: what is put before an object is closed behind its last line, and each
object names what its steps lead through. -/
theorem block_overrideLines (hgiven : P ⟨"bidRequest", false⟩) (params : List Param)
    {root : ExpectedRoot} {names : List String} {os : List Override} (h : PlacedIn root names os)
    (hnames : ∀ k ∈ names, IsName k) (hos : AllNamed os) (huse : ∀ kind ∈ stepKindsOf os, Usable P kind)
    (hoptional : rebuildsAny os = true → P ⟨"Optional", false⟩) {kind : ObjectKind}
    (hkind : Usable P kind) : Block P (overrideLines params kind os) := by
  induction h generalizing kind with
  | nil =>
    rw [overrideLines]
    exact .nil
  | value _ ih =>
    obtain ⟨hfield, hvalue, hos⟩ := hos
    rw [overrideLines]
    exact .cons (opens_valueCall hgiven params hkind hfield hvalue) (ih hnames hos huse hoptional hkind)
  | @object names field inner r _ _ ihi ihr =>
    obtain ⟨hfield, hinner, hos⟩ := hos
    rw [stepKindsOf, ExpectedObject.stepKinds, List.append_assoc, List.forall_mem_append,
      List.forall_mem_append, List.forall_mem_map] at huse
    obtain ⟨hstepUse, hinnerUse, hrestUse⟩ := huse
    have hnode : P ⟨"Optional", false⟩ := hoptional rfl
    have hbelow : ∀ k ∈ names ++ [field], IsName k :=
      List.forall_mem_append.2 ⟨hnames, List.forall_mem_singleton.2 hfield⟩
    have hsteps : ∀ s ∈ stepsTo (names ++ [field]), s.Named := named_stepsFrom hbelow
    have hne : stepsTo (names ++ [field]) ≠ [] := by
      intro hnil
      have hfields := map_field_stepsFrom none (names ++ [field])
      rw [← stepsTo, hnil] at hfields
      exact List.append_ne_nil_of_right_ne_nil names (List.cons_ne_nil field []) hfields.symm
    rw [overrideLines]
    refine (block_nest (k := 1) ?_ ?_ isEnding_parenthesis ⟨fun _ => rfl, rfl⟩
      (names_none rfl rfl rfl)).append (ihr hnames hos hrestUse (fun _ => hnode) hkind)
    · exact opens_objectOpening hkind hfield (opens_seedHead hgiven root hsteps fun _ => hnode)
    · exact block_objectTail root (fun s hs => ⟨hsteps s hs, hstepUse s hs⟩)
        (ihi hbelow hinner hinnerUse (fun _ => hnode) (usable_kindAfter root hne hstepUse))

structure ExpectedUses (P : NameUse → Prop) (o : ExpectedObject) : Prop where
  given : P ⟨"bidRequest", false⟩
  imp : P ⟨"Imp", false⟩
  request : P ⟨"BidRequest", false⟩
  list : P ⟨"singletonList", false⟩
  kinds : ∀ kind ∈ o.stepKinds, Usable P kind
  optional : o.rebuilds = true → P ⟨"Optional", false⟩

theorem expectedUses_of_forall (h : ∀ u, P u) (o : ExpectedObject) : ExpectedUses P o where
  given := h _
  imp := h _
  request := h _
  list := h _
  kinds kind _ := by
    cases kind with
    | model name => exact h _
    | json => exact ⟨h _, h _, h _, h _, h _⟩
  optional _ := h _

theorem block_expectationOf (params : List Param) (imp : Plan) {first rest : List Override}
    (hfirst : PlacedIn .firstImp [] first) (hrest : PlacedIn .request [] rest)
    (hfirstNames : AllNamed first) (hrestNames : AllNamed rest)
    (h : ExpectedUses P (expectationOf imp first rest)) :
    Block P (objectTail params (expectationOf imp first rest)) := by
  have hnone {P : Step → Prop} : ∀ s ∈ ([] : List Step), P s := List.forall_mem_nil P
  have hempty : ∀ k ∈ ([] : List String), IsName k := List.forall_mem_nil _
  refine block_objectTail .request hnone ?_
  obtain ⟨hgiven, himp, hrequest, hlist, hkinds, hoptional⟩ := h
  change ∀ kind ∈ stepKindsOf _, Usable P kind at hkinds
  change rebuildsAny _ = true → _ at hoptional
  have himp : Usable P (kindAfter .firstImp []) := himp
  have hrequest : Usable P (kindAfter .request []) := hrequest
  cases hempt : imp.isEmpty with
  | true =>
    rw [hempt] at hkinds hoptional
    exact block_overrideLines hgiven params hrest hempty hrestNames hkinds hoptional hrequest
  | false =>
    rw [hempt, if_neg Bool.false_ne_true, List.singleton_append, stepKindsOf,
      ExpectedObject.stepKinds, List.map_nil, List.nil_append, List.forall_mem_append] at hkinds
    rw [hempt, if_neg Bool.false_ne_true, List.singleton_append, rebuildsAny,
      ExpectedObject.rebuilds, Bool.or_eq_true] at hoptional
    have hrestLines := block_overrideLines hgiven params hrest hempty hrestNames hkinds.2
      (fun h => hoptional (.inr h)) hrequest
    rw [if_neg Bool.false_ne_true, List.singleton_append, overrideLines]
    refine (block_nest (k := 2) ?_ ?_ isEnding_parentheses ⟨fun _ => rfl, rfl⟩
      (names_none rfl rfl rfl)).append hrestLines
    · apply (opens_seedHead hgiven .firstImp hnone (absurd rfl)).of_value (o := 2)
        [.code ".imp(singletonList("] []
      · exact congrArg (".imp(singletonList(" ++ ·) String.append_empty.symm
      · rfl
      · rfl
      · exact ⟨fun _ => rfl, rfl⟩
      · exact .nil
      · simp [Piece.Sound]
      · exact names_one hlist rfl rfl rfl
      · exact .nil
    · exact block_objectTail .firstImp hnone (block_overrideLines hgiven params hfirst hempty
        hfirstNames hkinds.1 (fun h => hoptional (.inl h)) himp)

theorem names_expectedRequest {imp : Plan} {first rest : List Override} (ctx : RenderContext)
    (level : Nat) (hunit : ∀ c ∈ ctx.indent.toList, c = ' ' ∨ c = '\t')
    (hhead : Names P (tokens "final BidRequest expectedRequest = bidRequest.toBuilder()"))
    (htail : Block P (objectTail ctx.params (expectationOf imp first rest))) :
    Names P (tokens (expectedRequest (expectationOf imp first rest) ctx level)) := by
  have hlines : ∀ l ∈ (⟨0, "final BidRequest expectedRequest = bidRequest.toBuilder()"⟩ : Line) ::
      objectTail ctx.params (expectationOf imp first rest), True ∧ Whole l.text.toList :=
    List.forall_mem_cons.2 ⟨⟨trivial, (lexes_code rfl rfl).whole⟩,
      fun l hl => ⟨trivial, (htail.lines l hl).2⟩⟩
  obtain ⟨hall, htokens⟩ := closeLast_spec (Q := fun _ => True) isEnding_semicolon hlines
  apply names_layout hunit
  · exact List.forall_mem_map.2 fun l hl => .inr (hall l hl).2
  · rw [List.flatMap_map]
    change Names P ((closeLast ";" ⟨0, "final BidRequest expectedRequest = bidRequest.toBuilder()"⟩
      (objectTail ctx.params (expectationOf imp first rest))).flatMap (tokens ·.text))
    rw [htokens, List.flatMap_cons]
    exact (hhead.append htail.names).append (names_none rfl rfl rfl)

end

end AdapterForge.Java

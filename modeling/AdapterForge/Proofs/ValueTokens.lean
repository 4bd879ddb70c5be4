import AdapterForge.Proofs.SourceAccess
import AdapterForge.Proofs.Tokens
import AdapterForge.Proofs.TreeNames

/-!
The tokens of written values: a literal is a number or a string, and a copied field is a chain of calls
behind the object that it is read from.
-/
namespace AdapterForge.Java

theorem pieceText_append (l r : List Piece) : pieceText (l ++ r) = pieceText l ++ pieceText r := by
  induction l with
  | nil => exact String.empty_append.symm
  | cons p l ih =>
    change p.text ++ pieceText (l ++ r) = p.text ++ pieceText l ++ pieceText r
    rw [ih, String.append_assoc]

theorem pieceText_flatMap {α : Type} (f : α → List Piece) (l : List α) :
    pieceText (l.flatMap f) = String.join (l.map fun x => pieceText (f x)) := by
  induction l with
  | nil => rfl
  | cons x l ih => rw [List.flatMap_cons, pieceText_append, ih, List.map_cons, String.join_cons]

def lastMode (m : Mode) (l : List Piece) : Mode := l.foldl (fun _ p => p.mode) m

theorem fit_append {m : Mode} {l r : List Piece} (hl : fit m l = true)
    (hr : fit (lastMode m l) r = true) : fit m (l ++ r) = true := by
  induction l generalizing m with
  | nil => exact hr
  | cons p l ih =>
    simp only [fit, Bool.and_eq_true] at hl
    simp only [List.cons_append, fit, Bool.and_eq_true]
    exact ⟨hl.1, ih hl.2 hr⟩

structure Lexes (s : String) (ts : List Token) : Prop where
  whole : Whole s.toList
  tokens_eq : tokens s = ts

theorem lexes_pieceText {l : List Piece} (hplain : startsPlain l = true) (hfit : fit .blank l = true)
    (hsound : ∀ p ∈ l, p.Sound) : Lexes (pieceText l) (l.flatMap Piece.tokens) :=
  ⟨whole_pieceText hplain hfit hsound, tokens_pieceText hfit hsound⟩

theorem Lexes.of_pieces {s : String} {l : List Piece} (htext : s = pieceText l)
    (hplain : startsPlain l = true) (hfit : fit .blank l = true) (hsound : ∀ p ∈ l, p.Sound) :
    Lexes s (l.flatMap Piece.tokens) := htext ▸ lexes_pieceText hplain hfit hsound

theorem lexes_code {s : String} (hplain : startsPlain [.code s] = true)
    (hfit : fit .blank [.code s] = true) : Lexes s (tokens s) := by
  have hlexes := Lexes.of_pieces (s := s) (l := [.code s]) String.append_empty.symm hplain hfit
    (List.forall_mem_singleton.2 trivial)
  simpa [Piece.tokens] using hlexes

theorem lexes_quote (s : String) : Lexes (quote s) [.literal] :=
  .of_pieces (l := [.quoted s]) String.append_empty.symm rfl rfl (List.forall_mem_singleton.2 trivial)

structure IsCall (g : List Piece) : Prop where
  fit_of_point : ∀ m : Mode, m.endsBefore '.' = true → fit m g = true ∧ lastMode m g = .blank
  sound : ∀ p ∈ g, p.Sound

theorem fit_calls {calls : List (List Piece)} (h : ∀ g ∈ calls, IsCall g) {m : Mode}
    (hm : m.endsBefore '.' = true) : fit m calls.flatten = true := by
  induction calls generalizing m with
  | nil => exact Piece.outside_of_endsBefore hm
  | cons g calls ih =>
    obtain ⟨hg, hcalls⟩ := List.forall_mem_cons.1 h
    obtain ⟨hfit, hlast⟩ := hg.fit_of_point m hm
    exact fit_append hfit (hlast.symm ▸ ih hcalls rfl)

theorem lexes_calls {base : List Piece} (hplain : startsPlain base = true)
    (hfit : fit .blank base = true) (hpoint : (lastMode .blank base).endsBefore '.' = true)
    (hbase : ∀ p ∈ base, p.Sound) {calls : List (List Piece)} (hcalls : ∀ g ∈ calls, IsCall g) :
    Lexes (pieceText base ++ pieceText calls.flatten)
      (base.flatMap Piece.tokens ++ calls.flatten.flatMap Piece.tokens) := by
  rw [← pieceText_append, ← List.flatMap_append]
  apply lexes_pieceText
  · cases base with
    | nil => cases hplain
    | cons p base => cases p <;> exact hplain
  · exact fit_append hfit (fit_calls hcalls hpoint)
  · rw [List.forall_mem_append]
    refine ⟨hbase, fun p hp => ?_⟩
    obtain ⟨g, hg, hp⟩ := List.mem_flatten.1 hp
    exact (hcalls g hg).sound p hp

def getterCall (k : String) : List Piece := [.code ".", .name k, .code "()"]

def nodeCall (k : String) : List Piece := [.code ".get(", .quoted k, .code ")"]

theorem isCall_getter {k : String} (h : IsName k) : IsCall (getterCall k) where
  fit_of_point m hm := by
    refine ⟨?_, rfl⟩
    rw [getterCall, fit, Bool.and_eq_true, Bool.and_eq_true]
    exact ⟨⟨hm, rfl⟩, rfl⟩
  sound := by simpa [getterCall, Piece.Sound] using h

theorem isCall_node (k : String) : IsCall (nodeCall k) where
  fit_of_point m hm := by
    refine ⟨?_, rfl⟩
    rw [nodeCall, fit, Bool.and_eq_true, Bool.and_eq_true]
    exact ⟨⟨hm, rfl⟩, rfl⟩
  sound := by simp [nodeCall, Piece.Sound]

theorem lexes_getterChain {base : List Piece} (hplain : startsPlain base = true)
    (hfit : fit .blank base = true) (hpoint : (lastMode .blank base).endsBefore '.' = true)
    (hbase : ∀ p ∈ base, p.Sound) {fields : List String} (hfields : ∀ k ∈ fields, IsName k) :
    Lexes (getterChain (pieceText base) fields)
      (base.flatMap Piece.tokens ++ fields.flatMap fun k =>
        [.symbol '.', .word (getter k), .symbol '(', .symbol ')']) := by
  have htext : getterChain (pieceText base) fields =
      pieceText base ++ pieceText (fields.map fun k => getterCall (getter k)).flatten := by
    rw [getterChain_eq, ← List.flatMap_def, pieceText_flatMap]
    rfl
  rw [htext]
  have hcalls : ∀ g ∈ fields.map fun k => getterCall (getter k), IsCall g :=
    List.forall_mem_map.2 fun k hk => isCall_getter (isIdentifier_getter (hfields k hk)).1
  have hlexes := lexes_calls hplain hfit hpoint hbase hcalls
  rw [← List.flatMap_def, List.flatMap_assoc] at hlexes
  exact hlexes

theorem isName_nodeAccessor (t : Option ParamType) : IsName (nodeAccessor t) := by
  cases t with
  | none => decide
  | some t => cases t <;> decide

theorem paramChain_eq (params : List Param) (path : FieldPath) :
    paramChain params path = pieceText [.code "bidRequest.getImp().get(0)", .code ".getExt()"] ++
      pieceText (("bidder" :: path.segments).map nodeCall ++
        [getterCall (nodeAccessor ((params.find? (·.name = path.leaf)).map (·.type)))]).flatten := by
  have hchain (l : List String) (base : String) :
      l.foldl (fun t k => t ++ ".get(" ++ quote k ++ ")") base =
        base ++ pieceText (l.flatMap nodeCall) := by
    induction l generalizing base with
    | nil => simp [pieceText]
    | cons k l ih =>
      rw [List.foldl_cons, ih, List.flatMap_cons, pieceText_append]
      simp [pieceText, nodeCall, Piece.text, String.append_assoc]
  have hbidder : ".getExt().get(" = ".getExt()" ++ ".get(" := by decide
  unfold paramChain firstImp
  dsimp only
  rw [hbidder, hchain, List.flatten_append, ← List.flatMap_def, pieceText_append, List.flatMap_cons,
    pieceText_append]
  simp only [pieceText, nodeCall, getterCall, Piece.text, List.foldr_cons, List.foldr_nil,
    List.flatten_singleton, String.append_assoc, String.append_empty]

theorem lexes_paramChain (params : List Param) (path : FieldPath) :
    Lexes (paramChain params path)
      ([Piece.code "bidRequest.getImp().get(0)", .code ".getExt()"].flatMap Piece.tokens ++
      (("bidder" :: path.segments).map nodeCall ++
        [getterCall (nodeAccessor ((params.find? (·.name = path.leaf)).map (·.type)))]).flatten.flatMap
          Piece.tokens) := by
  rw [paramChain_eq]
  refine lexes_calls rfl rfl rfl (by simp [Piece.Sound]) fun g hg => ?_
  obtain hg | hg := List.mem_append.1 hg
  · obtain ⟨k, -, rfl⟩ := List.mem_map.1 hg
    exact isCall_node k
  · obtain rfl := List.mem_singleton.1 hg
    exact isCall_getter (isName_nodeAccessor _)

end AdapterForge.Java

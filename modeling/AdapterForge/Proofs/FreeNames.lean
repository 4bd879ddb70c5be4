import AdapterForge.Proofs.LayoutTokens
import AdapterForge.Proofs.ValueTokens

/-!
The names that stand by themselves in Java, and not for a member of something. Each of them is a word of
the language, a variable in scope, or has to be imported.
-/
namespace AdapterForge.Java

/-- What a word stands behind. -/
inductive Place where
  | free
  | colon
  | member
  | typeArgument
  | callArgument
  deriving DecidableEq

def Place.after : Place → Token → Place
  | _, .symbol '.' => .member
  | .colon, .symbol ':' => .member
  | _, .symbol ':' => .colon
  | .member, .symbol '<' => .callArgument
  | _, .symbol '<' => .typeArgument
  | .callArgument, .word _ => .callArgument
  | .callArgument, .symbol '>' => .member
  | _, _ => .free

def Place.isArgument : Place → Bool
  | typeArgument | callArgument => true
  | _ => false

/-- Whether what stands before some tokens is a type: a name follows that it declares, or its own
arguments. -/
def followType : List Token → Bool
  | .symbol '.' :: .word _ :: r => followType r
  | .word _ :: _ => true
  | .symbol '<' :: _ => true
  | _ => false

structure NameUse where
  name : String
  /-- Whether only a type can stand there. Elsewhere a variable goes before a type of its name. -/
  isType : Bool
  deriving DecidableEq

def namesFrom : Place → List Token → List NameUse
  | _, [] => []
  | .member, .word _ :: r => namesFrom .free r
  | p, .word w :: r => ⟨w, p.isArgument || followType r⟩ :: namesFrom (p.after (.word w)) r
  | p, t :: r => namesFrom (p.after t) r

def namesIn (s : String) : List NameUse := namesFrom .free (tokens s)

example : namesIn "final User.UserBuilder user = given.<Node>as(Node::of, \"a\");" =
    [⟨"final", true⟩, ⟨"User", true⟩, ⟨"user", false⟩, ⟨"given", false⟩, ⟨"Node", true⟩,
      ⟨"Node", false⟩] := by
  decide +kernel

def placeAfter (p : Place) (ts : List Token) : Place := ts.foldl Place.after p

/-- Whether the last token has nothing to do with what follows. -/
def isClosed (ts : List Token) : Bool :=
  match ts.getLast? with
  | some (.word _) | some (.symbol '.') => false
  | _ => true

theorem followType_append {ts us : List Token} (hclosed : isClosed ts = true) (hne : ts ≠ []) :
    followType (ts ++ us) = followType ts := by
  fun_induction followType ts with
  | case1 w r ih =>
    have hr : r ≠ [] := by
      rintro rfl
      cases hclosed
    have hlast : isClosed r = true := by
      obtain ⟨t, r, rfl⟩ := List.exists_cons_of_ne_nil hr
      exact hclosed
    exact ih hlast hr
  | case2 => rfl
  | case3 => rfl
  | case4 ts hmember hword hbracket =>
    -- what follows could only complete a member whose name is missing, and that is not closed
    unfold followType
    split
    · next w r heq =>
      obtain ⟨t, ts, rfl⟩ := List.exists_cons_of_ne_nil hne
      obtain ⟨rfl, hts⟩ := List.cons.inj heq
      cases ts with
      | nil => cases hclosed
      | cons u ts =>
        obtain ⟨rfl, -⟩ := List.cons.inj hts
        exact (hmember _ _ rfl).elim
    · next w r heq =>
      obtain ⟨t, ts, rfl⟩ := List.exists_cons_of_ne_nil hne
      obtain ⟨rfl, -⟩ := List.cons.inj heq
      exact (hword _ _ rfl).elim
    · next r heq =>
      obtain ⟨t, ts, rfl⟩ := List.exists_cons_of_ne_nil hne
      obtain ⟨rfl, -⟩ := List.cons.inj heq
      exact (hbracket _ rfl).elim
    · rfl

theorem namesFrom_append {ts : List Token} (hclosed : isClosed ts = true) (us : List Token) (p : Place) :
    namesFrom p (ts ++ us) = namesFrom p ts ++ namesFrom (placeAfter p ts) us := by
  induction ts generalizing p with
  | nil => rfl
  | cons t ts ih =>
    have hrest : isClosed ts = true := by
      cases ts with
      | nil => rfl
      | cons u ts => exact hclosed
    rw [List.cons_append]
    cases t with
    | word w =>
      have hts : ts ≠ [] := by
        rintro rfl
        cases hclosed
      cases p with
      | member => exact ih hrest .free
      | _ =>
        simp only [namesFrom, followType_append hrest hts, ih hrest, List.cons_append]
        rfl
    | _ =>
      cases p <;> exact ih hrest _

/-- The names of some tokens are of one kind, whatever stands around the tokens. -/
structure Names (P : NameUse → Prop) (ts : List Token) : Prop where
  names : ∀ u ∈ namesFrom .free ts, P u
  closed : isClosed ts = true
  place : placeAfter .free ts = .free

structure NamesIn (P : NameUse → Prop) (s : String) : Prop where
  whole : Whole s.toList
  names : Names P (tokens s)

section

variable {P : NameUse → Prop} {ts us : List Token} {s value : String} {l : List Piece}

namespace Names

theorem append (ht : Names P ts) (hu : Names P us) : Names P (ts ++ us) where
  names := by
    rw [namesFrom_append ht.closed, ht.place, List.forall_mem_append]
    exact ⟨ht.names, hu.names⟩
  closed := by
    cases us with
    | nil => rw [List.append_nil]; exact ht.closed
    | cons u us =>
      have hlast : (ts ++ u :: us).getLast? = (u :: us).getLast? := by
        rw [List.getLast?_append, List.getLast?_cons, Option.some_or]
      rw [isClosed, hlast]
      exact hu.closed
  place := by
    rw [placeAfter, List.foldl_append]
    exact (congrArg (placeAfter · us) ht.place).trans hu.place

theorem nil : Names P [] := ⟨List.forall_mem_nil P, rfl, rfl⟩

theorem flatMap {α : Type} {f : α → List Token} {l : List α} (h : ∀ x ∈ l, Names P (f x)) :
    Names P (l.flatMap f) := by
  induction l with
  | nil => exact nil
  | cons x l ih =>
    obtain ⟨hx, hl⟩ := List.forall_mem_cons.1 h
    rw [List.flatMap_cons]
    exact hx.append (ih hl)

end Names

theorem names_of_eq {l : List NameUse} (hnames : namesFrom .free ts = l) (hclosed : isClosed ts = true)
    (hplace : placeAfter .free ts = .free) (hl : ∀ u ∈ l, P u) : Names P ts :=
  ⟨hnames ▸ hl, hclosed, hplace⟩

theorem names_none (h : namesFrom .free ts = []) (hclosed : isClosed ts = true)
    (hplace : placeAfter .free ts = .free) : Names P ts :=
  names_of_eq h hclosed hplace (List.forall_mem_nil P)

theorem names_one {u : NameUse} (hu : P u) (h : namesFrom .free ts = [u]) (hclosed : isClosed ts = true)
    (hplace : placeAfter .free ts = .free) : Names P ts :=
  names_of_eq h hclosed hplace (List.forall_mem_singleton.2 hu)

theorem Lexes.namesIn (h : Lexes s ts) (hts : Names P ts) : NamesIn P s :=
  ⟨h.whole, h.tokens_eq ▸ hts⟩

theorem NamesIn.of_pieces (htext : s = pieceText l) (hplain : startsPlain l = true)
    (hfit : fit .blank l = true) (hsound : ∀ p ∈ l, p.Sound)
    (hnames : Names P (l.flatMap Piece.tokens)) : NamesIn P s :=
  (Lexes.of_pieces htext hplain hfit hsound).namesIn hnames

theorem NamesIn.of_value (hvalue : NamesIn P value) (before after : List Piece)
    (htext : s = pieceText (before ++ .expr value :: after))
    (hplain : startsPlain (before ++ .expr value :: after) = true)
    (hfit : fit .blank (before ++ .expr value :: after) = true)
    (hsound : ∀ p ∈ before ++ after, p.Sound) (hbefore : Names P (before.flatMap Piece.tokens))
    (hafter : Names P (after.flatMap Piece.tokens)) : NamesIn P s := by
  apply NamesIn.of_pieces htext hplain hfit
  · rw [List.forall_mem_append] at hsound
    rw [List.forall_mem_append, List.forall_mem_cons]
    exact ⟨hsound.1, hvalue.whole, hsound.2⟩
  · rw [List.flatMap_append, List.flatMap_cons]
    exact hbefore.append (hvalue.names.append hafter)

/-- A text as an argument of a call. What stands behind it cannot go on with it. -/
structure Argument (P : NameUse → Prop) (s : String) : Prop where
  whole : Whole s.toList
  names : ∀ c, c = ',' ∨ c = ')' → Names P (tokens s ++ [.symbol c])

theorem NamesIn.argument (h : NamesIn P s) : Argument P s where
  whole := h.whole
  names c hc := by
    refine h.names.append ?_
    obtain rfl | rfl := hc
    · exact names_none rfl rfl rfl
    · exact names_none rfl rfl rfl

theorem NamesIn.of_argument (hvalue : Argument P value) (before after : List Piece)
    (htext : s = pieceText (before ++ .expr value :: .code ")" :: after))
    (hplain : startsPlain (before ++ .expr value :: .code ")" :: after) = true)
    (hfit : fit .blank (before ++ .expr value :: .code ")" :: after) = true)
    (hsound : ∀ p ∈ before ++ after, p.Sound) (hbefore : Names P (before.flatMap Piece.tokens))
    (hafter : Names P (after.flatMap Piece.tokens)) : NamesIn P s := by
  apply NamesIn.of_pieces htext hplain hfit
  · rw [List.forall_mem_append] at hsound
    rw [List.forall_mem_append, List.forall_mem_cons, List.forall_mem_cons]
    exact ⟨hsound.1, hvalue.whole, trivial, hsound.2⟩
  · rw [List.flatMap_append, List.flatMap_cons, List.flatMap_cons, ← List.append_assoc (Piece.tokens _)]
    exact hbefore.append ((hvalue.names ')' (.inr rfl)).append hafter)

theorem names_getters {base : List Token}
    (hbase : ∀ k, Names P (base ++ [.symbol '.', .word k, .symbol '(', .symbol ')']))
    {fields : List String} (hne : fields ≠ []) :
    Names P (base ++ fields.flatMap fun k =>
      [.symbol '.', .word (getter k), .symbol '(', .symbol ')']) := by
  obtain ⟨k, r, rfl⟩ := List.exists_cons_of_ne_nil hne
  rw [List.flatMap_cons, ← List.append_assoc]
  exact (hbase _).append (.flatMap fun _ _ => names_none rfl rfl rfl)

theorem names_number (n : Number) : Names P (tokens n.text) := by
  obtain ⟨-, sign, htokens, hsign⟩ := lex_number n
  rw [htokens]
  obtain rfl | rfl := hsign
  · exact names_none rfl rfl rfl
  · exact names_none rfl rfl rfl

theorem namesIn_literal (l : Literal) : NamesIn P (literal l) := by
  cases l with
  | text s => exact (lexes_quote s).namesIn (names_none rfl rfl rfl)
  | number n => exact ⟨(lex_number n).1, names_number n⟩

theorem names_layout {unit : String} (hunit : ∀ c ∈ unit.toList, c = ' ' ∨ c = '\t')
    {lines : List Line} (hlines : ∀ l ∈ lines, l.text = "" ∨ Whole l.text.toList)
    (h : Names P (lines.flatMap (tokens ·.text))) : Names P (tokens (layout unit lines)) := by
  obtain ⟨hlex, -⟩ := lex_layout hunit hlines []
  rw [List.append_nil] at hlex
  rw [tokens, hlex]
  exact h.append .nil

end

end AdapterForge.Java

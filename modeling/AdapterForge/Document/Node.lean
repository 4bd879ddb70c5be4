import AdapterForge.Json.Text

/-!
Documents as a reader of records sees them, whatever their format: a node may be read as a text, a
list, a record and so on, and each reading may fail. Records may name their members or, in some
formats, list them in the order of declaration.
-/
namespace AdapterForge

inductive Members (ν : Type) where
  | named (members : List (String × ν))
  | placed (items : List ν)

/-- The members that have a declared name, of which none may be repeated; other names are passed
over. No more items may be listed than there are declared names. -/
def Members.fields? {ν : Type} (known : List String) : Members ν → Option (String → Option ν)
  | .named l =>
    if known.all fun k => (l.filter (·.1 = k)).length ≤ 1 then some fun k => l.lookup k else none
  | .placed l => if l.length ≤ known.length then some fun k => l[known.idxOf k]? else none

/-- A node of a document and the ways to read it. Readings happen in `m`, where each may fail. -/
class DocumentNode (m : outParam (Type → Type)) (ν : Type) where
  text? : ν → m String
  /-- As an optional member, which may stand for nothing. -/
  option? : ν → m (Option ν)
  items? : ν → m (List ν)
  members? : ν → m (Members ν)
  word? : ν → m String
  count? : ν → m Nat
  value? : ν → m Written

namespace Document

variable {m : Type → Type} [Monad m] [MonadLiftT Option m] {ν : Type} [DocumentNode m ν] {α : Type}

open DocumentNode

def record? (known : List String) (v : ν) : m (String → Option ν) := do
  (← members? v).fields? known

def required (f : String → Option ν) (k : String) (read : ν → m α) : m α := do
  read (← f k)

def withDefault (f : String → Option ν) (k : String) (read : ν → m α) (default : α) : m α :=
  match f k with
  | some v => read v
  | none => return default

/-- A member that may be missing. An explicit null counts as a value. -/
def explicit (f : String → Option ν) (k : String) (read : ν → m α) : m (Option α) := do
  match f k with
  | some v => return some (← read v)
  | none => return none

/-- A member that may be missing or null. -/
def optional (f : String → Option ν) (k : String) (read : ν → m α) : m (Option α) := do
  match f k with
  | some v =>
    match ← option? v with
    | some w => return some (← read w)
    | none => return none
  | none => return none

def list (read : ν → m α) (v : ν) : m (List α) := do
  (← items? v).mapM read

def choice (ofName? : String → Option α) (v : ν) : m α := do
  ofName? (← word? v)

end Document

def Number.count? : Number → Option Nat
  | .int i _ => if 0 ≤ i then some i.toNat else none
  | .double _ => none

instance : DocumentNode Option Written where
  text?
    | .string s => some s
    | _ => none
  option?
    | .null => some none
    | v => some (some v)
  items?
    | .array l => some l
    | _ => none
  members?
    | .object l => some (.named l)
    | .array l => some (.placed l)
    | _ => none
  word?
    | .string s => some s
    | .object [(k, .null)] => some k
    | _ => none
  count?
    | .number n => n.count?
    | _ => none
  value? v := some v

/-- A part of a JSON text, with the levels of nesting that are left for it. -/
structure JsonCursor where
  node : JsonText
  room : Nat

namespace JsonCursor

def enter? (c : JsonCursor) (l : List JsonText) : Option (List JsonCursor) :=
  if c.room = 0 then none else some (l.map (⟨·, c.room - 1⟩))

def enterMembers? (c : JsonCursor) (l : List (Option String × JsonText)) :
    Option (List (String × JsonCursor)) :=
  if c.room = 0 then none
  else l.mapM fun (k, v) => k.map fun k => (k, ⟨v, c.room - 1⟩)

instance : DocumentNode Option JsonCursor where
  text? c :=
    match c.node with
    | .string s => s
    | _ => none
  option? c :=
    match c.node with
    | .null => some none
    | _ => some (some c)
  items? c :=
    match c.node with
    | .array l => c.enter? l
    | _ => none
  members? c :=
    match c.node with
    | .object l => (c.enterMembers? l).map .named
    | .array l => (c.enter? l).map .placed
    | _ => none
  word? c :=
    match c.node with
    | .string s => s
    | .object [(k, .null)] => if c.room = 0 then none else k
    | _ => none
  count? c :=
    match c.node with
    | .number n => n.bind Number.count?
    | _ => none
  value? c := c.node.written? c.room

def maxNesting : Nat := 127

def ofText? (text : String) : Option JsonCursor :=
  (JsonText.parse? text).map (⟨·, maxNesting⟩)

end JsonCursor

end AdapterForge

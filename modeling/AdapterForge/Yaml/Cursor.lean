import AdapterForge.Document.Node
import AdapterForge.Yaml.Node
import AdapterForge.Yaml.Plain

/-!
YAML documents as documents to read records from. A scalar has no type of its own: a text takes it
as it stands, and only a free value looks at its meaning. Readings follow aliases, but not without
limit.
-/
namespace AdapterForge.Yaml

mutual

/-- How many events a node makes, the ends of collections included. -/
def Node.events : Node → Nat
  | .scalar .. | .alias _ => 1
  | .sequence _ items => eventsOf items + 2
  | .mapping _ members => eventsOfMembers members + 2

def eventsOf : List Node → Nat
  | [] => 0
  | v :: r => v.events + eventsOf r

def eventsOfMembers : List (Node × Node) → Nat
  | [] => 0
  | (k, v) :: r => k.events + v.events + eventsOfMembers r

end

/-- A node of a document, with the levels of nesting that are left for it. -/
structure Cursor where
  node : Node
  room : Nat
  document : Document

def maxNesting : Nat := 128

def scalarValue? (text : String) (style : Style) (tag : Option Tag) : Option Written :=
  match tag with
  | none => if style = .plain then plainValue? text else some (.string text)
  | some t =>
    if t.name?.isSome then none
    else if t = .standard "bool" then (boolWord? text).map .bool
    else if t = .standard "int" then (int? text.toList).bind intValue?
    else if t = .standard "float" then (float? text.toList).map FloatValue.written
    else if t = .standard "null" then if isNullWord text then some .null else none
    else if t.isLocal ∧ style = .plain then plainValue? text
    else some (.string text)

/-- Readings that follow aliases, each of which takes one of a limited number of jumps. -/
abbrev Jumps := StateT Nat Option

namespace Jumps

def follow (d : Document) (v : Node) : Jumps Node := do
  match v with
  | .alias n =>
    match ← get with
    | 0 => failure
    | left + 1 =>
      set left
      d.node? n
  | v => return v

def keyText (d : Document) (k : Node) : Jumps String := do
  match ← follow d k with
  | .scalar text _ _ => return text
  | _ => failure

/-- A node as a free value with at most `room` levels. Of a repeated key the last value counts. -/
def value (d : Document) : (room : Nat) → Node → Jumps Written
  | room, v => do
    match ← follow d v with
    | .scalar text style tag => scalarValue? text style tag
    | .sequence tag items =>
      match room with
      | 0 => failure
      | room + 1 =>
        if (tag.bind Tag.name?).isSome then failure
        return .array (← items.mapM fun v => value d room v)
    | .mapping tag members =>
      match room with
      | 0 => failure
      | room + 1 =>
        if (tag.bind Tag.name?).isSome then failure
        return .ofMembers (← members.mapM fun (k, v) => do
          return (← keyText d k, ← value d room v))
    | .alias _ => failure
termination_by structural room => room

end Jumps

namespace Cursor

def follow (c : Cursor) : Jumps Cursor := do
  return { c with node := ← Jumps.follow c.document c.node }

def enter? (c : Cursor) (l : List Node) : Option (List Cursor) :=
  if c.room = 0 then none else some (l.map (⟨·, c.room - 1, c.document⟩))

/-- An empty scalar stands for an empty list and for an empty record. -/
def isEmptyScalar : Node → Bool
  | .scalar "" .plain _ => true
  | _ => false

/-- A word, which a tag of the application may take the place of. -/
def word? : Node → Option String
  | .scalar text style tag =>
    match tag.bind Tag.name? with
    | some name => if style = .plain ∧ (text = "" ∨ isNullWord text) then some name else none
    | none => some text
  | _ => none

instance : DocumentNode Jumps Cursor where
  text? c := do
    match (← c.follow).node with
    | .scalar text _ _ => return text
    | _ => failure
  option? c := do
    let c ← c.follow
    match c.node with
    | .scalar text .plain tag =>
      if tag = some (.standard "null") then if isNullWord text then return none else failure
      else if tag = none ∧ (text = "" ∨ isNullWord text) then return none
      else return some c
    | _ => return some c
  items? c := do
    let c ← c.follow
    match c.node with
    | .sequence _ l => c.enter? l
    | v => if isEmptyScalar v then return [] else failure
  members? c := do
    let c ← c.follow
    match c.node with
    | .mapping _ l =>
      let keys ← l.mapM fun m => Jumps.keyText c.document m.1
      return .named (keys.zip (← c.enter? (l.map (·.2))))
    | v => if isEmptyScalar v then return .named [] else failure
  word? c := do
    word? (← c.follow).node
  count? c := do
    match (← c.follow).node with
    | .scalar text style tag =>
      if style = .plain ∨ (style = .literal ∧ tag = some (.standard "int")) then
        (natural? text.toList).filter (· < 2 ^ 64)
      else failure
    | _ => failure
  value? c := Jumps.value c.document c.room c.node

end Cursor

/-- Read the document of a text. Its aliases may be followed a hundred times for each of its
events. -/
def readText? {α : Type} (text : String) (read : Cursor → Jumps α) : Option α := do
  let d ← Document.ofText? text
  (read ⟨d.root, maxNesting, d⟩).run' (100 * d.root.events)

end AdapterForge.Yaml

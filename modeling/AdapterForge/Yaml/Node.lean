import AdapterForge.Yaml.Token

/-!
YAML documents as trees. An alias is kept as a number, and a node is found under the number of its
anchor, so a tree is finite even where an anchored node refers to itself.

An anchor takes as its number how many names were known before it. A name that is given again moves
on to the number that the next new name takes too; a number stands for the last node that took it.
-/
namespace AdapterForge.Yaml

inductive Node where
  | scalar (text : String) (style : Style) (tag : Option Tag)
  | sequence (tag : Option Tag) (items : List Node)
  | mapping (tag : Option Tag) (members : List (Node × Node))
  | alias (anchor : Nat)

instance : Inhabited Node := ⟨.alias 0⟩

def Node.empty : Node := .scalar "" .plain none

/-- A document: its root, the anchored nodes by their places among all anchors, and the place of
the last node under each number. -/
structure Document where
  root : Node
  anchored : List (Nat × Node)
  places : List (Nat × Nat)

def Document.node? (d : Document) (number : Nat) : Option Node :=
  (d.places.lookup number).bind fun place => d.anchored.lookup place

/-- What is left of the tokens, the tag handles of the document, the numbers of the names that are
known, the places of the anchors by their numbers (the latest first), and the anchored nodes that
are complete. -/
structure Assembly where
  tokens : List Token
  handles : List (String × Tag)
  names : List (String × Nat)
  places : List (Nat × Nat)
  anchored : List (Nat × Node)

namespace Assembly

abbrev Step := StateT Assembly Option

def peek : Step Token := do return (← get).tokens.headD .streamEnd

def skip : Step Unit := modify fun s => { s with tokens := s.tokens.tail }

def accept (t : Token) : Step Bool := do
  if (← peek) = t then
    skip
    return true
  return false

def resolveTag (handle : String) (suffix : Tag) : Step Tag := do
  if handle = "" then return suffix
  match (← get).handles.lookup handle with
  | some lead => return lead ++ suffix
  | none => failure

def anchorHere : Step (Option String) := do
  match ← peek with
  | .anchor name =>
    skip
    return some name
  | _ => return none

def tagHere : Step (Option Tag) := do
  match ← peek with
  | .tag handle suffix =>
    skip
    return some (← resolveTag handle suffix)
  | _ => return none

/-- The anchor and the tag of a node, in either order. -/
def properties : Step (Option String × Option Tag) := do
  match ← anchorHere with
  | some a => return (some a, ← tagHere)
  | none =>
    match ← tagHere with
    | some t => return (← anchorHere, some t)
    | none => return (none, none)

/-- Give a name to the node that starts here, which is told its place. -/
def declare (name : String) : Step Nat := do
  let s ← get
  let number := s.names.length
  let place := s.places.length
  set { s with
    names := (name, number) :: s.names.filter (·.1 ≠ name)
    places := (number, place) :: s.places }
  return place

def complete (place : Nat) (v : Node) : Step Unit :=
  modify fun s => { s with anchored := (place, v) :: s.anchored }

mutual

/-- A node. Block collections are possible only in a block, and a sequence without indentation only
as a part of a block mapping. -/
def node : Nat → (inBlock unindented : Bool) → Step Node
  | 0, _, _ => failure
  | fuel + 1, inBlock, unindented => do
    match ← peek with
    | .alias name =>
      skip
      match (← get).names.lookup name with
      | some n => return .alias n
      | none => failure
    | _ =>
      let (name, tag) ← properties
      let place ← name.mapM declare
      let v ← content fuel inBlock unindented (name.isSome || tag.isSome) tag
      if let some p := place then complete p v
      return v

def content : Nat → (inBlock unindented marked : Bool) → Option Tag → Step Node
  | 0, _, _, _, _ => failure
  | fuel + 1, inBlock, unindented, marked, tag => do
    match ← peek with
    | .scalar text style =>
      skip
      return .scalar text style tag
    | .flowSequence =>
      skip
      return .sequence tag (← flowItems fuel true)
    | .flowMapping =>
      skip
      return .mapping tag (← flowMembers fuel true)
    | .blockEntry =>
      if unindented then return .sequence tag (← unindentedItems fuel)
      else if marked then return .scalar "" .plain tag
      else failure
    | .blockSequence =>
      if inBlock then
        skip
        return .sequence tag (← blockItems fuel)
      else if marked then return .scalar "" .plain tag
      else failure
    | .blockMapping =>
      if inBlock then
        skip
        return .mapping tag (← blockMembers fuel)
      else if marked then return .scalar "" .plain tag
      else failure
    | _ =>
      -- an anchor or a tag by itself is an empty scalar
      if marked then return .scalar "" .plain tag else failure

def blockItems : Nat → Step (List Node)
  | 0 => failure
  | fuel + 1 => do
    if ← accept .blockEntry then
      let t ← peek
      let v ← if t = .blockEntry ∨ t = .blockEnd then pure .empty else node fuel true false
      return v :: (← blockItems fuel)
    if ← accept .blockEnd then return []
    failure

/-- The items of a sequence without indentation of its own. -/
def unindentedItems : Nat → Step (List Node)
  | 0 => failure
  | fuel + 1 => do
    if ← accept .blockEntry then
      let t ← peek
      let v ←
        if t = .blockEntry ∨ t = .key ∨ t = .value ∨ t = .blockEnd then pure .empty
        else node fuel true false
      return v :: (← unindentedItems fuel)
    return []

def blockPart : Nat → Step Node
  | 0 => failure
  | fuel + 1 => do
    let t ← peek
    if t = .key ∨ t = .value ∨ t = .blockEnd then return .empty else node fuel true true

def blockMembers : Nat → Step (List (Node × Node))
  | 0 => failure
  | fuel + 1 => do
    if ← accept .key then
      let k ← blockPart fuel
      let v ← if ← accept .value then blockPart fuel else pure .empty
      return (k, v) :: (← blockMembers fuel)
    if ← accept .blockEnd then return []
    failure

/-- A part of a pair inside a flow sequence, which may be empty. -/
def flowPart : Nat → (stop : List Token) → Step Node
  | 0, _ => failure
  | fuel + 1, stop => do
    if stop.contains (← peek) then return .empty else node fuel false false

/-- The items of a flow sequence, up to its end; a pair is a mapping of one member. An empty key
takes the token behind it with it. -/
def flowItems : Nat → (first : Bool) → Step (List Node)
  | 0, _ => failure
  | fuel + 1, first => do
    if ← accept .flowSequenceEnd then return []
    if !first then
      if !(← accept .flowEntry) then failure
    if ← accept .key then
      let t ← peek
      let k ←
        if t = .value ∨ t = .flowEntry ∨ t = .flowSequenceEnd then do
          skip
          pure .empty
        else node fuel false false
      let v ←
        if ← accept .value then flowPart fuel [.flowEntry, .flowSequenceEnd] else pure .empty
      return .mapping none [(k, v)] :: (← flowItems fuel false)
    if ← accept .flowSequenceEnd then return []
    let v ← node fuel false false
    return v :: (← flowItems fuel false)

def flowMembers : Nat → (first : Bool) → Step (List (Node × Node))
  | 0, _ => failure
  | fuel + 1, first => do
    if ← accept .flowMappingEnd then return []
    if !first then
      if !(← accept .flowEntry) then failure
    if ← accept .key then
      let k ← flowPart fuel [.value, .flowEntry, .flowMappingEnd]
      let v ←
        if ← accept .value then flowPart fuel [.flowEntry, .flowMappingEnd] else pure .empty
      return (k, v) :: (← flowMembers fuel false)
    if ← accept .flowMappingEnd then return []
    let k ← node fuel false false
    return (k, .empty) :: (← flowMembers fuel false)

end

/-- The directives in front of a document: at most one version, 1.1 or 1.2, and at most one lead for
each tag handle. Also tells whether there was a version. -/
def directives : Nat → (version : Bool) → List (String × Tag) →
    Step (Bool × List (String × Tag))
  | 0, _, _ => failure
  | fuel + 1, version, handles => do
    match ← peek with
    | .version major minor =>
      skip
      if version || major != 1 || (minor != 1 && minor != 2) then failure
      directives fuel true handles
    | .handle name lead =>
      skip
      if (handles.lookup name).isSome then failure
      directives fuel version ((name, lead) :: handles)
    | _ => return (version, handles)

def standardHandles : List (String × Tag) := [("!", .bare), ("!!", .standardLead)]

def ends : Nat → Step Unit
  | 0 => failure
  | fuel + 1 => do
    if ← accept .documentEnd then ends fuel
    else if (← peek) = .streamEnd then return
    else failure

def document (fuel : Nat) : Step Node := do
  let (version, given) ← directives fuel false []
  let marked ← accept .documentStart
  -- directives are ended by the marker of the document's start
  if (version || !given.isEmpty) && !marked then failure
  let missing := standardHandles.filter fun h => (given.lookup h.1).isNone
  modify fun s => { s with handles := given ++ missing }
  let t ← peek
  let root ←
    if marked ∧ (t = .documentStart ∨ t = .documentEnd ∨ t = .streamEnd) then pure .empty
    else if t = .streamEnd then pure .empty
    else node fuel true false
  ends fuel
  return root

end Assembly

def Document.ofText? (text : String) : Option Document := do
  let ts ← tokens? text
  let (root, s) ← (Assembly.document (4 * ts.length + 8)).run ⟨ts, [], [], [], []⟩
  return ⟨root, s.anchored, s.places⟩

end AdapterForge.Yaml

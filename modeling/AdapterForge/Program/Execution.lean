import AdapterForge.Program.Basic
import AdapterForge.Sources

/-!
Running programs over JSON.
-/
namespace AdapterForge

structure Machine where
  root : Fields Json
  opened : List (FieldPath × Fields Json)
  sources : Sources

namespace Machine

def put (m : Machine) (path : FieldPath) (fields : Fields Json) : Machine :=
  { m with opened := (path, fields) :: m.opened.filter (·.1 ≠ path) }

def modify (m : Machine) (b : Builder) (f : Fields Json → Fields Json) : Except RunError Machine :=
  match b with
  | .root => .ok { m with root := f m.root }
  | .nested path =>
    match m.opened.lookup path with
    | some fields => .ok (m.put path (f fields))
    | none => .error (.noOpenBuilder path)

end Machine

/-- What does not change while a program runs: the modified object as it was given, and the
extensions of all impressions. -/
structure Setting where
  scope : Scope
  base : Fields Json
  exts : List (Option Json)

namespace Setting

/-- What a builder starts with: the given object, or nothing when it is missing. A JSON node
takes the place of whatever is no object. -/
def seed (s : Setting) (path : FieldPath) (kind : ObjectKind) : Except RunError (Fields Json) :=
  match (Json.object s.base).at? path.segments with
  | some (.object given) => .ok given
  | some _ => if kind.isJson then .ok .empty else .error (.givenNotAnObject s.scope.base path)
  | none => .ok .empty

def step (s : Setting) (m : Machine) : Statement → Except RunError Machine
  | .locateExt =>
    match s.exts with
    | [] => .error (.nullDereference "impsWithExts.get(0)")
    | ext :: _ => .ok { m with sources := { m.sources with impExt := ext } }
  | .start path kind => do return m.put path (← s.seed path kind)
  | .assign builder field value => do
    let v ← m.sources.eval value
    m.modify builder (Json.put · field v)
  | .commit path =>
    match m.opened.lookup path with
    | none => .error (.noOpenBuilder path)
    | some fields =>
      { m with opened := m.opened.filter (·.1 ≠ path) }.modify (.parentOf path)
        (·.set path.leaf (.object fields))

def run (s : Setting) (m : Machine) (l : List Statement) : Except RunError Machine :=
  l.foldlM s.step m

end Setting

namespace Program

def runImp (p : Program) (imp : Json) (ext : Option Json) : Except RunError Json := do
  let base ← asObject "imp" imp
  let m ← Setting.run ⟨p.scope, base, []⟩ ⟨base, [], ⟨some imp, ext, none⟩⟩ p.statements
  return .object m.root

/-- Run a program for a request, with the extensions of all impressions. Values are read from the
request; the builder that is written to carries its modified impressions already. -/
def runRequest (p : Program) (bidRequest builder : Json) (exts : List (Option Json)) :
    Except RunError Json := do
  let base ← asObject "bidRequest" bidRequest
  let root ← asObject "request builder" builder
  let m ← Setting.run ⟨p.scope, base, exts⟩ ⟨root, [], ⟨none, none, some bidRequest⟩⟩ p.statements
  return .object m.root

end Program

end AdapterForge

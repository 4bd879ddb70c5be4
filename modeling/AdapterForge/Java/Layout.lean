/-!
Lines of source text and their indentation.
-/
namespace AdapterForge.Java

/-- A line of text and how many units it is indented. An empty line is never indented. -/
structure Line where
  level : Nat
  text : String
  deriving DecidableEq

def Line.render (unit : String) (l : Line) : String :=
  if l.text = "" then "\n" else String.join (List.replicate l.level unit) ++ l.text ++ "\n"

def layout (unit : String) (lines : List Line) : String := String.join (lines.map (Line.render unit))

/-- Lines as they are added one after the other, with the level of the next one. -/
structure Draft where
  level : Nat
  lines : List Line

namespace Draft

def start (level : Nat) : Draft := ⟨level, []⟩

def line (d : Draft) (text : String) : Draft := { d with lines := d.lines ++ [⟨d.level, text⟩] }

def continuation (d : Draft) (extra : Nat) (text : String) : Draft :=
  { d with lines := d.lines ++ [⟨d.level + extra, text⟩] }

def indent (d : Draft) : Draft := { d with level := d.level + 1 }

def dedent (d : Draft) : Draft := { d with level := d.level - 1 }

def text (d : Draft) (unit : String) : String := layout unit d.lines

end Draft

end AdapterForge.Java

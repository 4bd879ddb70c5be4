import AdapterForge.Description.Check
import AdapterForge.Description.Reading
import AdapterForge.Yaml.Cursor

/-!
Descriptions from text.
-/
namespace AdapterForge

inductive TextFormat where
  | json
  | yaml
  deriving DecidableEq

inductive DescriptionTextError where
  /-- No document of the format, or one of another form. -/
  | malformed
  | invalid (error : DescriptionError)
  deriving DecidableEq

namespace Description

def parse? (format : TextFormat) (text : String) : Option Description :=
  match format with
  | .json => (JsonCursor.ofText? text).bind read?
  | .yaml => Yaml.readText? text read?

def ofText (format : TextFormat) (text : String) : Except DescriptionTextError Description :=
  match parse? format text with
  | none => .error .malformed
  | some d => d.check.mapError .invalid

end Description

end AdapterForge

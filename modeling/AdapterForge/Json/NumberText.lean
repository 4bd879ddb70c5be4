import AdapterForge.Decimal.Text
import AdapterForge.Json.Basic

/-!
The text of a JSON number. A double always has a point or an exponent, so it never reads as a whole
number.
-/
namespace AdapterForge

def Number.text : Number → String
  | .int i _ => String.ofList (intText i)
  | .double x => String.ofList x.text

end AdapterForge

import AdapterForge.Adapter
import AdapterForge.Expectation.Evaluation
import AdapterForge.Program.Execution

/-!
Both programs of an adapter on a request: every impression is modified with its own extension, then
the request with the modified impressions in place.
-/
namespace AdapterForge

/-- The impressions of a request; without a list of them there are none. -/
def impressions (request : Fields Json) : Except RunError (List Json) :=
  match request.get? "imp" with
  | none | some .null => .ok []
  | some (.array imps) => .ok imps
  | some _ => .error .impressionsNotAList

namespace Compiled

def runImp (c : Compiled) (imp : Json) : Except RunError Json :=
  match c.imp with
  | some p => p.runImp imp (bidderExt? imp)
  | none => .ok imp

def run (c : Compiled) (bidRequest : Json) : Except RunError Json := do
  let request ← asObject "bidRequest" bidRequest
  let imps ← impressions request
  let modified ← imps.mapM c.runImp
  let builder := if request.contains "imp" then request.set "imp" (.array modified) else request
  match c.request with
  | some p => p.runRequest bidRequest (.object builder) (imps.map bidderExt?)
  | none => return .object builder

end Compiled

end AdapterForge

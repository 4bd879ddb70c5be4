import AdapterForge.Description.Check
import AdapterForge.Expectation.Synthesis
import AdapterForge.Program.Synthesis

/-!
Adapters: descriptions whose transformations are resolved and split by scope, and the programs that
they compile to.
-/
namespace AdapterForge

structure Adapter where
  description : Description
  imp : List Assignment
  request : List Assignment

/-- What an adapter is compiled to. A scope without assignments has no program. -/
structure Compiled where
  imp : Option Program
  request : Option Program
  expected : ExpectedObject

/-- What decides the generated sources, for telling whether they changed. -/
structure ContentKey where
  name : String
  strategy : Strategy
  endpointUrl : String
  params : List Param
  imp : List Assignment
  request : List Assignment
  deriving DecidableEq

namespace Plan

def program? (p : Plan) : Except RuleError (Option Program) :=
  if p.isEmpty then .ok none else p.program.map some

end Plan

def Compiled.ofPlans (imp request : Plan) : Except RuleError Compiled := do
  let expected ← expectedRequest imp request
  return ⟨← imp.program?, ← request.program?, expected⟩

namespace Compiled

def programs (c : Compiled) : List Program := c.imp.toList ++ c.request.toList

def usesJson (c : Compiled) : Bool := c.programs.any (·.usesJson)

def needsExts (c : Compiled) : Bool := c.request.any (·.locatesExt)

def modelNames (c : Compiled) : List String :=
  ((c.programs.flatMap (·.startedKinds)) ++ c.expected.stepKinds).filterMap (·.modelName?)

end Compiled

namespace Adapter

/-- Resolve the transformations of a description; the first one at fault decides. -/
def ofDescription (d : Description) : Except RuleError Adapter := do
  let l ← d.rules.mapM fun r => do return (Scope.ofTarget r.target, ← r.assignment d.params)
  let ofScope (s : Scope) := (l.filter (·.1 = s)).map (·.2)
  return ⟨d, ofScope .impression, ofScope .request⟩

def name (a : Adapter) : String := a.description.name

def params (a : Adapter) : List Param := a.description.params

/-- Both scopes are planned before anything is compiled. -/
def compile (a : Adapter) : Except RuleError Compiled := do
  let imp ← Plan.ofAssignments .impression a.imp
  let request ← Plan.ofAssignments .request a.request
  Compiled.ofPlans imp request

def contentKey (a : Adapter) : ContentKey :=
  ⟨a.name, a.description.strategy, a.description.endpoint.url, a.params, a.imp, a.request⟩

end Adapter

end AdapterForge

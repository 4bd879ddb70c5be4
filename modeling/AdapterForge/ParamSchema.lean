import AdapterForge.Adapter
import AdapterForge.Java.Name
import AdapterForge.Json.Pretty

/-!
The JSON schema that the params of a bidder must satisfy.
-/
namespace AdapterForge

def ParamType.schemaName : ParamType → String
  | string => "string"
  | integer | long => "integer"
  | double | float => "number"
  | boolean => "boolean"

def Param.schema (p : Param) : Written :=
  .object [("type", .string p.type.schemaName), ("description", .string (p.name ++ " parameter"))]

namespace Adapter

def paramSchema (a : Adapter) : Written :=
  let title := Java.capitalize a.name
  .object [("$schema", .string "http://json-schema.org/draft-04/schema#"),
    ("title", .string (title ++ " Adapter Params")),
    ("description", .string ("A schema which validates params accepted by the " ++ title ++ " adapter")),
    ("type", .string "object"),
    ("properties", .object (a.params.map fun p => (p.name, p.schema)))]

end Adapter

end AdapterForge

import AdapterForge.Java.Literal
import AdapterForge.Java.Name

/-!
Java expressions for written values, in the methods that modify a request and in the request that a
test expects.
-/
namespace AdapterForge.Java

def firstImp : String := "bidRequest.getImp().get(0)"

def rootVar : SourceRoot → String
  | .imp => "imp"
  | .impExt => "impExt"
  | .request => "bidRequest"

def getterChain (base : String) (fields : List String) : String :=
  fields.foldl (fun t k => t ++ "." ++ getter k ++ "()") base

def mutationValue : Operand → String
  | .literal l => literal l
  | .field s => getterChain (rootVar s.root) s.path.segments

/-- The accessor of a raw node for the declared type of a param; without one it is read as text. -/
def nodeAccessor : Option ParamType → String
  | some .integer => "intValue"
  | some .long => "longValue"
  | some .double => "doubleValue"
  | some .float => "floatValue"
  | some .boolean => "booleanValue"
  | some .string | none => "textValue"

/-- A param read from the raw extension of the first impression. -/
def paramChain (params : List Param) (path : FieldPath) : String :=
  let node := path.segments.foldl (fun t k => t ++ ".get(" ++ quote k ++ ")")
    (firstImp ++ ".getExt().get(" ++ quote "bidder" ++ ")")
  let declared := (params.find? (·.name = path.leaf)).map (·.type)
  node ++ "." ++ nodeAccessor declared ++ "()"

def expectedValue (params : List Param) : Operand → String
  | .literal l => literal l
  | .field ⟨.imp, path⟩ => getterChain firstImp path.segments
  | .field ⟨.request, path⟩ => getterChain "bidRequest" path.segments
  | .field ⟨.impExt, path⟩ => paramChain params path

end AdapterForge.Java

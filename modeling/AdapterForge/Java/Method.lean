import AdapterForge.Java.Context
import AdapterForge.Java.Layout
import AdapterForge.Java.Value
import AdapterForge.Program.Basic

/-!
Programs as Java methods.
-/
namespace AdapterForge.Java

def builderName (scope : Scope) : Builder → String
  | .root => scope.builder
  | .nested path => builderVar path

def isJsonBuilder : Builder → Bool
  | .root => false
  | .nested path => (ObjectKind.ofPath path).isJson

/-- The write of a field: by its setter on a model builder; on a JSON node literals are put and
other values are converted first. -/
def writeCall (target : String) (isJson : Bool) (field : String) (value : Operand) : String :=
  let rendered := mutationValue value
  if isJson then
    match value with
    | .literal _ => target ++ ".put(" ++ quote field ++ ", " ++ rendered ++ ")"
    | .field _ => target ++ ".set(" ++ quote field ++ ", mapper.valueToTree(" ++ rendered ++ "))"
  else target ++ "." ++ field ++ "(" ++ rendered ++ ")"

def readGiven (scope : Scope) (path : FieldPath) (type : String) : List String :=
  let var := localVar path
  match path.parent? with
  | none =>
    ["final " ++ type ++ " " ++ var ++ " = " ++ scope.base ++ "." ++ getter path.leaf ++ "();"]
  | some parentPath =>
    let parent := localVar parentPath
    match ObjectKind.ofPath parentPath with
    | .model _ =>
      ["final " ++ type ++ " " ++ var ++ " = " ++ parent ++ " != null ? " ++ parent ++ "." ++
        getter path.leaf ++ "() : null;"]
    | .json =>
      let node := nodeVar path
      ["final JsonNode " ++ node ++ " = " ++ parent ++ " != null ? " ++ parent ++ ".get(" ++
          quote path.leaf ++ ") : null;",
        "final ObjectNode " ++ var ++ " = " ++ node ++ " != null && " ++ node ++
          ".isObject() ? (ObjectNode) " ++ node ++ " : null;"]

/-- Start a builder from the given object, which may be missing. -/
def startBuilder (path : FieldPath) (kind : ObjectKind) : String :=
  let var := localVar path
  match kind with
  | .model name =>
    "final " ++ name ++ "." ++ name ++ "Builder " ++ builderVar path ++ " = " ++ var ++
      " != null ? " ++ var ++ ".toBuilder() : " ++ name ++ ".builder();"
  | .json =>
    "final ObjectNode " ++ builderVar path ++ " = " ++ var ++ " != null ? " ++ var ++
      ".deepCopy() : mapper.createObjectNode();"

def commitCall (scope : Scope) (path : FieldPath) : String :=
  let child := match ObjectKind.ofPath path with
    | .model _ => builderVar path ++ ".build()"
    | .json => builderVar path
  let parent := Builder.parentOf path
  let target := builderName scope parent
  if isJsonBuilder parent then target ++ ".set(" ++ quote path.leaf ++ ", " ++ child ++ ");"
  else target ++ "." ++ path.leaf ++ "(" ++ child ++ ");"

/-- The lines of a statement. A builder is set off by an empty line, except at the very start. -/
def statementLines (scope : Scope) (extClass : String) (isFirst : Bool) :
    Statement → List String
  | .locateExt => ["final " ++ extClass ++ " impExt = impsWithExts.get(0).getImpExt();"]
  | .start path kind =>
    let type := kind.modelName?.getD "ObjectNode"
    (if isFirst then [] else [""]) ++ readGiven scope path type ++ [startBuilder path kind]
  | .assign builder field value =>
    [writeCall (builderName scope builder) (isJsonBuilder builder) field value ++ ";"]
  | .commit path => [commitCall scope path]

def bodyLines (scope : Scope) (extClass : String) : List Statement → List String
  | [] => []
  | s :: r =>
    statementLines scope extClass (scope = .request) s ++
      r.flatMap (statementLines scope extClass false)

def modifyImp (p : Program) (ctx : RenderContext) : String :=
  layout ctx.indent <|
    [⟨1, "@Override"⟩,
      ⟨1, "protected Imp modifyImp(Imp imp, " ++ ctx.extClass ++ " impExt) \x7b"⟩,
      ⟨2, "final Imp.ImpBuilder impBuilder = imp.toBuilder();"⟩] ++
    (bodyLines p.scope ctx.extClass p.statements).map (⟨2, ·⟩) ++
    [⟨2, ""⟩, ⟨2, "return impBuilder.build();"⟩, ⟨1, "\x7d"⟩]

def modifyRequest (p : Program) (ctx : RenderContext) : String :=
  layout ctx.indent <|
    [⟨1, "@Override"⟩,
      ⟨1, "protected void modifyRequest(BidRequest bidRequest, " ++
        "BidRequest.BidRequestBuilder requestBuilder,"⟩,
      ⟨3, "List<ImpWithExt<" ++ ctx.extClass ++ ">> impsWithExts) \x7b"⟩] ++
    (bodyLines p.scope ctx.extClass p.statements).map (⟨2, ·⟩) ++
    [⟨1, "\x7d"⟩]

end AdapterForge.Java

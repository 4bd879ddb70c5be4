import AdapterForge.Java.Method
import AdapterForge.Java.Package
import AdapterForge.Java.SourceFile

/-!
The class that adapts requests for one bidder.
-/
namespace AdapterForge.Java

def readsNestedJson (p : Program) : Bool :=
  p.statements.any fun
    | .start path _ => path.parent?.any fun q => (ObjectKind.ofPath q).isJson
    | _ => false

def jsonMapperClass : String := "com.fasterxml.jackson.databind.ObjectMapper"

def jsonNodeClass : String := "com.fasterxml.jackson.databind.JsonNode"

def objectNodeClass : String := "com.fasterxml.jackson.databind.node.ObjectNode"

def adapterImports (config : CodegenConfig) (a : Adapter) (c : Compiled) : Imports where
  libraries := .ofList <|
    config.frameworkClass "OpenrtbBidder" :: c.modelNames.map config.modelClass ++
      (if c.imp.isSome then [config.modelClass "Imp"] else []) ++
      (if c.request.isSome then
        [config.modelClass "BidRequest", config.frameworkClass "model.ImpWithExt"] else []) ++
      a.extImport config ++
      (if c.usesJson then [jsonMapperClass, objectNodeClass] else []) ++
      (if c.programs.any readsNestedJson then [jsonNodeClass] else [])
  standard := .ofList (if c.request.isSome then ["java.util.List"] else [])
  members := []

def methodBlock (render : Program → RenderContext → String) (ctx : RenderContext) :
    Option Program → String
  | some p => "\n" ++ render p ctx
  | none => ""

def adapterBody (ctx : RenderContext) (a : Adapter) (c : Compiled) : String :=
  unlines (["/**", " * " ++ a.name ++ " \x7b@link OpenrtbBidder\x7d implementation.", " */",
    "public class " ++ a.bidderClass ++ " extends OpenrtbBidder<" ++ ctx.extClass ++ "> \x7b"] ++
    block (if c.usesJson then
      ["    private static final ObjectMapper mapper = new ObjectMapper();"] else []) ++
    ["", "    public " ++ a.bidderClass ++ "(String endpointUrl) \x7b",
      "        super(endpointUrl, OpenrtbBidder.RequestCreationStrategy." ++
        a.description.strategy.name ++ ", " ++ ctx.extClass ++ ".class);",
      "    \x7d"]) ++
    methodBlock modifyImp ctx c.imp ++ methodBlock modifyRequest ctx c.request ++ "\x7d\n"

def adapterUnit (config : CodegenConfig) (a : Adapter) (c : Compiled) : SourceFile :=
  ⟨a.bidderPackage config, adapterImports config a c, adapterBody (a.context config) a c⟩

end AdapterForge.Java

import AdapterForge.Expectation.Basic
import AdapterForge.Java.Context
import AdapterForge.Java.Layout
import AdapterForge.Java.Value

/-!
Expectations as the Java statement that declares the expected request.
-/
namespace AdapterForge.Java

def rootExpr : ExpectedRoot → String
  | .request => "bidRequest"
  | .firstImp => firstImp

def stepLines (parent : ObjectKind) (field : String) : List Line :=
  match parent with
  | .model name => [⟨2, ".map(" ++ name ++ "::" ++ getter field ++ ")"⟩]
  | .json =>
    [⟨2, ".map(node -> node.get(" ++ quote field ++ "))"⟩, ⟨2, ".filter(JsonNode::isObject)"⟩,
      ⟨2, ".map(ObjectNode.class::cast)"⟩]

def builderLines : ObjectKind → List Line
  | .model name => [⟨2, ".map(" ++ name ++ "::toBuilder)"⟩, ⟨2, ".orElseGet(" ++ name ++ "::builder)"⟩]
  | .json => [⟨2, ".map(ObjectNode::deepCopy)"⟩, ⟨2, ".orElseGet(mapper::createObjectNode)"⟩]

def seedRest (parent : ObjectKind) : List Step → List Line
  | [] => builderLines parent
  | s :: r => stepLines parent s.field ++ seedRest s.kind r

def seedHead (root : ExpectedRoot) : List Step → String
  | [] => rootExpr root ++ ".toBuilder()"
  | s :: _ => "Optional.ofNullable(" ++ rootExpr root ++ "." ++ getter s.field ++ "())"

def seedTail : List Step → List Line
  | [] => []
  | s :: r => seedRest s.kind r

def closeLast (close : String) (first : Line) : List Line → List Line
  | [] => [⟨first.level, first.text ++ close⟩]
  | l :: r => first :: closeLast close l r

/-- Nest an expression between `opening` and `close`, two levels deeper. -/
def nest (opening : String) (head : String) (tail : List Line) (close : String) : List Line :=
  closeLast close ⟨2, opening ++ head⟩ (tail.map fun l => ⟨l.level + 2, l.text⟩)

def valueCall (params : List Param) (kind : ObjectKind) (field : String) (value : Operand) :
    String :=
  let rendered := expectedValue params value
  match kind, value with
  | .model _, _ => "." ++ field ++ "(" ++ rendered ++ ")"
  | .json, .literal _ => ".put(" ++ quote field ++ ", " ++ rendered ++ ")"
  | .json, .field _ =>
    ".<ObjectNode>set(" ++ quote field ++ ", mapper.valueToTree(" ++ rendered ++ "))"

def objectOpening (kind : ObjectKind) (field : String) : String :=
  match kind with
  | .model _ => "." ++ field ++ "("
  | .json => ".<ObjectNode>set(" ++ quote field ++ ", "

/-- A model builder is built at the end; a JSON node is ready as it is. -/
def buildLines : ObjectKind → List Line
  | .model _ => [⟨2, ".build()"⟩]
  | .json => []

mutual

def objectHead : ExpectedObject → String
  | .mk root steps _ => seedHead root steps

def objectTail (params : List Param) : ExpectedObject → List Line
  | .mk root steps overrides =>
    let kind := kindAfter root steps
    seedTail steps ++ overrideLines params kind overrides ++ buildLines kind

def overrideLines (params : List Param) (kind : ObjectKind) : List Override → List Line
  | [] => []
  | .value field value :: r => ⟨2, valueCall params kind field value⟩ :: overrideLines params kind r
  | .object field o :: r =>
    nest (objectOpening kind field) (objectHead o) (objectTail params o) ")" ++
      overrideLines params kind r
  | .singleImp o :: r =>
    nest ".imp(singletonList(" (objectHead o) (objectTail params o) "))" ++
      overrideLines params kind r

end

def expectedRequest (o : ExpectedObject) (ctx : RenderContext) (level : Nat) : String :=
  let lines := closeLast ";" ⟨0, "final BidRequest expectedRequest = " ++ objectHead o⟩
    (objectTail ctx.params o)
  layout ctx.indent (lines.map fun l => ⟨level + l.level, l.text⟩)

end AdapterForge.Java

import AdapterForge.Fixture.Java
import AdapterForge.Java.AdapterClass
import AdapterForge.Java.Expected

/-!
The test of a bidder's class: it applies the adapter to the fixture and compares the outcome with
the expected request.
-/
namespace AdapterForge.Java

def testImports (config : CodegenConfig) (a : Adapter) (c : Compiled) : Imports where
  libraries := .ofList <|
    [config.modelClass "BidRequest", config.modelClass "Imp",
      config.frameworkClass "model.HttpRequest", config.frameworkClass "model.Result",
      "org.junit.Before", "org.junit.Test", "org.prebid.server.VertxTest",
      "org.prebid.server.proto.openrtb.ext.ExtPrebid"] ++
      (c.modelNames ++ a.fixture.modelNames).map config.modelClass ++ a.extImport config ++
      (if c.usesJson || a.fixture.usesJson then [jsonNodeClass, objectNodeClass] else [])
  standard := .ofList <|
    ["java.io.IOException", "java.util.List", "java.util.function.Function"] ++
      (if c.expected.rebuilds then ["java.util.Optional"] else [])
  members :=
    ["java.util.Collections.singletonList"] ++
      (if a.fixture.impCustomizer = "identity()" ∨ a.fixture.requestCustomizer = "identity()" then
        ["java.util.function.Function.identity"] else []) ++
      ["org.assertj.core.api.Assertions.assertThat"]

def testBody (ctx : RenderContext) (a : Adapter) (c : Compiled) : String :=
  let var := lowerFirst a.bidderClass
  unlines [
    "public class " ++ a.testClass ++ " extends VertxTest \x7b",
    "",
    "    private static final String ENDPOINT_URL = " ++ quote a.description.endpoint.url ++ ";",
    "",
    "    private " ++ a.bidderClass ++ " " ++ var ++ ";",
    "",
    "    @Before",
    "    public void setUp() \x7b",
    "        " ++ var ++ " = new " ++ a.bidderClass ++ "(ENDPOINT_URL);",
    "    \x7d",
    "",
    "    @Test",
    "    public void makeHttpRequestsShouldApplyTransformations() throws IOException \x7b",
    "        // given",
    "        final BidRequest bidRequest = givenBidRequest(",
    "                " ++ a.fixture.impCustomizer ++ ",",
    "                " ++ a.fixture.requestCustomizer ++ ");",
    "",
    "        // when",
    "        final Result<List<HttpRequest<BidRequest>>> result = " ++ var ++
      ".makeHttpRequests(bidRequest);",
    "",
    "        // then",
    expectedRequest c.expected ctx 2,
    "        assertThat(result.getErrors()).isEmpty();",
    "        assertThat(result.getValue()).hasSize(1);",
    "        assertThat(mapper.readValue(result.getValue().get(0).getBody(), BidRequest.class))",
    "                .isEqualTo(expectedRequest);",
    "    \x7d",
    "",
    "    private static BidRequest givenBidRequest(",
    "            Function<Imp.ImpBuilder, Imp.ImpBuilder> impCustomizer,",
    "            Function<BidRequest.BidRequestBuilder, BidRequest.BidRequestBuilder> " ++
      "requestCustomizer) \x7b",
    "        return requestCustomizer.apply(BidRequest.builder()",
    "                .imp(singletonList(givenImp(impCustomizer))))",
    "                .build();",
    "    \x7d",
    "",
    "    private static Imp givenImp(Function<Imp.ImpBuilder, Imp.ImpBuilder> impCustomizer) \x7b",
    "        return impCustomizer.apply(Imp.builder()",
    "                .id(" ++ quote Fixture.impId ++ ")",
    "                .ext(mapper.valueToTree(ExtPrebid.of(null, " ++
      extValue ctx a.fixture.ext ++ "))))",
    "                .build();",
    "    \x7d",
    "\x7d"]

def testUnit (config : CodegenConfig) (a : Adapter) (c : Compiled) : SourceFile :=
  ⟨a.bidderPackage config, testImports config a c, testBody (a.context config) a c⟩

end AdapterForge.Java

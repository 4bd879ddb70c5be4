import AdapterForge.Project.Basic

/-!
The files that a new project starts with.
-/
namespace AdapterForge.Project

def startHead : String := "# bidgen project configuration\n" ++ "name: "

def startSettings : String :=
  "\n" ++
  "\n" ++
  "# Root of the prebid-server-java checkout that sources are generated into\n" ++
  "output_dir: \".\"\n" ++
  "bidders_dir: bidders\n" ++
  "\n" ++
  "codegen:\n" ++
  "  indent: \"    \"\n" ++
  "  model_package: com.iab.openrtb.request\n" ++
  "  bidder_package: org.prebid.server.bidder\n" ++
  "  ext_package: org.prebid.server.proto.openrtb.ext.request\n"

/-- The configuration of a new project. The name stands in it as it is. -/
def startConfig (name : String) : String := startHead ++ name ++ startSettings

def startDescription : String :=
  "# Example bidder description\n" ++
  "bidderName: example\n" ++
  "strategy: SINGLE_REQUEST\n" ++
  "\n" ++
  "properties:\n" ++
  "  endpointUrl: \"https://bidder.example.com/openrtb2/auction\"\n" ++
  "\n" ++
  "metaInfo:\n" ++
  "  maintainerEmail: \"prebid@example.com\"\n" ++
  "  appMediaTypes: [banner, video]\n" ++
  "  siteMediaTypes: [banner, video]\n" ++
  "\n" ++
  "usersyncer:\n" ++
  "  cookieFamilyName: example\n" ++
  "\n" ++
  "bidderParams:\n" ++
  "  - name: placementId\n" ++
  "    type: String\n" ++
  "  - name: publisherId\n" ++
  "    type: String\n" ++
  "\n" ++
  "transformations:\n" ++
  "  - target: imp.tagid\n" ++
  "    from: impExt.placementId\n" ++
  "  - target: imp.banner.pos\n" ++
  "    staticValue: 1\n" ++
  "  - target: site.publisher.id\n" ++
  "    from: impExt.publisherId\n" ++
  "  - target: tmax\n" ++
  "    staticValue: 500\n"

end AdapterForge.Project

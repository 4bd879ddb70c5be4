import AdapterForge.Description.Basic
import AdapterForge.Java.Name

/-!
What the Java of one bidder depends on besides its programs.
-/
namespace AdapterForge

structure CodegenConfig where
  indent : String
  modelPackage : String
  bidderPackage : String
  extPackage : String
  deriving DecidableEq

def CodegenConfig.standard : CodegenConfig where
  indent := "    "
  modelPackage := "com.iab.openrtb.request"
  bidderPackage := "org.prebid.server.bidder"
  extPackage := "org.prebid.server.proto.openrtb.ext.request"

structure RenderContext where
  indent : String
  extClass : String
  params : List Param

/-- Without params there is no extension class. -/
def RenderContext.of (config : CodegenConfig) (d : Description) : RenderContext :=
  ⟨config.indent, if d.params.isEmpty then "Void" else Java.extClass d.name, d.params⟩

end AdapterForge

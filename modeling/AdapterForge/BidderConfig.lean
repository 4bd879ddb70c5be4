import AdapterForge.Java.Package
import AdapterForge.Java.SourceFile
import AdapterForge.Json.NumberText
import AdapterForge.Json.Quoted

/-!
The properties of a bidder that its server reads at the start. Texts are quoted as in JSON, which
YAML reads the same way.
-/
namespace AdapterForge.Adapter

def listLines (l : List String) : List String :=
  if l.isEmpty then ["        []"] else l.map fun s => "        - " ++ Json.quote s

def usersyncUrl (d : Description) : String :=
  d.endpoint.usersyncUrl.getD "" ++ d.usersync.urlParams.getD ""

def bidderConfig (a : Adapter) : String :=
  let d := a.description
  Java.unlines (["adapters:",
    "  " ++ a.lowerName ++ ":",
    "    endpoint: " ++ Json.quote d.endpoint.url,
    "    meta-info:",
    "      maintainer-email: " ++ Json.quote (d.metaInfo.maintainerEmail.getD ""),
    "      app-media-types:"] ++ listLines d.metaInfo.appMediaTypes ++
    ["      site-media-types:"] ++ listLines d.metaInfo.siteMediaTypes ++
    ["      supported-vendors:",
    "      vendor-id: " ++ String.ofList (intText (d.metaInfo.vendorId.getD 0).toNat),
    "    usersync:",
    "      url: " ++ Json.quote (usersyncUrl d),
    "      redirect-url:",
    "      cookie-family-name: " ++ Json.quote (d.usersync.cookieFamilyName.getD d.name),
    "      type: redirect",
    "      support-cors: false"])

end AdapterForge.Adapter

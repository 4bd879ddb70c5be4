import AdapterForge.BidderConfig
import AdapterForge.Digest
import AdapterForge.FilePath
import AdapterForge.Java.ExtensionClass
import AdapterForge.Java.TestClass
import AdapterForge.ParamSchema

/-!
The files that are generated for one bidder.
-/
namespace AdapterForge

structure GeneratedFile where
  path : String
  contents : String
  deriving DecidableEq

structure GeneratedBidder where
  name : String
  files : List GeneratedFile
  compiled : Compiled

namespace GeneratedBidder

def file? (g : GeneratedBidder) (name : String) : Option GeneratedFile :=
  g.files.find? fun f => FilePath.fileName? f.path = some name

def fingerprint (g : GeneratedBidder) : String :=
  Digest.sha256 <| g.files.flatMap fun f =>
    Digest.octets f.path ++ [0] ++ Digest.octets f.contents ++ [0]

end GeneratedBidder

def packageFolders (package : String) : List String :=
  let (w, ws) := FieldPath.splitDots package.toList
  (w :: ws).map String.ofList

def classPath (sourceSet package name : String) : String :=
  FilePath.join ((packageFolders package).foldl FilePath.join ("src/" ++ sourceSet ++ "/java"))
    (name ++ ".java")

namespace Adapter

def adapterFile (a : Adapter) (config : CodegenConfig) (c : Compiled) : GeneratedFile :=
  ⟨classPath "main" (a.bidderPackage config) a.bidderClass, (Java.adapterUnit config a c).text⟩

def extensionFile (a : Adapter) (config : CodegenConfig) : GeneratedFile :=
  ⟨classPath "main" (a.extPackage config) a.extClass, (Java.extensionUnit config a).text⟩

def testFile (a : Adapter) (config : CodegenConfig) (c : Compiled) : GeneratedFile :=
  ⟨classPath "test" (a.bidderPackage config) a.testClass, (Java.testUnit config a c).text⟩

def configFile (a : Adapter) : GeneratedFile :=
  ⟨"src/main/resources/bidder-config/" ++ a.lowerName ++ ".yaml", a.bidderConfig⟩

def schemaFile (a : Adapter) : GeneratedFile :=
  ⟨"src/main/resources/static/bidder-params/" ++ a.lowerName ++ ".json",
    a.paramSchema.pretty 0 ++ "\n"⟩

/-- All files of a bidder. Without params there is no extension class. -/
def files (a : Adapter) (config : CodegenConfig) (c : Compiled) : List GeneratedFile :=
  a.adapterFile config c :: (if a.params.isEmpty then [] else [a.extensionFile config]) ++
    [a.testFile config c, a.configFile, a.schemaFile]

def generate (a : Adapter) (config : CodegenConfig) : Except RuleError GeneratedBidder :=
  a.compile.map fun c => ⟨a.name, a.files config c, c⟩

end Adapter

end AdapterForge

import AdapterForge.Adapter
import AdapterForge.Java.Context

/-!
The packages and classes that the generated sources of one bidder lie in.
-/
namespace AdapterForge

namespace CodegenConfig

def modelClass (config : CodegenConfig) (name : String) : String := config.modelPackage ++ "." ++ name

def frameworkClass (config : CodegenConfig) (name : String) : String :=
  config.bidderPackage ++ "." ++ name

end CodegenConfig

namespace Adapter

def lowerName (a : Adapter) : String := Java.lower a.name

def bidderPackage (a : Adapter) (config : CodegenConfig) : String :=
  config.bidderPackage ++ "." ++ a.lowerName

def extPackage (a : Adapter) (config : CodegenConfig) : String :=
  config.extPackage ++ "." ++ a.lowerName

def bidderClass (a : Adapter) : String := Java.bidderClass a.name

def testClass (a : Adapter) : String := a.bidderClass ++ "Test"

def extClass (a : Adapter) : String := Java.extClass a.name

def extImport (a : Adapter) (config : CodegenConfig) : List String :=
  if a.params.isEmpty then [] else [a.extPackage config ++ "." ++ a.extClass]

def context (a : Adapter) (config : CodegenConfig) : RenderContext := .of config a.description

end Adapter

end AdapterForge

import AdapterForge.Fixture.Java
import AdapterForge.Java.Package
import AdapterForge.Java.SourceFile

/-!
The class of a bidder's extension of an impression: one field for each param.
-/
namespace AdapterForge.Java

def paramLines (p : Param) : List String :=
  ["", "    @JsonProperty(\"" ++ p.name ++ "\")", "    " ++ p.type.name ++ " " ++ p.name ++ ";"]

def usesBuilder (params : List Param) : Bool := builderThreshold < params.length

def extensionImports (params : List Param) : Imports where
  libraries := .ofList ["com.fasterxml.jackson.annotation.JsonProperty",
    if usesBuilder params then "lombok.Builder" else "lombok.AllArgsConstructor", "lombok.Value"]
  standard := .empty
  members := []

def extensionBody (a : Adapter) : String :=
  unlines (["/**", " * Defines the contract for bidrequest.imp[i].ext." ++ a.name, " */",
    if usesBuilder a.params then "@Builder" else "@AllArgsConstructor(staticName = \"of\")",
    "@Value", "public class " ++ a.extClass ++ " \x7b"] ++ a.params.flatMap paramLines ++ ["\x7d"])

def extensionUnit (config : CodegenConfig) (a : Adapter) : SourceFile :=
  ⟨a.extPackage config, extensionImports a.params, extensionBody a⟩

end AdapterForge.Java

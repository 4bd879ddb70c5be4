import AdapterForge.Description.Reading
import AdapterForge.Java.Context
import AdapterForge.Yaml.Cursor

/-!
The configuration of a project: where its descriptions lie, where generated files go, and the
settings of the sources.
-/
namespace AdapterForge

open Document DocumentNode

variable {m : Type → Type} [Monad m] [MonadLiftT Option m] {ν : Type} [DocumentNode m ν]

def CodegenConfig.read? (v : ν) : m CodegenConfig := do
  let standard := CodegenConfig.standard
  let f ← record? ["indent", "model_package", "bidder_package", "ext_package"] v
  return {
    indent := ← withDefault f "indent" text? standard.indent
    modelPackage := ← withDefault f "model_package" text? standard.modelPackage
    bidderPackage := ← withDefault f "bidder_package" text? standard.bidderPackage
    extPackage := ← withDefault f "ext_package" text? standard.extPackage
  }

def CodegenConfig.write (c : CodegenConfig) : Written :=
  .object [("indent", .string c.indent), ("model_package", .string c.modelPackage),
    ("bidder_package", .string c.bidderPackage), ("ext_package", .string c.extPackage)]

/-- Blanks and tabs are all that a line may be indented with. -/
def CodegenConfig.isIndentable (c : CodegenConfig) : Bool :=
  c.indent.toList.all fun c => c == ' ' || c == '\t'

structure ProjectConfig where
  name : String
  outputDir : String
  biddersDir : String
  codegen : CodegenConfig
  deriving DecidableEq

namespace ProjectConfig

def read? (v : ν) : m ProjectConfig := do
  let f ← record? ["name", "output_dir", "bidders_dir", "codegen"] v
  return {
    name := ← required f "name" text?
    outputDir := ← withDefault f "output_dir" text? "."
    biddersDir := ← withDefault f "bidders_dir" text? "bidders"
    codegen := ← withDefault f "codegen" CodegenConfig.read? .standard
  }

def ofText? (text : String) : Option ProjectConfig := Yaml.readText? text read?

def write (c : ProjectConfig) : Written :=
  .object [("name", .string c.name), ("output_dir", .string c.outputDir),
    ("bidders_dir", .string c.biddersDir), ("codegen", c.codegen.write)]

end ProjectConfig

end AdapterForge

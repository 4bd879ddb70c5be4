import AdapterForge.Adapter
import AdapterForge.Assignment.Basic
import AdapterForge.Assignment.Error
import AdapterForge.Assignment.Resolution
import AdapterForge.BidderConfig
import AdapterForge.Command.Arguments
import AdapterForge.Command.Basic
import AdapterForge.Command.Invocation
import AdapterForge.Command.Log
import AdapterForge.Decimal.Double
import AdapterForge.Decimal.Shortest
import AdapterForge.Decimal.Text
import AdapterForge.Description.Basic
import AdapterForge.Description.Check
import AdapterForge.Description.Reading
import AdapterForge.Description.Text
import AdapterForge.Digest
import AdapterForge.Document.Node
import AdapterForge.Expectation.Basic
import AdapterForge.Expectation.Evaluation
import AdapterForge.Expectation.Synthesis
import AdapterForge.FieldPath
import AdapterForge.FilePath
import AdapterForge.Fixture.Basic
import AdapterForge.Fixture.Java
import AdapterForge.Generated
import AdapterForge.Grouping
import AdapterForge.Java.AdapterClass
import AdapterForge.Java.Context
import AdapterForge.Java.Expected
import AdapterForge.Java.ExtensionClass
import AdapterForge.Java.Layout
import AdapterForge.Java.Literal
import AdapterForge.Java.Method
import AdapterForge.Java.Name
import AdapterForge.Java.Package
import AdapterForge.Java.SourceFile
import AdapterForge.Java.TestClass
import AdapterForge.Java.Value
import AdapterForge.Json.Basic
import AdapterForge.Json.Fields
import AdapterForge.Json.NumberText
import AdapterForge.Json.Pretty
import AdapterForge.Json.Quoted
import AdapterForge.Json.Text
import AdapterForge.Json.Written
import AdapterForge.KeySet
import AdapterForge.Main
import AdapterForge.ObjectKind
import AdapterForge.ParamSchema
import AdapterForge.Pipeline
import AdapterForge.Plan
import AdapterForge.Program.Basic
import AdapterForge.Program.Execution
import AdapterForge.Program.Synthesis
import AdapterForge.Project.Basic
import AdapterForge.Project.Build
import AdapterForge.Project.Config
import AdapterForge.Project.Error
import AdapterForge.Project.Start
import AdapterForge.RunError
import AdapterForge.Scope
import AdapterForge.Sources
import AdapterForge.Storage.Basic
import AdapterForge.Storage.Disk
import AdapterForge.Storage.FileTree
import AdapterForge.Text.Blank
import AdapterForge.Text.Uppercase
import AdapterForge.Yaml.Cursor
import AdapterForge.Yaml.Node
import AdapterForge.Yaml.Plain
import AdapterForge.Yaml.Reader
import AdapterForge.Yaml.Scalar
import AdapterForge.Yaml.Tag
import AdapterForge.Yaml.Token
import AdapterForge.Proofs.Flattening
import AdapterForge.Proofs.Grouping
import AdapterForge.Proofs.Outcome
import AdapterForge.Proofs.SynthesisAgreement
import AdapterForge.Proofs.RunAgreement
import AdapterForge.Proofs.Planning
import AdapterForge.Proofs.PipelineAgreement
import AdapterForge.Proofs.Shape
import AdapterForge.Proofs.PlanWriting
import AdapterForge.Proofs.Idempotence
import AdapterForge.Proofs.Compilation
import AdapterForge.Proofs.Nesting
import AdapterForge.Proofs.Builders
import AdapterForge.Proofs.PipelineWriting
import AdapterForge.Proofs.Resolution
import AdapterForge.Proofs.Reordering
import AdapterForge.Proofs.Sampling
import AdapterForge.Proofs.FixtureRun
import AdapterForge.Proofs.ImpressionIsolation
import AdapterForge.Proofs.PathNames
import AdapterForge.Proofs.DiskFrame
import AdapterForge.Proofs.DiskWork
import AdapterForge.Proofs.GeneratedPaths
import AdapterForge.Proofs.Building
import AdapterForge.Proofs.FailedBuilds
import AdapterForge.Proofs.ChangeDetection
import AdapterForge.Proofs.Validation
import AdapterForge.Proofs.ScopedRules
import AdapterForge.Proofs.Spelling
import AdapterForge.Proofs.LocalNames
import AdapterForge.Proofs.Identifiers
import AdapterForge.Proofs.SetFields
import AdapterForge.Proofs.LegalNames
import AdapterForge.Proofs.PathGrammar
import AdapterForge.Proofs.ImpressionsKept
import AdapterForge.Proofs.ProgramAssignments
import AdapterForge.Proofs.Refusals
import AdapterForge.Proofs.SampleCoverage
import AdapterForge.Proofs.SampleTrees
import AdapterForge.Proofs.SourceAccess
import AdapterForge.Proofs.Rebuilding
import AdapterForge.Proofs.StringLiterals
import AdapterForge.Proofs.NumberLiterals
import AdapterForge.Proofs.StatementText
import AdapterForge.Proofs.ImportedNames
import AdapterForge.Proofs.WrittenDescriptions
import AdapterForge.Proofs.GroupPartition
import AdapterForge.Proofs.FileLookup
import AdapterForge.Proofs.ScanFrames
import AdapterForge.Proofs.PlainLines
import AdapterForge.Proofs.ScalarCharacters
import AdapterForge.Proofs.ScanSteps
import AdapterForge.Proofs.NameReading
import AdapterForge.Proofs.NameScanning
import AdapterForge.Proofs.StartedConfigs
import AdapterForge.Proofs.StartedProjects

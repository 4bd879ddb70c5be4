import AdapterForge.Assignment.Error
import AdapterForge.Description.Check
import AdapterForge.Storage.Basic

/-!
Why work on a project fails.
-/
namespace AdapterForge

inductive ProjectError where
  | configNotFound (path : String)
  | configMalformed
  | indentMalformed
  | descriptionMalformed (path : String)
  | description (error : DescriptionError)
  | rule (error : RuleError)
  | io (fault : IoFault)
  deriving DecidableEq

def ProjectError.message : ProjectError → String
  | configNotFound path => "configuration file not found: " ++ path
  | configMalformed => "failed to parse configuration"
  | indentMalformed => "invalid configuration: codegen.indent may only contain spaces or tabs"
  | descriptionMalformed path => "failed to parse bidder description '" ++ path ++ "'"
  | description e => e.message
  | rule e => e.message
  | io _ => "IO error"

end AdapterForge

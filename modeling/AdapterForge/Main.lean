import AdapterForge.Command.Basic

/-!
The program itself, on the files of the computer.
-/
namespace AdapterForge

def IoFault.ofError (e : IO.Error) : IoFault :=
  match e with
  | .noFileOrDirectory .. | .noSuchThing .. => .notFound
  | .alreadyExists .. => .alreadyThere
  | .inappropriateType _ 21 _ => .isAFolder
  | .inappropriateType .. => .notAFolder
  | .invalidArgument _ 36 _ => .nameTooLong
  | e => .other (toString e)

def guarded {α : Type} (act : IO α) : IO (Except IoFault α) := do
  try return .ok (← act)
  catch e => return .error (.ofError e)

def succeeds {α : Type} (act : IO α) : IO Bool := do
  try
    let _ ← act
    return true
  catch _ => return false

instance : Storage IO where
  readText path := guarded (IO.FS.readFile path)
  writeText path text := guarded (IO.FS.writeFile path text)
  makeFolder path := guarded (IO.FS.createDir path)
  isThere path := succeeds (IO.FS.realPath path)
  isFolder path := if path = "" then return false else succeeds (IO.FS.realPath (path ++ "/."))
  namesIn path := guarded do
    let entries ← (← IO.FS.realPath path).readDir
    return (KeySet.ofList (entries.toList.map (·.fileName))).names
  realPath path := guarded do return (← IO.FS.realPath path).toString

def LogLevel.text : LogLevel → String
  | .info => "INFO"
  | .error => "ERROR"

def usage : String :=
  "Usage: bidgen [OPTIONS] <COMMAND>\n\nCommands: init, generate, validate, show"

/-- The chain of errors, the causes below the first one; several causes are numbered. -/
def chainText : List String → String
  | [] => ""
  | [e] => "Error: " ++ e ++ "\n"
  | [e, cause] => "Error: " ++ e ++ "\n\nCaused by:\n    " ++ cause ++ "\n"
  | e :: causes =>
    let below := causes.zipIdx.map fun (c, n) => "    " ++ toString n ++ ": " ++ c ++ "\n"
    "Error: " ++ e ++ "\n\nCaused by:\n" ++ String.join below

def program (args : List String) : IO UInt32 := do
  match Invocation.parse? args with
  | none =>
    IO.eprintln usage
    return UInt32.ofNat usageExitCode
  | some i =>
    let r ← i.run (m := IO)
    for line in r.log do
      IO.eprintln (line.level.text ++ " " ++ line.message)
    IO.print r.output
    IO.eprint (chainText r.errors)
    return UInt32.ofNat r.exitCode

end AdapterForge

def main (args : List String) : IO UInt32 := AdapterForge.program args

/-!
File paths as texts, with a slash between components.
-/
namespace AdapterForge.FilePath

def isAbsolute (path : String) : Bool := path.toList.head? == some '/'

/-- A path inside another one. An absolute path stands for itself. -/
def join (base path : String) : String :=
  if isAbsolute path then path
  else if base = "" then path
  else if base.toList.getLast? = some '/' then base ++ path
  else base ++ "/" ++ path

def splitSlashes : List Char → List Char × List (List Char)
  | [] => ([], [])
  | c :: r =>
    let (w, ws) := splitSlashes r
    if c = '/' then ([], w :: ws) else (c :: w, ws)

/-- The names that a path goes through, with those that only move within the tree. -/
def names (path : String) : List String :=
  let (w, ws) := splitSlashes path.toList
  ((w :: ws).filter (· ≠ [])).map String.ofList

/-- The names on the way, and a dot for a slash at the end, which asks for a folder. -/
def steps (path : String) : List String :=
  names path ++ (if path.toList.getLast? = some '/' then ["."] else [])

/-- The last name, unless it only moves within the tree. -/
def fileName? (path : String) : Option String :=
  match (names path).filter (· ≠ ".") |>.getLast? with
  | some ".." => none
  | o => o

/-- What follows the last dot of a file name, unless the name starts with it. -/
def extension? (path : String) : Option String := do
  let name := (← fileName? path).toList
  let after := (name.reverse.takeWhile (· ≠ '.')).reverse
  if after.length + 1 < name.length then some (String.ofList after) else none

/-- Without slashes at the end, and without dots that stand alone there. -/
def trimEnd : List Char → List Char
  | l => trim l.reverse |>.reverse
where
  trim : List Char → List Char
    | ['/'] => ['/']
    | '/' :: r => trim r
    | '.' :: '/' :: r => if r = [] then ['/'] else trim r
    | l => l

/-- The folder that a path lies in. A bare name lies in the folder of the empty path. -/
def parent? (path : String) : Option String :=
  let l := trimEnd path.toList
  if l = [] ∨ l = ['/'] then none
  else
    let rest := (l.reverse.dropWhile (· ≠ '/')).reverse
    some (String.ofList (trimEnd rest))

/-- A path, the folder that it lies in, the folder that this one lies in, and so on; the empty path
is left out. -/
def ancestors (path : String) : List String := go path.length path
where
  go : Nat → String → List String
    | 0, _ => []
    | fuel + 1, path =>
      if path = "" then []
      else
        path ::
          match parent? path with
          | some p => go fuel p
          | none => []

def descriptionExtensions : List String := ["yaml", "yml", "json"]

def isDescription (path : String) : Bool :=
  (extension? path).any (descriptionExtensions.contains ·)

end AdapterForge.FilePath

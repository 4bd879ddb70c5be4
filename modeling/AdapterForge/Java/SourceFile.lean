import AdapterForge.KeySet

/-!
Java source files: a package, the imports, and the declaration of one class.
-/
namespace AdapterForge.Java

structure Imports where
  libraries : KeySet
  standard : KeySet
  members : List String
  deriving DecidableEq

structure SourceFile where
  package : String
  imports : Imports
  body : String
  deriving DecidableEq

def unlines (l : List String) : String := String.join (l.map (· ++ "\n"))

def block (l : List String) : List String := if l.isEmpty then [] else "" :: l

def importLine (name : String) : String := "import " ++ name ++ ";"

def staticImportLine (name : String) : String := "import static " ++ name ++ ";"

/-- Classes of libraries come first; each group of imports is a block. -/
def Imports.lines (i : Imports) : List String :=
  "" :: i.libraries.names.map importLine ++ block (i.standard.names.map importLine) ++
    block (i.members.map staticImportLine)

def SourceFile.text (u : SourceFile) : String :=
  unlines (["package " ++ u.package ++ ";"] ++ u.imports.lines ++ [""]) ++ u.body

end AdapterForge.Java

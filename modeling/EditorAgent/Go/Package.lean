import EditorAgent.Go.SourceFile
import EditorAgent.Path.Clean
import EditorAgent.Text.Search

/-!
# Packages

A package as its importers see it, the directory a package was found in, and what is known of a package
that may be imported: its name, its import path and who may import it.
-/

namespace EditorAgent.Go

structure Package where
  path : String
  name : String
  complete : Bool := false
  imports : List Package := []
  files : List String := []
  /-- Names declared at package level, sorted, each once. -/
  scope : List String := []
deriving Repr, Inhabited

namespace Package

/-- The package of unchecked conversions. -/
def ofUnsafe : Package :=
  { path := "unsafe", name := "unsafe", complete := true
    scope := ["Add", "Alignof", "Offsetof", "Pointer", "Sizeof", "Slice", "SliceData", "String",
      "StringData"] }

/-- What stands for the package of C names. -/
def ofC : Package := { path := "C", name := "C", complete := true }

end Package

/-- A package directory that was found but not read. -/
structure PackagePath where
  dir : String
  importPath : String
  goroot : Bool := false
  /-- The module that provides the package. -/
  module : Option String := none
deriving DecidableEq, Repr, Inhabited

/-- What is known of a package that may be imported. -/
structure PackageInfo where
  /-- The directory, with a closing slash, below which the importers are; empty if they may be anywhere. -/
  importers : String := ""
  dir : String := ""
  name : String := ""
  importPath : String := ""
  goroot : Bool := false
deriving DecidableEq, Repr, Inhabited

namespace PackageInfo

/-- The directory above the last element of a name, with a closing slash. An element at the end counts
only if there is none before it. -/
def above? (dir name : String) : Option String :=
  match Text.cutLast? dir ("/" ++ name ++ "/") with
  | some (before, _) => some (before ++ "/")
  | none => (Text.before? dir ("/" ++ name)).map (· ++ "/")

/-- An import path without what leads to its last vendor directory. -/
def withoutVendor (path : String) : String :=
  match Text.cutLast? path "/vendor/" with
  | some (_, after) => after
  | none => (Text.after? path "vendor/").getD path

/-- Fills what the directory and the path determine. -/
def finalize (p : PackageInfo) : PackageInfo :=
  let dir := Path.clean p.dir
  { p with
    dir
    importers := ((above? dir "internal").orElse fun _ => above? dir "vendor").getD ""
    importPath := withoutVendor p.importPath }

def isCommand (p : PackageInfo) : Bool := p.name = "main"

/-- Whether code in a directory may import the package. -/
def importable (p : PackageInfo) (srcDir : String) : Bool :=
  if p.importPath = "." || p.isCommand then false
  else if p.importers != "" then
    Text.startsWith srcDir p.importers || Text.before? p.importers "/" = some srcDir
  else !Path.same p.dir srcDir

end PackageInfo

/-- Names of package sources: neither hidden nor tests. -/
def isPackageFileName (name : String) : Bool :=
  !Text.startsWith name "." && !Text.startsWith name "_" && Text.endsWith name ".go"
    && !Text.endsWith name "_test.go"

end EditorAgent.Go

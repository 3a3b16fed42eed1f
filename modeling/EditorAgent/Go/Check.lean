import EditorAgent.Go.ImportError
import EditorAgent.Go.Package

/-!
# Checking packages

The shallow check looks at what can be known without types: package clauses, syntax, names declared twice,
imports and whether they are used. Soft errors do not fail a package.
-/

namespace EditorAgent.Go

structure PackageFile where
  path : String
  parsed : SourceFile
deriving Repr, Inhabited

structure CheckConfig where
  /-- Accept imports of the package of C names. -/
  fakeImportC : Bool := false
  ignoreFuncBodies : Bool := false
  allowUnusedImports : Bool := false
deriving DecidableEq, Repr, Inhabited

structure TypeError where
  place : Place
  message : String
  soft : Bool := false
deriving DecidableEq, Repr, Inhabited

def TypeError.text (e : TypeError) : String := s!"{e.place.text}: {e.message}"

structure CheckRequest where
  importPath : String
  dir : String
  files : List PackageFile
  /-- The dependencies that are imported already, by import path. -/
  imports : List (String × Package)
  config : CheckConfig

/-- Turns the files of a package into a package, and says what is wrong with them. -/
structure Checker where
  check : CheckRequest → Except ImportError Package × List TypeError

namespace Shallow

/-- A check under way. -/
structure Draft where
  package : Package
  /-- The file that declared a name last. -/
  declared : List (String × String) := []
  errors : List TypeError := []

namespace Draft

def report (c : Draft) (path : String) (row col : Nat) (message : String) (soft : Bool) : Draft :=
  { c with errors := c.errors ++ [⟨⟨path, row, col⟩, message, soft⟩] }

/-- The package clause of a file. The first file names the package. -/
def clause (c : Draft) (f : PackageFile) : Draft :=
  if c.package.name = "" then { c with package := { c.package with name := f.parsed.package } }
  else if f.parsed.package != c.package.name then
    c.report f.path 0 0 s!"package {f.parsed.package}; expected {c.package.name}" false
  else c

def declare (path : String) (c : Draft) (d : Decl) : Draft :=
  let c := match c.declared.find? (·.1 == d.name) with
    | some (_, before) =>
      c.report path d.row d.col
        s!"{d.name} redeclared in this block (other declaration in {before})" false
    | none => c
  { c with
    declared := (d.name, path) :: c.declared
    package := { c.package with scope := d.name :: c.package.scope } }

/-- Takes a dependency in, which a file names by `spec`. -/
def depend (config : CheckConfig) (f : PackageFile) (c : Draft) (spec : ImportSpec) (dep : Package) : Draft :=
  let name := spec.name.getD dep.name
  let checked := !config.allowUnusedImports && !config.ignoreFuncBodies && name != "_" && name != "."
  let c := if checked && !f.parsed.uses.contains name then
      c.report f.path spec.row spec.col s!"{Text.quote spec.path} imported and not used" true
    else c
  if c.package.imports.any (·.path == dep.path) then c
  else { c with package := { c.package with imports := c.package.imports ++ [dep] } }

end Draft

variable {m : Type → Type} [Monad m]

/-- Looks the imports of a file up, first among those at hand, then with `find`. -/
def imports (r : CheckRequest) (find : String → m (Except ImportError Package)) (f : PackageFile) (c : Draft) :
    List ImportSpec → m Draft
  | [] => return c
  | spec :: rest => do
    if spec.path = "C" && r.config.fakeImportC then imports r find f c rest
    else match r.imports.find? (·.1 == spec.path) with
      | some (_, dep) => imports r find f (c.depend r.config f spec dep) rest
      | none => match ← find spec.path with
        | .ok dep => imports r find f (c.depend r.config f spec dep) rest
        | .error e =>
          imports r find f
            (c.report f.path spec.row spec.col s!"could not import {spec.path} ({e.message})" false) rest

def file (r : CheckRequest) (find : String → m (Except ImportError Package)) (c : Draft) (f : PackageFile) :
    m Draft :=
  let c := { c with package := { c.package with files := c.package.files ++ [f.path] } }
  if f.parsed.stub then return c
  else
    let c := match f.parsed.error with
      | some e => c.report f.path e.row e.col e.message false
      | none => c
    let c := f.parsed.decls.foldl (Draft.declare f.path) (c.clause f)
    imports r find f c f.parsed.imports

def files (r : CheckRequest) (find : String → m (Except ImportError Package)) (c : Draft) :
    List PackageFile → m Draft
  | [] => return c
  | f :: rest => do files r find (← file r find c f) rest

/-- Checks a package; imports that are not at hand are asked of `find`. -/
def check (r : CheckRequest) (find : String → m (Except ImportError Package)) :
    m (Package × List TypeError) := do
  let c ← files r find { package := { path := r.importPath, name := "" } } r.files
  return ({ c.package with complete := true, scope := SourceFile.nameSet c.package.scope }, c.errors)

end Shallow

/-- The shallow check of a request whose dependencies are all at hand. -/
def Checker.shallow : Checker where
  check r :=
    let (p, errors) := Id.run (Shallow.check r fun path => pure (.error (.notFound path)))
    (.ok p, errors)

end EditorAgent.Go

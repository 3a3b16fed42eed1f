import EditorAgent.Store.State
import EditorAgent.Text.Quoted
import EditorAgent.Vfs.Basic

/-!
# Import errors

Why a package cannot be imported. The failure of a dependency is placed at the import that names it.
-/

namespace EditorAgent.Go

/-- A position in a source file; rows and columns count from zero. -/
structure Place where
  path : String
  row : Nat
  col : Nat
deriving DecidableEq, Repr, Inhabited

inductive ImportError where
  /-- The packages being imported lead back to one of them. -/
  | cycle (chain : String)
  /-- A directory without sources that can be built. -/
  | noGo (dir : String)
  | notFound (reason : String)
  /-- The checker has not completed the package. -/
  | incomplete (importPath : String)
  | mode (n : Nat)
  | srcDirNotAbsolute (dir : String)
  /-- A dependency failed. -/
  | dependency (place : Place) (cause : ImportError)
  | parse (place : Place) (reason : String)
  /-- The first hard error of the checker. -/
  | check (place : Place) (reason : String)
  /-- Compiled export data could not be had. -/
  | exportData (reason : String)
  | io (reason : String)
  | other (reason : String)
deriving DecidableEq, Repr, Inhabited

/-- A place as it is shown, counted from one. -/
def Place.text (p : Place) : String := s!"{p.path}:{p.row + 1}:{p.col + 1}"

namespace ImportError

def message : ImportError → String
  | .cycle chain => s!"import cycle: {chain}"
  | .noGo dir => s!"no buildable Go source files in {dir}"
  | .notFound reason => reason
  | .incomplete path => s!"reimported partially imported package {Text.quote path}"
  | .mode n => s!"unsupported import mode {n}"
  | .srcDirNotAbsolute dir => s!"srcDir is not absolute: {dir}"
  | .dependency _ cause => cause.message
  | .parse place reason => s!"{place.text}: {reason}"
  | .check place reason => s!"{place.text}: {reason}"
  | .exportData reason => reason
  | .io reason => s!"IO error: {reason}"
  | .other reason => reason

/-- A cycle, perhaps of a dependency. -/
def isCycle : ImportError → Bool
  | .cycle _ => true
  | .dependency _ cause => cause.isCycle
  | _ => false

/-- The issue of an error that has a place. -/
def issue? : ImportError → Option Issue
  | .dependency p cause => some { path := p.path, row := p.row, col := p.col, message := cause.message }
  | .parse p reason => some { path := p.path, row := p.row, col := p.col, message := reason }
  | .check p reason => some { path := p.path, row := p.row, col := p.col, message := reason }
  | _ => none

def ofDisk (e : DiskError) : ImportError := .io e.message

def ofVfs : VfsError → ImportError
  | .disk e => ofDisk e
  | e => .other e.message

end ImportError
end EditorAgent.Go

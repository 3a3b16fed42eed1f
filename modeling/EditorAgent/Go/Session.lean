import EditorAgent.Go.Build
import EditorAgent.Go.Check
import EditorAgent.Store.Profile
import EditorAgent.Text.Digest
import EditorAgent.Vfs.Stat

/-!
# Sessions

What imports share: the tree with all that was found out about its directories, the parsed sources, and
the record of what was checked.
-/

namespace EditorAgent.Go

/-- What is asked of the checker for one package. -/
structure CheckFlags where
  checkFuncs : Bool := false
  checkImports : Bool := false
  tests : Bool := false
deriving DecidableEq, Repr, Inhabited

/-- A package under one set of settings. -/
structure PackageKey where
  importPath : String
  dir : String
  flags : CheckFlags
  tags : String
  goarch : String
  goos : String
  goroot : String
  gopath : String
  /-- Identifies the sources that replace those on disk. -/
  overrides : String
deriving DecidableEq, Repr, Inhabited

/-- Keys of what is noted at the nodes of the tree. -/
inductive CacheKey where
  | text (k : String)
  | find (dir : SourceDir) (importPath : String)
  | modEnabled (dir : SourceDir)
  | importDir (goroot gopath : String)
  | package (k : PackageKey)
deriving DecidableEq, Repr, Inhabited

inductive CacheValue where
  | text (s : String)
  | flag (b : Bool)
  | found (r : Except ImportError PackagePath)
  | info (r : Except ImportError PackageInfo)

/-- A package that was imported: when its last check that counts began, and what came of it. -/
structure PackageRecord where
  importPath : String
  dir : String
  checkedAt : Nat := 0
  result : Option (Except ImportError Package) := none

abbrev Tree := Vfs CacheKey CacheValue PackageRecord

/-- Keys of what is kept beside the tree. -/
inductive SharedKey where
  | text (k : String)
  /-- A source by its hash. -/
  | source (hash : Bytes) (mode : ParseMode)
deriving DecidableEq

inductive SharedValue where
  | text (s : String)
  | source (f : SourceFile)

/-- A run of the checker. -/
structure CheckRecord where
  importPath : String
  errors : List TypeError
deriving Repr

structure Session where
  tree : Tree
  shared : Memo SharedKey SharedValue := {}
  profile : Profile := Profile.make "" false
  checks : List CheckRecord := []
  /-- Whether the time at which a stat expires can be told. Otherwise no stat can be taken. -/
  expiryFits : Bool := true

instance : Inhabited Session := ⟨{ tree := Vfs.make .never }⟩

/-- The key of a source directory, the same for all spellings of the root. -/
def SourceDir.normal (k : SourceDir) : SourceDir := { k with goroot := Path.normal k.goroot }

namespace SourceFile

def isSource : SharedValue → Bool
  | .source _ => true
  | .text _ => false

/-- Parses a source, once for each contents and mode. -/
def parseShared (memo : Memo SharedKey SharedValue) (mode : ParseMode) (src : Bytes) :
    SourceFile × Memo SharedKey SharedValue :=
  match memo.start (.source (Digest.sha256 src) mode) isSource with
  | (memo, .found (.source f)) => (f, memo)
  | (memo, .found (.text _)) => (parse mode src, memo)
  | (memo, .missing serial) =>
    let f := parse mode src
    (f, memo.finish serial (.source f) false)

end SourceFile

namespace Session

/-- Works on the tree alone. -/
def onTree {α : Type} (act : StateM Tree α) : StateM Session α := fun s =>
  let (a, tree) := act s.tree
  (a, { s with tree })

/-- Works inside a frame of the profile. -/
def framed {α : Type} (name : String) (act : StateM Session α) : StateM Session α := do
  modify fun s => { s with profile := s.profile.push name }
  let a ← act
  modify fun s => { s with profile := (s.profile.pop 0).1 }
  return a

end Session
end EditorAgent.Go

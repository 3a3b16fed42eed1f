import EditorAgent.Vfs.Stat
import EditorAgent.Path.Basic

/-!
# Scans

A scan fills the tree below a directory from the disk, down to a depth and as far as a filter allows. It
follows no links and reads no files.
-/

namespace EditorAgent

/-- An entry offered to a filter. -/
structure ScanEntry where
  path : String
  name : String
  kind : FileKind
  /-- One for the entries of the directory that is scanned. -/
  depth : Nat
deriving DecidableEq, Repr

structure ScanOptions where
  maxDepth : Nat := 1
  /-- What is refused is left out, with everything below it. -/
  accepts : ScanEntry → Bool := fun _ => true

/-- Names that hold no sources: hidden ones, test data, installed packages. -/
def isNoise (name : String) : Bool :=
  Text.startsWith name "." || Text.startsWith name "_" || name = "testdata" || name = "node_modules"

namespace Vfs

variable {κ ν ρ : Type}

/-- The entries of a directory that the filter accepts. -/
def accepted (d : Disk) (o : ScanOptions) (depth : Nat) (dir : String) : List (String × FileKind) :=
  match d.list dir with
  | .error _ => []
  | .ok entries => entries.filter fun e => o.accepts ⟨Path.join dir e.1, e.1, e.2, depth⟩

/-- The directories to be listed, from the top and side by side in the order of their names, each with its entries. -/
def listings (d : Disk) (o : ScanOptions) : Nat → Nat → String → List (String × List (String × FileKind))
  | 0, _, _ => []
  | fuel + 1, depth, dir =>
    let entries := accepted d o depth dir
    let deeper := (entries.filter fun e => e.2 = .dir && depth < o.maxDepth).mergeSort fun x y => x.1 ≤ y.1
    (dir, entries) :: deeper.flatMap fun e => listings d o fuel (depth + 1) (Path.join dir e.1)

/-- Lists every directory of a scan. No directory on the disk is deeper than it has entries. -/
def scan (d : Disk) (o : ScanOptions) (path : String) : StateM (Vfs κ ν ρ) (Except VfsError NodeId) := do
  if !Path.isAbsolute path then return .error (.notAbsolute path)
  let n ← nodeAt path
  match ← stat d n with
  | .error e => return .error e
  | .ok _ =>
    for (dir, entries) in listings d o (d.entries.length + 1) 1 path do
      let c ← nodeAt dir
      modify fun v => v.syncChildren c entries
    return .ok n

end Vfs
end EditorAgent

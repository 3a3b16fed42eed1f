import EditorAgent.Disk.Basic
import EditorAgent.Go.ImportError
import EditorAgent.Go.Package

/-!
# Export archives

An archive is a magic text and members, each a header of sixty bytes and contents of even length. Compiled
packages have a member of their own name for export data; its presence is all that is asked.
-/

namespace EditorAgent.Go.Archive

def magic : Bytes := Utf8.encode "!<arch>\n"
def headerLength : Nat := 60
def exportMember : String := "__.PKGDEF"

/-- Whether a member's name field names the export data; blanks and slashes may close it. -/
def isExportName (field : Bytes) : Bool :=
  let name := (Text.trimEnd (Utf8.lossy field)).toList.reverse.dropWhile (· == '/')
  name.reverse = exportMember.toList

/-- A decimal number with an optional sign. -/
def size? (field : Bytes) : Option Int :=
  let s := (Text.trim (Utf8.lossy field)).toList
  let (negative, digits) := match s with
    | '-' :: r => (true, r)
    | '+' :: r => (false, r)
    | r => (false, r)
  if digits.isEmpty || !digits.all Char.isDigit then none
  else
    let n : Nat := digits.foldl (fun n c => n * 10 + (c.toNat - 48)) 0
    some (if negative then -(n : Int) else n)

inductive Fault where
  | badSize
  /-- A size that leads before the start. -/
  | badSeek
deriving DecidableEq, Repr

def Fault.message : Fault → String
  | .badSize => "bad member size"
  | .badSeek => "Invalid argument (os error 22)"

/-- How far it is from the end of a header to the next one. -/
def advance (size : Int) : Int := size + size % 2

/-- Looks for the export data from a position on, at no more than `fuel` headers. `none` if it is not
decided by then. -/
def findExport (data : Bytes) : Nat → Nat → Option (Except Fault Bool)
  | 0, _ => none
  | fuel + 1, pos =>
    let header := (data.drop pos).take headerLength
    if header.length < headerLength then some (.ok false)
    else if isExportName (header.take 16) then some (.ok true)
    else match size? ((header.drop 48).take 10) with
      | none => some (.error .badSize)
      | some size =>
        let next : Int := pos + headerLength + advance size
        if next < 0 then some (.error .badSeek) else findExport data fuel next.toNat

/-- Whether there is export data after the magic. A search that visits more headers than there are bytes
comes back to one of them and never ends. -/
def hasExport (data : Bytes) : Option (Except Fault Bool) := findExport data (data.length + 1) magic.length

/-- The package of an archive. Its dependencies are those given, sorted by path. -/
def package (importPath : String) (imports : List Package) : Package :=
  { path := importPath
    name := Text.afterLast importPath "/"
    complete := true
    imports := imports.mergeSort fun p q => !decide (q.path < p.path) }

/-- Reads the package of the archive at a path. -/
def read (d : Disk) (importPath path : String) (imports : List Package) : Except ImportError Package :=
  let refuse (reason : String) : Except ImportError Package :=
    .error (.exportData s!"cannot read export data for {importPath} from {path}: {reason}")
  let foreign : Except ImportError Package :=
    .error (.exportData
      s!"cannot create export data reader for {importPath} from {path}: not an archive")
  match d.read path with
  | .error .isDirectory => foreign
  | .error e => .error (.exportData s!"cannot open {importPath}.a: {e.message}")
  | .ok data =>
    if data.take magic.length != magic then foreign
    else match hasExport data with
      | some (.ok true) => .ok (package importPath imports)
      | some (.ok false) => refuse "no __.PKGDEF member"
      | some (.error e) => refuse e.message
      | none => refuse "endless"

end EditorAgent.Go.Archive

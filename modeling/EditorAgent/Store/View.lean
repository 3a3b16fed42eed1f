import EditorAgent.Codec.Reader
import EditorAgent.Path.Basic
import EditorAgent.Text.Base64
import EditorAgent.Text.Digest

/-!
# Views

A view is a snapshot of an editor buffer. No source means that it is not loaded, and readers turn to the
file.
-/

namespace EditorAgent

structure View where
  path : String := ""
  wd : String := ""
  name : String := ""
  hash : String := ""
  src : Bytes := []
  pos : Nat := 0
  row : Nat := 0
  col : Nat := 0
  dirty : Bool := false
  ext : String := ""
  lang : String := ""
deriving DecidableEq, Repr, Inhabited

namespace View

/-- Whether a byte opens a character. -/
def opensChar (b : UInt8) : Bool := b &&& 0xC0 != 0x80

/-- The offset of the character of index `k`, or the length. -/
def bytePos : Bytes → Nat → Nat
  | [], _ => 0
  | b :: r, k =>
    if opensChar b then
      match k with
      | 0 => 0
      | k + 1 => bytePos r k + 1
    else bytePos r k + 1

/-- The bytes after the last line feed. -/
def lastLine (s : Bytes) : Bytes := (s.reverse.takeWhile (· != 0x0A)).reverse

/-- Row and column of a byte offset, both from zero; the column counts characters. -/
def rowCol (src : Bytes) (pos : Nat) : Nat × Nat :=
  let head := src.take pos
  (head.count 0x0A, (Utf8.lossy (lastLine head)).length)

/-- An identifier of the contents. -/
def srcHash (src : Bytes) : String :=
  "hash:sha512;base64url," ++ Base64.encode Base64.urlSafe (Digest.sha512 src)

def langFor (name ext : String) : String :=
  if name = "go.mod" || name = "go.sum" then name
  else match ext with
    | ".go" => "go"
    | ".rs" => "rust"
    | ".py" => "python"
    | ".js" => "js"
    | ".mjs" => "js"
    | ".ts" => "ts"
    | ".json" => "json"
    | ".md" => "md"
    | ".html" => "html"
    | ".htm" => "html"
    | ".tmpl" => "go-template"
    | ".gohtml" => "go-template"
    | _ => ""

/-- Fills the fields that others determine: name, directory, extension, language, hash, cursor. -/
def finalize (v : View) : View :=
  let name := if v.path = "" then v.name else (Path.fileName? v.path).getD v.name
  let wd := if v.path != "" && v.wd = "" then (Path.parent? v.path).getD v.wd else v.wd
  let ext := if v.ext = "" then ((Path.extension? name).map ("." ++ ·)).getD "" else v.ext
  let lang := if v.lang = "" then langFor name ext else v.lang
  let hash := if v.src.isEmpty then v.hash else srcHash v.src
  let pos := min v.pos v.src.length
  let rc := rowCol v.src pos
  { v with name, wd, ext, lang, hash, pos, row := rc.1, col := rc.2 }

def make (path : String) (src : Bytes) : View := finalize { path, src }

def dir (v : View) : String := if v.wd != "" then v.wd else (Path.parent? v.path).getD ""

def filename (v : View) : String := if v.path != "" then v.path else Path.join v.dir v.name

def langIs (v : View) (langs : List String) : Bool := langs.contains v.lang

/-- A copy that holds `src` and counts as changed. -/
def setSrc (v : View) (src : Bytes) : View :=
  finalize { v with src, hash := srcHash src, dirty := true }

/-- Where the contents of a view come from. -/
inductive Source where
  | buffer (b : Bytes)
  | file (path : String)

def source (v : View) : Source :=
  if !v.src.isEmpty then .buffer v.src
  else if v.path = "" then .buffer []
  else .file v.path

def toValue (v : View) : Value :=
  .table [("Path", .text v.path), ("Wd", .text v.wd), ("Name", .text v.name), ("Hash", .text v.hash),
    ("Src", .bytes v.src), ("Pos", .nat v.pos), ("Row", .nat v.row), ("Col", .nat v.col),
    ("Dirty", .bool v.dirty), ("Ext", .text v.ext), ("Lang", .text v.lang)]

def reader (d : Dialect) : Reader View :=
  d.record [
    .opt "Path" d.text fun x v => { v with path := x },
    .opt "Wd" d.text fun x v => { v with wd := x },
    .opt "Name" d.text fun x v => { v with name := x },
    .opt "Hash" d.text fun x v => { v with hash := x },
    .opt "Src" d.source fun x v => { v with src := x },
    .opt "Pos" d.natural fun x v => { v with pos := x },
    .opt "Row" d.natural fun x v => { v with row := x },
    .opt "Col" d.natural fun x v => { v with col := x },
    .opt "Dirty" d.bool fun x v => { v with dirty := x },
    .opt "Ext" d.text fun x v => { v with ext := x },
    .opt "Lang" d.text fun x v => { v with lang := x }] {}

instance : Message View := ⟨reader, toValue⟩

end View
end EditorAgent

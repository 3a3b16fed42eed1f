import EditorAgent.Disk.Basic
import EditorAgent.Memo.Basic

/-!
# Cached file trees

A tree of named nodes over a disk. Nodes are numbered in the order in which they are made, so a child's
number is above its parent's; a node taken out of the tree keeps its number and its parent. Every node has
a memo. A pinned note of a memo is a cell, which knows when it was last invalidated and which cells depend
on it.
-/

namespace EditorAgent

abbrev NodeId := Nat
abbrev CellId := Nat

/-- How long a stat stays valid: as long as nothing asks for a new one, or not at all. -/
inductive Expiry where
  | never
  | always
deriving DecidableEq, Repr, Inhabited

structure FileInfo where
  name : String
  kind : FileKind
  size : Nat
  modified : Int
deriving DecidableEq, Repr, Inhabited

/-- What is known of the disk at a node. -/
inductive Stat where
  | unknown
  | found (info : FileInfo)
  | missing
deriving DecidableEq, Repr, Inhabited

inductive VfsError where
  | disk (cause : DiskError)
  | notAbsolute (path : String)
  | notExist (path : String)
  | notDir (path : String)
  | other (reason : String)
deriving DecidableEq, Repr, Inhabited

def VfsError.message : VfsError → String
  | .disk cause => s!"IO error: {cause.message}"
  | .notAbsolute path => s!"path `{path}` is not absolute"
  | .notExist path => s!"`{path}` does not exist"
  | .notDir path => s!"`{path}` is not a directory"
  | .other reason => reason

def VfsError.isNotExist : VfsError → Bool
  | .notExist _ => true
  | .disk .notFound => true
  | _ => false

/-- Keys of a node's memo: the file's contents, or a key of the memo's users. -/
inductive NoteKey (κ : Type) where
  | blob
  | user (k : κ)
deriving DecidableEq, Repr

inductive Note (ν : Type) where
  | blob (data : Bytes)
  | user (v : ν)
  | cell (c : CellId)
deriving Repr

def Note.isUser {ν : Type} : Note ν → Bool
  | .user _ => true
  | _ => false

def Note.isCell {ν : Type} : Note ν → Bool
  | .cell _ => true
  | _ => false

structure Node (κ ν : Type) where
  parent : Option NodeId
  name : String
  children : List NodeId := []
  /-- The kind by which the node was listed, until it is observed. -/
  kind : Option FileKind := none
  stat : Stat := .unknown
  /-- Whether `stat` may be served. -/
  fresh : Bool := false
  memo : Memo (NoteKey κ) (Note ν) := {}

instance {κ ν : Type} : Inhabited (Node κ ν) := ⟨{ parent := none, name := "" }⟩

/-- A pinned note with its dependents. -/
structure Cell (ρ : Type) where
  /-- The node whose memo holds the cell. -/
  home : NodeId
  invalidatedAt : Nat := 0
  /-- Cells that are invalidated with this one. -/
  dependents : List CellId := []
  content : ρ

structure Vfs (κ ν ρ : Type) where
  expiry : Expiry
  nodes : Array (Node κ ν)
  cells : Array (Cell ρ) := #[]
  /-- Nodes that someone keeps although they may have left the tree. -/
  held : List NodeId := []
  /-- Cells that are in use. -/
  active : List CellId := []
  /-- The last stamp given out. -/
  stamp : Nat := 0

namespace Vfs

variable {κ ν ρ : Type}

def rootId : NodeId := 0

def make (expiry : Expiry) : Vfs κ ν ρ := { expiry, nodes := #[{ parent := none, name := "" }] }

instance : Inhabited (Vfs κ ν ρ) := ⟨make .never⟩

def node (v : Vfs κ ν ρ) (n : NodeId) : Node κ ν := v.nodes.getD n default

def modifyNode (v : Vfs κ ν ρ) (n : NodeId) (f : Node κ ν → Node κ ν) : Vfs κ ν ρ :=
  { v with nodes := v.nodes.modify n f }

def cell? (v : Vfs κ ν ρ) (c : CellId) : Option (Cell ρ) := v.cells[c]?

def modifyCell (v : Vfs κ ν ρ) (c : CellId) (f : Cell ρ → Cell ρ) : Vfs κ ν ρ :=
  { v with cells := v.cells.modify c f }

/-- A stamp above all that were given out before. -/
def tick (v : Vfs κ ν ρ) : Nat × Vfs κ ν ρ := (v.stamp + 1, { v with stamp := v.stamp + 1 })

/-! ## Names and paths -/

/-- The names in a path: both slashes divide it, and empty ones and `.` mean nothing. -/
def splitPath (path : String) : List String :=
  (Text.split (fun c => c == '/' || c == '\\') path).filter fun s => s != "" && s != "."

/-- The nodes from a node up to the root. -/
def lineage (v : Vfs κ ν ρ) (n : NodeId) : List NodeId :=
  match (v.node n).parent with
  | some p => if _h : p < n then n :: lineage v p else [n]
  | none => [n]
termination_by n

def path (v : Vfs κ ν ρ) (n : NodeId) : String :=
  let names := ((v.lineage n).map fun m => (v.node m).name).reverse
  "/" ++ Text.join "/" (names.filter (· != ""))

def isRoot (v : Vfs κ ν ρ) (n : NodeId) : Bool := (v.node n).parent.isNone && (v.node n).name = ""

/-! ## The tree -/

def child? (v : Vfs κ ν ρ) (n : NodeId) (name : String) : Option NodeId :=
  (v.node n).children.find? fun c => (v.node c).name = name

/-- Makes a node that no other node lists yet. -/
def makeNode (v : Vfs κ ν ρ) (parent : NodeId) (name : String) (kind : Option FileKind) :
    NodeId × Vfs κ ν ρ :=
  (v.nodes.size, { v with nodes := v.nodes.push { parent := some parent, name, kind } })

/-- Makes a node and lists it last. -/
def appendChild (v : Vfs κ ν ρ) (n : NodeId) (name : String) (kind : Option FileKind) :
    NodeId × Vfs κ ν ρ :=
  let (c, v) := v.makeNode n name kind
  (c, v.modifyNode n fun nd => { nd with children := nd.children ++ [c] })

/-- The child of a name, made if it is missing. -/
def pokeChild (v : Vfs κ ν ρ) (n : NodeId) (name : String) : NodeId × Vfs κ ν ρ :=
  match v.child? n name with
  | some c => (c, v)
  | none => v.appendChild n name none

def pokeFrom (v : Vfs κ ν ρ) (n : NodeId) : List String → NodeId × Vfs κ ν ρ
  | [] => (n, v)
  | s :: rest =>
    let (c, v) := v.pokeChild n s
    pokeFrom v c rest

/-- The node of a path; missing nodes on the way are made. -/
def poke (v : Vfs κ ν ρ) (path : String) : NodeId × Vfs κ ν ρ := v.pokeFrom rootId (splitPath path)

def peekFrom (v : Vfs κ ν ρ) (n : NodeId) : List String → Option NodeId
  | [] => some n
  | s :: rest => match v.child? n s with
    | some c => peekFrom v c rest
    | none => none

/-- The node of a path, if it is in the tree. -/
def peek? (v : Vfs κ ν ρ) (path : String) : Option NodeId := v.peekFrom rootId (splitPath path)

/-- The kind of a node, as far as it is known. -/
def kind? (v : Vfs κ ν ρ) (n : NodeId) : Option FileKind :=
  match (v.node n).stat with
  | .found info => some info.kind
  | _ => (v.node n).kind

/-- Whether a node can stand for an entry of this kind. -/
def compatible (v : Vfs κ ν ρ) (n : NodeId) (kind : FileKind) : Bool :=
  match v.kind? n with
  | some k => k = kind
  | none => true

/-- The child of a name, replaced by a new one if it is of another kind. -/
def addChild (v : Vfs κ ν ρ) (n : NodeId) (name : String) (kind : FileKind) : NodeId × Vfs κ ν ρ :=
  match v.child? n name with
  | none => v.appendChild n name (some kind)
  | some c =>
    if v.compatible c kind then (c, v)
    else
      let v := v.modifyNode n fun nd => { nd with children := nd.children.erase c }
      v.appendChild n name (some kind)

/-- Takes the child of a name out of the tree. -/
def removeChild (v : Vfs κ ν ρ) (n : NodeId) (name : String) : Option NodeId × Vfs κ ν ρ :=
  match v.child? n name with
  | none => (none, v)
  | some c => (some c, v.modifyNode n fun nd => { nd with children := nd.children.erase c })

/-- Takes the node of a path out of the tree. -/
def remove (v : Vfs κ ν ρ) (path : String) : Option NodeId × Vfs κ ν ρ :=
  let names := splitPath path
  match names.getLast?, v.peekFrom rootId names.dropLast with
  | some name, some n => v.removeChild n name
  | _, _ => (none, v)

/-- The nodes for a directory's entries: those listed before that can stand for them, and new ones. -/
def nodesFor (v : Vfs κ ν ρ) (n : NodeId) (old : List NodeId) :
    List (String × FileKind) → List NodeId × Vfs κ ν ρ
  | [] => ([], v)
  | (name, kind) :: rest =>
    let (c, v) := match old.find? fun c => (v.node c).name = name && v.compatible c kind with
      | some c => (c, v)
      | none => v.makeNode n name (some kind)
    let (cs, v) := nodesFor v n old rest
    (c :: cs, v)

/-- Replaces the children by those for the entries. -/
def syncChildren (v : Vfs κ ν ρ) (n : NodeId) (entries : List (String × FileKind)) : Vfs κ ν ρ :=
  let (cs, v) := v.nodesFor n (v.node n).children entries
  v.modifyNode n fun nd => { nd with children := cs }

/-! ## Printing -/

/-- The lines below a node. Nodes at most `fuel` levels down are shown. -/
def renderBelow (v : Vfs κ ν ρ) : Nat → String → List NodeId → String
  | 0, _, _ => ""
  | _, _, [] => ""
  | fuel + 1, indent, c :: cs =>
    let (branch, deeper) := if cs.isEmpty then ("└─ ", "   ") else ("├─ ", "│  ")
    indent ++ branch ++ (v.node c).name ++ "\n"
      ++ renderBelow v fuel (indent ++ deeper) (v.node c).children
      ++ renderBelow v fuel indent cs

/-- The whole tree, a line per node. -/
def render (v : Vfs κ ν ρ) : String :=
  "/\n" ++ v.renderBelow (2 * v.nodes.size) "" (v.node rootId).children

end Vfs
end EditorAgent

import EditorAgent.Vfs.Cell

/-!
# Looking at the disk through a tree

A stat is served from the tree while it is fresh. When the disk is looked at again and has changed, what
was noted at the node is dropped, and a directory is listed again. The first look only fills the tree.
-/

namespace EditorAgent.Vfs

variable {κ ν ρ : Type}

/-- Lists a directory again; one that cannot be listed stays as it is. -/
def rescan (d : Disk) (n : NodeId) (v : Vfs κ ν ρ) : Vfs κ ν ρ :=
  match d.list (v.path n) with
  | .ok entries => v.syncChildren n entries
  | .error _ => v

/-- What to do after an observation, given the stat before it. -/
structure Change where
  changed : Bool
  /-- Nothing was known before. -/
  first : Bool

def Stat.change (before : Stat) (info : FileInfo) : Change :=
  match before with
  | .unknown => ⟨true, true⟩
  | .missing => ⟨true, false⟩
  | .found old => ⟨old.modified != info.modified || old.kind != info.kind, false⟩

def itemSize : Item → Nat
  | .file data _ => data.length
  | .link target => target.utf8ByteSize
  | .dir => 0
  | .device => 0

/-- Takes note that the node is not on the disk. -/
def observeMissing (n : NodeId) (v : Vfs κ ν ρ) : Vfs κ ν ρ :=
  let existed := match (v.node n).stat with
    | .found _ => true
    | _ => false
  let keep := v.isRoot n
  let v := v.modifyNode n fun nd =>
    { nd with kind := none, stat := .missing, fresh := v.expiry = .never,
              children := if keep then nd.children else [] }
  if existed then v.clearMemo n else v

/-- Takes note of what is on the disk at the node. -/
def observeFound (d : Disk) (n : NodeId) (info : FileInfo) (v : Vfs κ ν ρ) : Vfs κ ν ρ :=
  let c := Stat.change (v.node n).stat info
  let v := v.modifyNode n fun nd =>
    { nd with kind := some info.kind, stat := .found info, fresh := v.expiry = .never }
  if !c.changed then v
  else
    let v := if c.first then v else v.clearMemo n
    if info.kind = .dir then rescan d n v
    else if c.first then v
    else match (v.node n).parent with
      | some p => v.clearMemo p
      | none => v

/-- Looks at the disk. -/
def sync (d : Disk) (n : NodeId) : StateM (Vfs κ ν ρ) (Except VfsError FileInfo) := fun v =>
  match d.entry (v.path n) with
  | .error e =>
    let cause := if e = .notFound then VfsError.notExist (v.path n) else .disk e
    (.error cause, observeMissing n v)
  | .ok e =>
    let info : FileInfo := ⟨(v.node n).name, e.item.kind, itemSize e.item, e.modified⟩
    (.ok info, observeFound d n info v)

/-- What is on the disk at a node. -/
def stat (d : Disk) (n : NodeId) : StateM (Vfs κ ν ρ) (Except VfsError FileInfo) := fun v =>
  let nd := v.node n
  match nd.fresh, nd.stat with
  | true, .found info => (.ok info, v)
  | true, .missing => (.error (.notExist (v.path n)), v)
  | _, _ => sync d n v

/-- Has the next stat look at the disk. -/
def expire (n : NodeId) (v : Vfs κ ν ρ) : Vfs κ ν ρ :=
  v.modifyNode n fun nd => { nd with fresh := false }

def hasKind (d : Disk) (kind : FileKind) (n : NodeId) : StateM (Vfs κ ν ρ) Bool := do
  match ← stat d n with
  | .ok info => return info.kind = kind
  | .error _ => return false

def isDir (d : Disk) (n : NodeId) : StateM (Vfs κ ν ρ) Bool := hasKind d .dir n
def isFile (d : Disk) (n : NodeId) : StateM (Vfs κ ν ρ) Bool := hasKind d .file n

/-- The children of a directory. -/
def readDir (d : Disk) (n : NodeId) : StateM (Vfs κ ν ρ) (Except VfsError (List NodeId)) := do
  match ← stat d n with
  | .error e => return .error e
  | .ok info =>
    let v ← get
    if info.kind = .dir then return .ok (v.node n).children
    else return .error (.notDir (v.path n))

/-- Walks up from a node to the first directory that holds an entry of this name. -/
def locateIn (d : Disk) (name : String) : List NodeId → StateM (Vfs κ ν ρ) (Option NodeId)
  | [] => return none
  | n :: up => do
    let c ← modifyGet fun v => v.pokeChild n name
    match ← stat d c with
    | .ok _ => return some c
    | .error _ => locateIn d name up

def locate (d : Disk) (n : NodeId) (name : String) : StateM (Vfs κ ν ρ) (Option NodeId) := do
  let v ← get
  locateIn d name (v.lineage n)

/-- The bytes of a file, noted until it changes. -/
def blob [DecidableEq κ] (d : Disk) (n : NodeId) : StateM (Vfs κ ν ρ) (Except VfsError Bytes) := do
  match ← stat d n with
  | .error e => return .error e
  | .ok info =>
    let v ← get
    if info.kind = .dir then return .error (.other s!"`{v.path n}` is a directory")
    else match (v.node n).memo.peek? .blob fun _ => true with
      | some (.blob data) => return .ok data
      | _ => match d.read (v.path n) with
        | .error e => return .error (.disk e)
        | .ok data =>
          modify fun v => v.modifyNode n fun nd => { nd with memo := nd.memo.put .blob (.blob data) }
          return .ok data

/-! ## By path -/

def nodeAt (path : String) : StateM (Vfs κ ν ρ) NodeId := modifyGet fun v => v.poke path

def statAt (d : Disk) (path : String) : StateM (Vfs κ ν ρ) (Except VfsError FileInfo) := do
  stat d (← nodeAt path)

def isDirAt (d : Disk) (path : String) : StateM (Vfs κ ν ρ) Bool := do isDir d (← nodeAt path)

def isFileAt (d : Disk) (path : String) : StateM (Vfs κ ν ρ) Bool := do isFile d (← nodeAt path)

def readDirAt (d : Disk) (path : String) : StateM (Vfs κ ν ρ) (Except VfsError (List NodeId)) := do
  readDir d (← nodeAt path)

def blobAt [DecidableEq κ] (d : Disk) (path : String) : StateM (Vfs κ ν ρ) (Except VfsError Bytes) := do
  blob d (← nodeAt path)

/-- The names a directory lists. -/
def namesAt (d : Disk) (path : String) : StateM (Vfs κ ν ρ) (Except VfsError (List String)) := do
  match ← readDirAt d path with
  | .error e => return .error e
  | .ok cs =>
    let v ← get
    return .ok (cs.map fun c => (v.node c).name)

end EditorAgent.Vfs

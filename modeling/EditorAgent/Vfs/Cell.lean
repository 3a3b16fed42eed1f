import EditorAgent.Vfs.Basic

/-!
# Cells

A cell is invalidated when the memo that holds it is cleared, and with it every cell that depends on it,
however indirectly. Cells whose node is gone take no part.
-/

namespace EditorAgent.Vfs

variable {κ ν ρ : Type}

/-- Whether a node is in the tree or below a node that is held. -/
def isAlive (v : Vfs κ ν ρ) (n : NodeId) : Bool :=
  if v.held.contains n then true
  else match (v.node n).parent with
    | none => n = rootId
    | some p =>
      if _h : p < n then (v.node p).children.contains n && isAlive v p else false
termination_by n

def isLiveCell (v : Vfs κ ν ρ) (c : CellId) : Bool :=
  v.active.contains c || match v.cell? c with
    | some x => v.isAlive x.home
    | none => false

/-- A cell's live dependents. -/
def liveDependents (v : Vfs κ ν ρ) (c : CellId) : List CellId :=
  match v.cell? c with
  | some x => x.dependents.filter v.isLiveCell
  | none => []

/-- Notes that a cell is used by another. -/
def addDependent (v : Vfs κ ν ρ) (c user : CellId) : Vfs κ ν ρ :=
  let live := v.liveDependents c
  v.modifyCell c fun x =>
    { x with dependents := if live.contains user then live else live ++ [user] }

/-- Marks the cells of a work list, and those that depend on them. -/
def invalidateAll (v : Vfs κ ν ρ) (mark : Nat) : Nat → List CellId → Vfs κ ν ρ
  | 0, _ => v
  | _, [] => v
  | fuel + 1, c :: work =>
    match v.cell? c with
    | none => invalidateAll v mark fuel work
    | some x =>
      if mark ≤ x.invalidatedAt then invalidateAll v mark fuel work
      else
        let v := v.modifyCell c fun x => { x with invalidatedAt := mark }
        invalidateAll v mark fuel (v.liveDependents c ++ work)

/-- Enough steps to mark every cell once and to look along every dependence. -/
def invalidationBound (v : Vfs κ ν ρ) (work : List CellId) : Nat :=
  v.cells.foldl (fun n x => n + x.dependents.length) work.length + 1

def invalidate (v : Vfs κ ν ρ) (mark : Nat) (work : List CellId) : Vfs κ ν ρ :=
  v.invalidateAll mark (v.invalidationBound work) work

def cellsOf (notes : List (Note ν)) : List CellId :=
  notes.filterMap fun
    | .cell c => some c
    | _ => none

/-- Clears a node's memo; its cells stay and are invalidated. -/
def clearMemo (v : Vfs κ ν ρ) (n : NodeId) : Vfs κ ν ρ :=
  let (mark, v) := v.tick
  let (memo, told) := (v.node n).memo.clear
  let v := v.modifyNode n fun nd => { nd with memo }
  v.invalidate mark (cellsOf told)

section Memo

variable [DecidableEq κ]

/-- The note of a user's key, if it is one. -/
def note? (v : Vfs κ ν ρ) (n : NodeId) (k : κ) : Option ν :=
  match (v.node n).memo.peek? (.user k) fun _ => true with
  | some (.user x) => some x
  | _ => none

def putNote (v : Vfs κ ν ρ) (n : NodeId) (k : κ) (x : ν) : Vfs κ ν ρ :=
  v.modifyNode n fun nd => { nd with memo := nd.memo.put (.user k) (.user x) }

/-- The note of a key; if it is missing, it is computed over the tree and kept unless the entry was
dropped meanwhile. -/
def readNote (n : NodeId) (k : κ) (init : StateM (Vfs κ ν ρ) ν) : StateM (Vfs κ ν ρ) ν := fun v =>
  let (memo, found) := (v.node n).memo.start (.user k) Note.isUser
  let v := v.modifyNode n fun nd => { nd with memo }
  match found with
  | .found (.user x) => (x, v)
  | .found _ => init v
  | .missing serial =>
    let (x, v) := init v
    (x, v.modifyNode n fun nd => { nd with memo := nd.memo.finish serial (.user x) false })

/-- The cell of a key, made if it is missing. -/
def readCell (v : Vfs κ ν ρ) (n : NodeId) (k : κ) (content : ρ) : CellId × Vfs κ ν ρ :=
  let (memo, found) := (v.node n).memo.start (.user k) Note.isCell
  match found with
  | .found (.cell c) => (c, v)
  | .found _ => (v.cells.size, v)
  | .missing serial =>
    let c := v.cells.size
    let v := v.modifyNode n fun nd => { nd with memo := memo.finish serial (.cell c) true }
    (c, { v with cells := v.cells.push { home := n, content } })

end Memo
end EditorAgent.Vfs

import EditorAgent.Syntax.Stack

/-!
# The state of a parser

The readings of a text that are still open, and the tree of the best one that is complete. A reading costs as
much as the mistakes in it; of two that are at the same place the worse one is given up.
-/

namespace EditorAgent.Syntax

inductive Status where
  | active
  /-- It cannot go on with this token. -/
  | paused (ahead : Tree)
  | halted
deriving Inhabited

def Status.isActive : Status → Bool
  | active => true
  | _ => false

def Status.isPaused : Status → Bool
  | paused _ => true
  | _ => false

/-- One reading of the text. -/
structure Reading where
  top : Nat
  /-- The nodes it had when a mistake was last found. -/
  nodesAtError : Nat := 0
  status : Status := .active
  /-- Where it can go back to, once a mistake was found. -/
  reaches : Option (List Frames.Reach) := none
deriving Inhabited

structure ParseState where
  frames : Frames
  readings : Array Reading
  finished : Option Tree := none
  finishes : Nat := 0
  /-- The token read last and the byte it was read at. -/
  lastToken : Option (Nat × Tree) := none
deriving Inhabited

abbrev Parsing := StateM ParseState

/-- What decides between two readings. -/
structure Standing where
  cost : Nat
  nodesSinceError : Nat
  weight : Int
  isInError : Bool
deriving Repr, Inhabited

inductive Verdict where
  | takeLeft
  | preferLeft
  | either
  | preferRight
  | takeRight
deriving DecidableEq, Repr, Inhabited

def Standing.maxCostDifference : Nat := 18 * Tree.skippedTreeCost

/-- A cheaper reading is taken at once if the other is in an error, or if it was cheaper for long. -/
def Standing.compare (a b : Standing) : Verdict :=
  let far (x y : Standing) : Bool := (y.cost - x.cost) * (1 + x.nodesSinceError) > maxCostDifference
  if !a.isInError && b.isInError then if a.cost < b.cost then .takeLeft else .preferLeft
  else if a.isInError && !b.isInError then if b.cost < a.cost then .takeRight else .preferRight
  else if a.cost < b.cost then if far a b then .takeLeft else .preferLeft
  else if b.cost < a.cost then if far b a then .takeRight else .preferRight
  else if a.weight > b.weight then .preferLeft
  else if b.weight > a.weight then .preferRight
  else .either

namespace ParseState

def maxReadings : Nat := 6
def overflow : Nat := 4

def start : ParseState where
  frames := #[{ state := 1 }]
  readings := #[{ top := 0 }]

variable (p : ParseState)

def reading (v : Nat) : Reading := p.readings.getD v default

def top (v : Nat) : Frame := p.frames.frame (p.reading v).top

def errorCost (v : Nat) : Nat :=
  let f := p.top v
  let isOpen := (p.reading v).status.isPaused || f.state == 0 && f.links.head?.all (·.tree.isNone)
  f.cost + if isOpen then Tree.errorCost else 0

def canMerge (v w : Nat) : Bool :=
  (p.reading v).status.isActive && (p.reading w).status.isActive &&
    p.frames.alike (p.reading v).top (p.reading w).top

end ParseState

namespace Parsing

open ParseState

def modifyReading (v : Nat) (f : Reading → Reading) : Parsing Unit :=
  modify fun p => { p with readings := p.readings.modify v f }

def remove (v : Nat) : Parsing Unit :=
  modify fun p => { p with readings := p.readings.eraseIdxIfInBounds v }

def halt (v : Nat) : Parsing Unit := modifyReading v ({ · with status := .halted })

def add (r : Reading) : Parsing Nat := fun p =>
  (p.readings.size, { p with readings := p.readings.push r })

/-- Puts a tree on a reading; no tree marks a mistake. -/
def push (v : Nat) (tree : Option Tree) (state : Nat) : Parsing Unit := fun p =>
  let f := p.frames.above (p.reading v).top tree state
  let i := p.frames.size
  ((), { p with
    frames := p.frames.push f
    readings := p.readings.modify v fun r =>
      { r with top := i, nodesAtError := if tree.isNone then f.nodeCount else r.nodesAtError } })

def pushAll (v : Nat) (trees : List Tree) (state : Nat) : Parsing Unit :=
  trees.forM fun t => push v (some t) state

/-- Makes one reading of two, if they agree. -/
def merge (v w : Nat) : Parsing Bool := fun p =>
  if !p.canMerge v w then (false, p)
  else
    let i := (p.reading v).top
    let frames := p.frames.addLinks i (p.top w).links
    let f := frames.frame i
    let readings := p.readings.modify v fun r =>
      if f.state = 0 then { r with nodesAtError := f.nodeCount } else r
    (true, { p with frames, readings := readings.eraseIdxIfInBounds w })

/-- Merges a reading into the first of `vs` it agrees with. -/
def mergeIntoAny (w : Nat) : List Nat → Parsing Bool
  | [] => pure false
  | v :: vs => do if ← merge v w then pure true else mergeIntoAny w vs

/-- Puts reading `w` in the place of `v`, which it goes on from. -/
def replace (w v : Nat) : Parsing Unit := fun p =>
  if w = v then ((), p)
  else
    let r := p.reading w
    let r := { r with reaches := r.reaches <|> (p.reading v).reaches }
    ((), { p with readings := (p.readings.modify v fun _ => r).eraseIdxIfInBounds w })

def swap (v w : Nat) : Parsing Unit :=
  modify fun p => { p with readings := p.readings.swapIfInBounds v w }

/-- The nodes read since the last mistake. -/
def nodesSinceError (v : Nat) : Parsing Nat := fun p =>
  let n := (p.top v).nodeCount
  let before := min (p.reading v).nodesAtError n
  (n - before, { p with readings := p.readings.modify v fun r => { r with nodesAtError := before } })

def standing (v : Nat) : Parsing Standing := do
  let nodes ← nodesSinceError v
  let p ← get
  let isPaused := (p.reading v).status.isPaused
  let cost := p.errorCost v + if isPaused then Tree.skippedTreeCost else 0
  return ⟨cost, nodes, (p.top v).weight, isPaused || (p.top v).state == 0⟩

/-- Whether there is a better reading than `v` would be at the given cost. -/
def isHopeless (v cost : Nat) : Parsing Bool := do
  let p ← get
  if p.finished.any (·.cost ≤ cost) then return true
  let mine : Standing := ⟨cost, ← nodesSinceError v, (p.top v).weight, false⟩
  for w in [0:p.readings.size] do
    if w != v && (p.reading w).status.isActive && (p.top w).place.bytes ≥ (p.top v).place.bytes then
      match mine.compare (← standing w) with
      | .takeRight => return true
      | .preferRight => if p.canMerge w v then return true
      | _ => pure ()
  return false

end Parsing
end EditorAgent.Syntax

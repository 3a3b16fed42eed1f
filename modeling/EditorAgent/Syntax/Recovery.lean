import EditorAgent.Syntax.Reduction

/-!
# Going on after a mistake

A reading that cannot go on is tried with a token put in, taken back to a state that knows the token ahead, or led
past that token. What it passes over becomes an error in the tree.
-/

namespace EditorAgent.Syntax

variable (l : Language)

namespace Parsing

open ParseState

/-- Takes reading `v` back over `depth` trees, wherever that leads to state `goal`; what it had read becomes an
error. -/
def goBack (v depth goal : Nat) : Parsing Bool := do
  let p ← get
  let r := p.reading v
  let mut went := false
  for a in p.frames.pop r.top depth do
    if (p.frames.frame a.frame).state = goal then
      let way := a.ways.headD []
      let links := (p.frames.frame a.frame).links
      let inError := links.any fun k => k.tree.any (·.symbol == Tree.errorSymbol)
      let (frame, trees) := match if inError then p.frames.popError? a.frame else none with
        | some e => (e.frame, (e.ways.headD []).flatMap (·.children) ++ way)
        | none => (a.frame, way)
      let (trees, extras) := splitExtras trees
      let w ← add { top := frame, nodesAtError := r.nodesAtError }
      if !trees.isEmpty then
        push w (some ((Tree.build l Tree.errorSymbol 0 trees).setExtra true)) goal
      pushAll w extras goal
      went := true
  return went

/-- Goes back to the first known place that has something to do with the token ahead, unless it costs too much. -/
def goBackTo (v : Nat) (ahead : Tree) (nodes cost : Nat) : Parsing Bool := do
  let p ← get
  let place := (p.top v).place
  for k in ((p.reading v).reaches).getD [] do
    if k.state != 0 && k.place.bytes != place.bytes then
      let taken := (List.range p.readings.size).any fun w =>
        (p.top w).state == k.state && (p.top w).place.bytes == place.bytes
      if !taken then
        let whole := cost + k.depth * Tree.skippedTreeCost + (place.bytes - k.place.bytes) +
          (place.rows - k.place.rows) * Tree.skippedRowCost
        if ← isHopeless v whole then return false
        if !(l.actions k.state ahead.symbol).isEmpty then
          if ← goBack l v (if nodes > 0 then k.depth + 1 else k.depth) k.state then return true
  return false

/-- Passes over the token ahead. -/
def skipToken (v : Nat) (ahead : Tree) (nodes : Nat) : Parsing Unit := do
  let isExtra := match (l.actions 1 ahead.symbol).getLast? with
    | some .skip => true
    | _ => false
  let skipped := Tree.build l Tree.skippedSymbol 0 [if isExtra then ahead.setExtra true else ahead]
  let p ← get
  match if nodes > 0 then (p.frames.pop (p.reading v).top 1).head? else none with
  | some a =>
    modifyReading v fun r => { r with top := a.frame, status := .active }
    push v (some (Tree.build l Tree.skippedSymbol 0 (a.ways.headD [] ++ [skipped]))) 0
  | none => push v (some skipped) 0

/-- What a reading does that is in an error. -/
def recover (v : Nat) (ahead : Tree) : Parsing Unit := do
  let nodes ← nodesSinceError v
  let cost := (← get).errorCost v
  let went ← if ahead.symbol = Tree.errorSymbol then pure false else goBackTo l v ahead nodes cost
  if went && (← get).readings.size > maxReadings then halt v
  else if ahead.symbol = 0 then
    push v (some (Tree.build l Tree.errorSymbol 0 [])) 1
    accept l v ahead
  else
    let way := ahead.extent
    let whole := cost + Tree.skippedTreeCost + way.bytes + way.rows * Tree.skippedRowCost
    if ← isHopeless v whole then halt v else skipToken l v ahead nodes

/-- Tries reading `v` with a token put in before the one ahead. -/
def insertMissing (v : Nat) (ahead : Tree) : Parsing Bool := do
  let state := ((← get).top v).state
  for t in [1:l.tokenCount] do
    let next := l.next state t
    if next != 0 && next != state then
      if let .reduce .. :: _ := l.actions next ahead.symbol then
        let w ← add { (← get).reading v with reaches := none }
        push w (some (Tree.missing l t)) next
        if ← reduceAll l w ahead.symbol then return true
  return false

/-- Puts reading `v`, which cannot go on with the token ahead, into the error state, together with everything it could
be reduced to. -/
def enterError (v : Nat) (ahead : Tree) : Parsing Unit := do
  let before := (← get).readings.size
  let _ ← reduceAll l v 0
  let after := (← get).readings.size
  let mut inserted := false
  for w in v :: (List.range after).drop before do
    if !inserted then inserted ← insertMissing l w ahead
    push w none 0
  for _ in [before:after] do
    let _ ← merge v before
  let p ← get
  modifyReading v ({ · with reaches := some (p.frames.summary (p.reading v).top) })
  recover l v ahead

end Parsing
end EditorAgent.Syntax

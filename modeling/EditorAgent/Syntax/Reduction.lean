import EditorAgent.Syntax.ParseState

/-!
# Reductions

The trees on top of a reading become one. Where readings share frames, there may be several ways down and so
several new readings; of the trees over one frame the best is kept.
-/

namespace EditorAgent.Syntax

variable (l : Language)

namespace Parsing

open ParseState

/-- The trees without the extras at their end, and these extras. -/
def splitExtras (trees : List Tree) : List Tree × List Tree :=
  let extras := (trees.reverse.takeWhile (·.isExtra)).reverse
  (trees.take (trees.length - extras.length), extras)

/-- The best node for the ways to one frame, with the extras after it. -/
def bestNode (symbol : Symbol) (layout : Nat) (ways : List (List Tree)) : Option (Tree × List Tree) :=
  ways.foldl (fun best way =>
    let (trees, extras) := splitExtras way
    let t := Tree.build l symbol layout trees
    match best with
    | none => some (t, extras)
    | some (b, _) => if b.isBetter t then some (t, extras) else best) none

/-- Where a reduction on reading `v` leads: the readings to go on from, the ways to each, and the states after it. -/
def arrivals (v : Nat) (symbol : Symbol) (count : Nat) (p : ParseState) : List (Reading × List (List Tree) × Nat) :=
  let r := p.reading v
  (p.frames.pop r.top count).map fun a =>
    ({ top := a.frame, nodesAtError := r.nodesAtError }, a.ways, l.next (p.frames.frame a.frame).state symbol)

/-- Goes on from a reading with a node on top of it. -/
def addNode (v : Nat) (r : Reading) (t : Tree) (extras : List Tree) (state : Nat) : Parsing Unit := do
  let w ← add r
  push w (some t) state
  pushAll w extras state
  let _ ← mergeIntoAny w ((List.range w).filter (· != v))

/-- Reduces on reading `v`; gives the first of the new readings that came of it, if there are any. -/
def reduce (v : Nat) (symbol : Symbol) (count : Nat) (weight : Int) (layout : Nat) :
    Parsing (Option Nat) := do
  let before := (← get).readings.size
  for (r, ways, next) in arrivals l v symbol count (← get) do
    if (← get).readings.size ≤ maxReadings + overflow then
      if let some (t, extras) := bestNode l symbol layout ways then
        addNode v r (t.addWeight weight) extras next
  return if (← get).readings.size > before then some before else none

/-- The whole text as one node: the children of the last node that is no extra, and all extras around it. -/
def rootOf (trees : List Tree) : Option Tree :=
  let after := (trees.reverse.takeWhile (·.isExtra)).reverse
  match (trees.take (trees.length - after.length)).reverse with
  | [] => none
  | t :: before => some (Tree.build l t.symbol t.head.layout (before.reverse ++ t.children ++ after))

/-- Ends reading `v`, which has come to the end of the text. -/
def accept (v : Nat) (ahead : Tree) : Parsing Unit := do
  push v (some ahead) 1
  let p ← get
  for trees in p.frames.popAll (p.reading v).top do
    if let some root := rootOf l trees then
      modify fun p => { p with
        finishes := p.finishes + 1
        finished := match p.finished with
          | some t => if t.isBetter root then some root else some t
          | none => some root }
  halt v

/-- The reductions possible in a state, with the given tokens ahead, and whether a token can be shifted. -/
def outlook (state : Nat) (tokens : List Symbol) : List (Symbol × Nat × Int × Nat) × Bool :=
  tokens.foldl (fun acc t => (l.actions state t).foldl (fun (found, shifts) a =>
    match a with
    | .shift _ waits => (found, shifts || !waits)
    | .recover => (found, true)
    | .reduce s n w k =>
      if n > 0 && !found.any fun (s', n', _) => s' == s && n' == n then (found ++ [(s, n, w, k)], shifts)
      else (found, shifts)
    | _ => (found, shifts)) acc) ([], false)

/-- Follows all reductions from reading `first` that `ahead` causes, or any token at all if it is 0; tells whether a
token can be shifted then. Readings that end without one are given up if there is a token ahead. -/
def reduceAll (first : Nat) (ahead : Symbol) : Parsing Bool := do
  let before := (← get).readings.size
  let tokens := if ahead = 0 then (List.range l.tokenCount).drop 1 else [ahead]
  let mut v := first
  let mut canShift := false
  for i in [0:1000] do
    let p ← get
    let count := p.readings.size
    if v ≥ count then break
    if ← mergeIntoAny v ((List.range v).drop before) then continue
    let (found, shifts) := outlook l (p.top v).state tokens
    let mut last : Option Nat := none
    for (s, n, w, k) in found do
      last ← reduce l v s n w k
    if shifts then canShift := true
    else
      match last with
      | some w =>
        if i < maxReadings then
          replace w v
          continue
        else if ahead != 0 then remove v
      | none => if ahead != 0 then remove v
    v := if v = first then count else v + 1
  return canShift

end Parsing
end EditorAgent.Syntax

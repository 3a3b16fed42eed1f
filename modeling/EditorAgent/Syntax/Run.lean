import EditorAgent.Syntax.Lookahead
import EditorAgent.Syntax.Node
import EditorAgent.Syntax.Recovery

/-!
# Parsing

All readings of the text go on side by side until a complete one is better than those still open.
-/

namespace EditorAgent.Syntax

variable (l : Language) (src : Source)

namespace Parsing

open ParseState

/-- Does the actions for the token ahead in turn, up to the first that uses it up; gives the last reading that a
reduction led to. -/
def act (v : Nat) (ahead : Tree) : List Action → Option Nat → Parsing (Option Nat × Bool)
  | [], last => pure (last, false)
  | a :: as, last => do
    match a with
    | .shift next waits =>
      if waits then act v ahead as last
      else
        push v (some (ahead.setExtra false)) next
        return (none, true)
    | .skip =>
      push v (some (ahead.setExtra true)) ((← get).top v).state
      return (none, true)
    | .reduce symbol count weight layout =>
      let w ← reduce l v symbol count weight layout
      act v ahead as (w <|> last)
    | .accept =>
      accept l v ahead
      return (none, true)
    | .recover =>
      recover l v ahead
      return (none, true)

/-- Reads one token. -/
def advance (v : Nat) : Parsing Unit := do
  let mut ahead ← lookahead l src v
  for _ in [0:((← get).frames.size + 1) * l.kinds.size] do
    let state := ((← get).top v).state
    let (last, isDone) ← act l v ahead (l.actions state ahead.symbol) none
    if isDone then return
    if let some w := last then replace w v
    else if ahead.head.isKeyword && ahead.symbol != Language.word &&
        !(l.actions state Language.word).isEmpty then
      ahead := ahead.asWord l
    else if state = 0 then
      recover l v ahead
      return
    else
      modify fun p =>
        let nodes := (p.top v).nodeCount
        { p with readings := p.readings.modify v fun r =>
          { r with status := .paused ahead, nodesAtError := nodes } }
      return

/-- Lets reading `v` go on until it has passed byte `last`, or has come to it if it is not the first. -/
def advanceTo (v : Nat) : Nat → Nat → Parsing Nat
  | 0, last => pure last
  | n + 1, last => do
    if !((← get).reading v).status.isActive then return last
    advance l src v
    let b := ((← get).top v).place.bytes
    if b > last || v > 0 && b == last then return b
    advanceTo v n last

/-- Lets every reading go on, the new ones too. -/
def advanceAll : Nat → Nat → Nat → Parsing Nat
  | 0, _, last => pure last
  | n + 1, v, last => do
    if v ≥ (← get).readings.size then return last
    let last ← advanceTo l src v (src.size + 1000) last
    advanceAll n (v + 1) last

/-- Compares reading `i` with the earlier ones from `j` on and gives up the worse ones; gives the place of reading
`i` then, less one if it was given up itself. -/
def settle : Nat → Nat → Nat → Standing → Parsing Nat
  | 0, _, i, _ => pure i
  | n + 1, j, i, mine => do
    if j ≥ i then return i + 1
    match (← standing j).compare mine with
    | .takeLeft =>
      remove i
      return i
    | .preferLeft | .either => if ← merge j i then return i else settle n (j + 1) i mine
    | .preferRight =>
      if ← merge j i then return i
      swap i j
      settle n (j + 1) i mine
    | .takeRight =>
      remove j
      settle n j (i - 1) mine

/-- Gives up the readings that are worse than others; gives the least cost of one that is not in an error. -/
def weed : Nat → Nat → Option Nat → Parsing (Option Nat)
  | 0, _, least => pure least
  | n + 1, i, least => do
    let p ← get
    if i ≥ p.readings.size then return least
    if let .halted := (p.reading i).status then
      remove i
      weed n i least
    else
      let mine ← standing i
      let least := if mine.isInError then least
        else some (match least with
          | some c => min c mine.cost
          | none => mine.cost)
      let next ← settle (i + 1) 0 i mine
      weed n next least

/-- Puts the first paused reading into the error state if no other goes on, and gives up the other paused ones. -/
def resume : Nat → Nat → Bool → Option Nat → Parsing (Option Nat)
  | 0, _, _, least => pure least
  | n + 1, i, hasOpen, least => do
    let p ← get
    match (p.reading i).status with
    | .paused ahead =>
      if !hasOpen && p.finishes < maxReadings then
        let cost := p.errorCost i
        modifyReading i ({ · with status := .active })
        enterError l i ahead
        resume n (i + 1) true (some cost)
      else
        remove i
        resume n i hasOpen least
    | _ => resume n (i + 1) true least

def condense : Parsing (Option Nat) := do
  let n := (← get).readings.size
  let least ← weed (2 * n + 2) 0 none
  modify fun p => { p with readings := p.readings.extract 0 maxReadings }
  resume l ((← get).readings.size) 0 false least

/-- Goes on until nothing is open that could be better than what is complete. -/
def toEnd : Nat → Nat → Parsing Unit
  | 0, _ => pure ()
  | n + 1, last => do
    let last ← advanceAll l src 1000 0 last
    let isOver := (← get).readings.isEmpty
    let least ← condense l
    if (← get).finished.any fun t => least.all (t.cost < ·) then return
    if !isOver then toEnd n last

end Parsing

/-- The syntax tree of a text. -/
def Language.parse (bytes : Bytes) : Option Node :=
  let src := Source.ofBytes bytes
  ((Parsing.toEnd l src (64 * (src.size + 64)) 0).run ParseState.start).2.finished.map (Node.ofRoot l)

end EditorAgent.Syntax

import EditorAgent.Syntax.Item

/-!
# The automaton of a grammar

States are sets of items with their lookaheads. Where a token can be both shifted and reduced, or reduced in
several ways, binding strength and side decide; what they leave open stays open, as several actions.
-/

namespace EditorAgent.Syntax

/-- What becomes of a finished production: the kinds and the fields of its parts. -/
abbrev Layout := List (Option String × Option String)

inductive Action where
  /-- In a list of more than one the shift waits, and the list is closed first. -/
  | shift (state : Nat) (waits : Bool)
  | skip
  | reduce (symbol : Symbol) (count : Nat) (weight : Int) (layout : Nat)
  | accept
  | recover
deriving DecidableEq, Repr, Inhabited

structure State where
  /-- States with the same items have the same core. -/
  core : Nat := 0
  /-- The tokens it has actions for, and the actions by token. -/
  tokens : TokenSet := 0
  actions : Array (List Action) := #[]
  /-- By rule; 0 for none. -/
  gotos : Array Nat := #[]
deriving Inhabited

namespace State

def shiftTarget (actions : List Action) : Option Nat :=
  match actions.getLast? with
  | some (.shift s _) => some s
  | _ => none

def retarget (f : Nat → Nat) (actions : List Action) : List Action :=
  actions.map fun
    | .shift s w => .shift (f s) w
    | a => a

def actionsFor (s : State) (token : Symbol) : List Action := s.actions.getD token []

/-- The states that follow, without the missing one. -/
def targets (s : State) : List Nat :=
  (s.actions.toList.flatMap fun as => as.filterMap fun
    | .shift t _ => some t
    | _ => none) ++ s.gotos.toList.filter (· != 0)

/-- How many symbols it can go on with. -/
def size (s : State) : Nat :=
  s.actions.foldl (fun n as => if as.isEmpty then n else n + 1)
    (s.gotos.foldl (fun n t => if t = 0 then n else n + 1) 0)

end State

/-- The reductions found for a token, and how the strongest of them bind. -/
structure Pending where
  actions : List Action := []
  strength : Option Int := none
  left : Bool := false
  right : Bool := false
  neither : Bool := false
  open_ : Bool := false
deriving Inhabited

namespace Pending

/-- Strength 0 and none at all cannot be told apart. -/
def compareStrength (a b : Option Int) : Ordering := compare (a.getD 0) (b.getD 0)

def add (e : Pending) (a : Action) (strength : Option Int) (side : Option Side) : Pending :=
  let bind (e : Pending) : Pending :=
    { e with
      strength := strength
      left := e.left || side == some .left
      right := e.right || side == some .right
      neither := e.neither || side.isNone }
  if e.actions.isEmpty then bind { e with actions := [a] }
  else match compareStrength strength e.strength with
    | .gt => bind { actions := [a] }
    | .eq => bind { e with actions := e.actions ++ [a], open_ := true }
    | .lt => e

/-- Decides between the reductions found and a shift; `strengths` are those of the items that shift. -/
def withShift (e : Pending) (target : Nat) (inList : Bool) (strengths : List (Option Int)) :
    List Action :=
  if e.actions.isEmpty then [.shift target false]
  else if inList then e.actions ++ [.shift target true]
  else
    let more := strengths.any fun s => compareStrength s e.strength == .gt
    let less := strengths.any fun s => compareStrength s e.strength == .lt
    let shift := Action.shift target false
    if more && !less then [shift]
    else if less && !more then e.actions
    else if less && more then e.actions ++ [shift]
    else if e.left && !e.neither && !e.right then e.actions
    else if e.right && !e.neither && !e.left then [shift]
    else e.actions ++ [shift]

end Pending

/-- The automaton as it grows. -/
structure Automaton where
  states : Array State := #[]
  kernels : Array (List (Nat × TokenSet)) := #[]
  ids : Std.HashMap (List (Nat × TokenSet)) Nat := {}
  cores : Std.HashMap (List Nat) Nat := {}
  layouts : Array Layout := #[[]]
  layoutIds : Std.HashMap Layout Nat := {}
deriving Inhabited

namespace Automaton

def stateFor (a : Automaton) (kernel : List (Nat × TokenSet)) : Nat × Automaton :=
  match a.ids[kernel]? with
  | some i => (i, a)
  | none =>
    let items := kernel.map (·.1)
    let core := (a.cores[items]?).getD a.cores.size
    let i := a.states.size
    (i, { a with
      states := a.states.push { core }
      kernels := a.kernels.push kernel
      ids := a.ids.insert kernel i
      cores := a.cores.insert items core })

def layoutFor (a : Automaton) (p : Production) : Nat × Automaton :=
  let l : Layout := p.parts.map fun s => (s.kind, s.field)
  if l.all fun s => s.1.isNone && s.2.isNone then (0, a)
  else match a.layoutIds[l]? with
    | some i => (i, a)
    | none =>
      let i := a.layouts.size
      (i, { a with layouts := a.layouts.push l, layoutIds := a.layoutIds.insert l i })

/-- Puts an item into a list of items, which is in order. -/
def insertItem (i : Nat) (ahead : TokenSet) : List (Nat × TokenSet) → List (Nat × TokenSet)
  | [] => [(i, ahead)]
  | (j, a) :: r =>
    if i < j then (i, ahead) :: (j, a) :: r
    else if i = j then (j, a ||| ahead) :: r
    else (j, a) :: insertItem i ahead r

variable (t : Items) (extra : Symbol) (isList : Nat → Bool)

/-- Whether all items that meet at a token belong to one list. -/
def inOneList (rules : List Nat) : Bool :=
  match rules with
  | [] => false
  | r :: rs => isList r && rs.all (· == r)

/-- Fills in what a state does and adds the states it leads to. -/
def populate (a : Automaton) (id : Nat) : Automaton := Id.run do
  let mut a := a
  let sets := t.closure (a.kernels.getD id [])
  let live := (Array.range t.items.size).filter fun i => sets.getD i 0 != 0
  let mut pending : Array Pending := Array.replicate t.tokenCount {}
  let mut next : Array (List (Nat × TokenSet)) := Array.replicate (t.tokenCount + t.ruleCount) []
  for i in live do
    let it := t.item i
    let ahead := sets.getD i 0
    match it.next with
    | some s => next := next.modify s (insertItem it.successor ahead)
    | none =>
      let (layout, b) := a.layoutFor it.production
      a := b
      let action := if it.rule = t.ruleCount then .accept
        else .reduce (t.tokenCount + it.rule) it.dot it.production.weight layout
      for b in [0:t.tokenCount] do
        if ahead.testBit b then
          pending := pending.modify b (·.add action it.production.strength it.production.side)
  let mut actions : Array (List Action) := #[]
  for b in [0:t.tokenCount] do
    let e := pending.getD b {}
    match next.getD b [] with
    | [] => actions := actions.push e.actions
    | kernel =>
      let (target, b') := a.stateFor kernel
      a := b'
      if e.actions.isEmpty then actions := actions.push [.shift target false]
      else
        let shifting := live.toList.filter fun i =>
          let it := t.item i
          it.dot > 0 && it.next.any fun s => (t.first.getD s 0).testBit b
        let reducing := live.toList.filter fun i =>
          (t.item i).next.isNone && (sets.getD i 0).testBit b
        let rules := (shifting ++ reducing).map fun i => (t.item i).rule
        actions := actions.push (e.withShift target (inOneList isList rules)
          (shifting.map fun i => (t.item i).production.strength))
  if (actions.getD extra []).isEmpty then actions := actions.modify extra fun _ => [.skip]
  let mut gotos : Array Nat := #[]
  for r in [0:t.ruleCount] do
    match next.getD (t.tokenCount + r) [] with
    | [] => gotos := gotos.push 0
    | kernel =>
      let (target, b) := a.stateFor kernel
      a := b
      gotos := gotos.push target
  let tokens := actions.foldr (fun as (m : TokenSet) => 2 * m + if as.isEmpty then 0 else 1) 0
  return { a with states := a.states.modify id fun s => { s with tokens, actions, gotos } }

/-- All states of a grammar: state 0 is that of errors and has no items, state 1 that of the start. -/
def build (limit : Nat) : Automaton := Id.run do
  let mut a := ((({} : Automaton).stateFor []).2.stateFor [(t.start, 1)]).2
  for id in [1:limit] do
    if id < a.states.size then a := populate t extra isList a id
    else break
  return a

end Automaton
end EditorAgent.Syntax

import EditorAgent.Syntax.Automaton

/-!
# Merging states

States with the same core become one state unless they disagree: on the actions for a token, or because a token of
one would be mistaken for a token of the other.
-/

namespace EditorAgent.Syntax

/-- A partition of the states. -/
structure Groups where
  members : Array (Array Nat)
  groupOf : Array Nat
deriving Inhabited

namespace Groups

def ofCores (states : Array State) : Groups := Id.run do
  let mut members : Array (Array Nat) := #[]
  for i in [0:states.size] do
    let c := (states.getD i default).core
    if c < members.size then members := members.modify c (·.push i)
    else members := members.push #[i]
  return ⟨members, states.map (·.core)⟩

/-- The members of a group that do not go with an earlier one. -/
def misfits (differ : Nat → Nat → Bool) (group : Array Nat) : Array Nat := Id.run do
  let mut out : Array Nat := #[]
  for i in [0:group.size] do
    let s := group.getD i 0
    if !out.contains s then
      for j in [i + 1:group.size] do
        let t := group.getD j 0
        if !out.contains t && differ s t then out := out.push t
  return out

/-- Splits every group once, the new groups too; tells whether there was something to split. -/
def split (differ : Array Nat → Nat → Nat → Bool) (g : Groups) : Bool × Groups := Id.run do
  let mut g := g
  let mut changed := false
  for i in [0:g.groupOf.size] do
    if i < g.members.size then
      let group := g.members.getD i #[]
      let out := misfits (differ g.groupOf) group
      if !out.isEmpty then
        changed := true
        let fresh := g.members.size
        g := { members := (g.members.modify i fun m => m.filter (!out.contains ·)).push out
               groupOf := out.foldl (fun a s => a.set! s fresh) g.groupOf }
  return (changed, g)

def splitAll (differ : Array Nat → Nat → Nat → Bool) : Nat → Groups → Groups
  | 0, g => g
  | n + 1, g => match g.split differ with
    | (false, g) => g
    | (true, g) => splitAll differ n g

end Groups

namespace Merge

/-- A state for comparing: its actions by token and the states it leads to by symbol, in order. -/
structure Profile where
  tokens : TokenSet
  actions : List (Symbol × List Action)
  targets : List (Symbol × Nat)
deriving Inhabited

def Profile.ofState (s : State) : Profile :=
  let actions := (s.actions.toList.zipIdx.map Prod.swap).filter fun (_, as) => !as.isEmpty
  let shifts := actions.filterMap fun (t, as) => (State.shiftTarget as).map fun x => (t, x)
  let gotos := (s.gotos.toList.zipIdx.map Prod.swap).filter fun (_, t) => t != 0
  ⟨s.tokens, actions, shifts ++ gotos.map fun (r, t) => (s.actions.size + r, t)⟩

variable (clash : Array TokenSet) (groupOf : Array Nat)

/-- Whether the actions agree, up to the groups of their targets. -/
def sameActions : List Action → List Action → Bool
  | [], [] => true
  | .shift s v :: as, .shift t w :: bs =>
    groupOf.getD s 0 == groupOf.getD t 0 && v == w && sameActions as bs
  | a :: as, b :: bs => a == b && sameActions as bs
  | _, _ => false

/-- Whether two states cannot be one; `clash` has, for each token, those it is mistaken for. -/
def conflict (s t : Profile) : Bool := go s.actions t.actions
where
  go : List (Symbol × List Action) → List (Symbol × List Action) → Bool
    | [], bs => bs.any fun (b, _) => clash.getD b 0 &&& s.tokens != 0
    | as, [] => as.any fun (a, _) => clash.getD a 0 &&& t.tokens != 0
    | (a, x) :: as, (b, y) :: bs =>
      if a = b then !sameActions groupOf x y || go as bs
      else if a < b then clash.getD a 0 &&& t.tokens != 0 || go as ((b, y) :: bs)
      else clash.getD b 0 &&& s.tokens != 0 || go ((a, x) :: as) bs

/-- Whether two states lead to different groups. -/
def diverge (s t : Profile) : Bool := go s.targets t.targets
where
  go : List (Symbol × Nat) → List (Symbol × Nat) → Bool
    | (a, x) :: as, (b, y) :: bs =>
      if a = b then groupOf.getD x 0 != groupOf.getD y 0 || go as bs
      else if a < b then go as ((b, y) :: bs)
      else go ((a, x) :: as) bs
    | _, _ => false

def rename (f : Nat → Nat) (s : State) : State :=
  { s with
    actions := s.actions.map (State.retarget f)
    gotos := s.gotos.map fun t => if t = 0 then 0 else f t }

/-- One state that does what both do. -/
def union (s t : State) : State where
  core := s.core
  tokens := s.tokens ||| t.tokens
  actions := s.actions.mapIdx fun i as => if as.isEmpty then t.actionsFor i else as
  gotos := s.gotos.mapIdx fun i g => if g = 0 then t.gotos.getD i 0 else g

def merged (states : Array State) : Array State :=
  let profiles := states.map Profile.ofState
  let compare (f : Array Nat → Profile → Profile → Bool) (groupOf : Array Nat) (i j : Nat) : Bool :=
    f groupOf (profiles.getD i default) (profiles.getD j default)
  let g := ((Groups.ofCores states).split (compare (conflict clash))).2
  let g := g.splitAll (compare diverge) states.size
  g.members.map fun group =>
    let whole := group.foldl (fun s i => union s (states.getD i default))
      (states.getD (group.getD 0 0) default)
    rename (fun s => g.groupOf.getD s 0) whole

/-- The hidden rule of one part that is all a state reduces to, whatever follows. -/
def passThrough? (isHidden : Symbol → Bool) (s : State) : Option Symbol :=
  let all := s.actions.toList.flatten.filter (· != .skip)
  match all with
  | .reduce r 1 0 0 :: rest => if isHidden r && rest.all (· == .reduce r 1 0 0) then some r else none
  | _ => none

/-- Goes right to where a state leads that only passes through a hidden rule. -/
def shortcut (tokenCount : Nat) (passes : Array (Option Symbol)) (s : State) : State :=
  let skip (gotos : Array Nat) (t : Nat) : Nat :=
    match passes.getD t none with
    | some r => let u := gotos.getD (r - tokenCount) 0; if u = 0 then t else u
    | none => t
  (List.range 8).foldl (fun s _ => rename (skip s.gotos) s) s

/-- The states that are reached, those with the most symbols first, after the error state and the start. -/
def ordered (states : Array State) : Array State :=
  let used := states.foldl (fun (u : Array Bool) s => s.targets.foldl (fun u t => u.set! t true) u)
    (Array.replicate states.size false)
  let later := ((List.range states.size).drop 2).filter fun i => used.getD i false
  let order := 0 :: 1 :: later.mergeSort fun i j =>
    (states.getD i default).size ≥ (states.getD j default).size
  let place := order.zipIdx.foldl (fun (p : Array Nat) (s, i) => p.set! s i)
    (Array.replicate states.size 0)
  (order.map fun i => rename (fun s => place.getD s 0) (states.getD i default)).toArray

def run (tokenCount : Nat) (isHidden : Symbol → Bool) (states : Array State) : Array State :=
  let states := merged clash states
  let passes := states.map (passThrough? isHidden)
  ordered (states.map (shortcut tokenCount passes))

end Merge
end EditorAgent.Syntax

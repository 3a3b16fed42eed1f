import EditorAgent.Store.Reducer

/-!
# The pipeline

Reducers in their order, each with where it is in its life: `init` comes once, `mount` and `unmount` follow
the condition, and `config` and `reduce` are for mounted reducers. A hook that breaks off leaves an error in
the state and nothing else, and the next one is called.
-/

namespace EditorAgent

/-- What a store did. -/
inductive Event where
  /-- A hook of the reducer at a place of the pipeline was called. -/
  | hook (place : Nat) (label : String) (stage : Stage) (ctx : String)
  /-- A listener was told of a new state. -/
  | broadcast (listener : Nat) (ctx : String) (cookie : String) (state : State)
  /-- A request was answered without a reduction. -/
  | reply (cookie error : String) (state : State)

/-- A reducer in the pipeline, and where it is in its life. -/
structure Station (ρ : Type) where
  reducer : ρ
  label : String
  initialized : Bool := false
  mounted : Bool := false

/-- A reduction under way. -/
structure Turn (ρ : Type) where
  ctx : Ctx
  services : Services ρ
  trace : List Event := []

variable {ρ α : Type}

/-- The error that a broken hook leaves. -/
def faultText (ctx label : String) (stage : Stage) (f : Fault) : String :=
  s!"{ctx} PANIC: {label}.{stage.name}: " ++ f.getD "unknown panic"

def Turn.setState (t : Turn ρ) (s : State) : Turn ρ := { t with ctx := { t.ctx with state := s } }

namespace Station

/-- Calls a hook; the result is missing if it broke off. -/
def call (place : Nat) (stage : Stage) (h : Hook ρ α) (s : Station ρ) (t : Turn ρ) :
    Option α × Station ρ × Turn ρ :=
  let trace := t.trace ++ [.hook place s.label stage t.ctx.label]
  match (h t.ctx).run.run (s.reducer, t.services) with
  | (.ok a, (reducer, services)) => (some a, { s with reducer }, { t with services, trace })
  | (.error f, (reducer, services)) =>
    let state := t.ctx.state.addError (faultText t.ctx.label s.label stage f)
    (none, { s with reducer }, { t with services, trace }.setState state)

variable [Reducer ρ]

def ensureInit (place : Nat) (s : Station ρ) (t : Turn ρ) : Station ρ × Turn ρ :=
  if s.initialized then (s, t) else (call place .init Reducer.init { s with initialized := true } t).2

/-- Mounts or unmounts a reducer as its condition says; one that breaks off changes nothing. -/
def settle (place : Nat) (s : Station ρ) (t : Turn ρ) : Station ρ × Turn ρ :=
  let (c, s, t) := call place .cond Reducer.cond s t
  match c.getD s.mounted, s.mounted with
  | true, false => (call place .mount Reducer.mount { s with mounted := true } t).2
  | false, true => (call place .unmount Reducer.unmount { s with mounted := false } t).2
  | _, _ => (s, t)

def configure (place : Nat) (s : Station ρ) (t : Turn ρ) : Station ρ × Turn ρ :=
  match call place .config Reducer.config s t with
  | (some (some c), s, t) => (s, t.setState { t.ctx.state with config := some c })
  | (_, s, t) => (s, t)

def reduce (place : Nat) (s : Station ρ) (t : Turn ρ) : Station ρ × Turn ρ :=
  match call place .reduce Reducer.reduce s t with
  | (some state, s, t) => (s, t.setState state)
  | (none, s, t) => (s, t)

/-- The part of one reducer in a reduction. -/
def step (place : Nat) (s : Station ρ) (t : Turn ρ) : Station ρ × Turn ρ :=
  let (s, t) := ensureInit place s t
  let (s, t) := settle place s t
  if s.mounted then
    let (s, t) := configure place s t
    reduce place s t
  else (s, t)

/-- The last hook of a mounted reducer. -/
def dismount (place : Nat) (s : Station ρ) (t : Turn ρ) : Station ρ × Turn ρ :=
  if s.mounted then (call place .unmount Reducer.unmount { s with mounted := false } t).2 else (s, t)

/-- Lets every reducer take its part, from a place of the pipeline on. -/
def all (f : Nat → Station ρ → Turn ρ → Station ρ × Turn ρ) (place : Nat) :
    List (Station ρ) → Turn ρ → List (Station ρ) × Turn ρ
  | [], t => ([], t)
  | s :: rest, t =>
    let (s, t) := f place s t
    let (rest, t) := all f (place + 1) rest t
    (s :: rest, t)

end Station
end EditorAgent

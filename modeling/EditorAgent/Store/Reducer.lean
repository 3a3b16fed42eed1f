import EditorAgent.Go.Session
import EditorAgent.Store.Action

/-!
# Reducers

A reducer turns an action and a state into a state, and has hooks around that. A hook may change the
reducer's own memory and use the services of the store, and it may break off.
-/

namespace EditorAgent

/-- What a hook is given. -/
structure Ctx where
  disk : Disk
  state : State
  action : Action
  /-- The cookie of the request that brought the action. -/
  cookie : String

def Ctx.label (c : Ctx) : String := s!"{c.action.name}#{c.cookie}"

/-- What a hook may use and change besides its reducer. -/
structure Services (ρ : Type) where
  session : Go.Session
  /-- Whether work for this reduction is called off. -/
  cancelled : Bool := false
  /-- Actions to be queued. -/
  dispatched : List Action := []
  /-- Reducers to be appended to the pipeline. -/
  added : List ρ := []

/-- What a hook says when it breaks off, if it says anything. -/
abbrev Fault := Option String

abbrev Hook (ρ α : Type) := Ctx → ExceptT Fault (StateM (ρ × Services ρ)) α

/-- The hooks, in the order in which they are called. -/
inductive Stage where
  | init
  | cond
  | mount
  | unmount
  | config
  | reduce
deriving DecidableEq, Repr, Inhabited

def Stage.name : Stage → String
  | .init => "init"
  | .cond => "cond"
  | .mount => "mount"
  | .unmount => "unmount"
  | .config => "config"
  | .reduce => "reduce"

/-- Values that are reducers with their memory. -/
class Reducer (ρ : Type) where
  label : ρ → String
  init : Hook ρ Unit := fun _ => pure ()
  /-- Whether the reducer is to be mounted for this action. -/
  cond : Hook ρ Bool := fun _ => pure true
  mount : Hook ρ Unit := fun _ => pure ()
  unmount : Hook ρ Unit := fun _ => pure ()
  /-- The configuration to install before `reduce`. -/
  config : Hook ρ (Option EditorConfig) := fun _ => pure none
  reduce : Hook ρ State

namespace Hook

variable {ρ β α : Type}

/-- Changes the services alone. -/
def service (f : Services ρ → α × Services ρ) : ExceptT Fault (StateM (ρ × Services ρ)) α :=
  modifyGet fun (r, s) =>
    let (a, s) := f s
    (a, (r, s))

/-- Works on the session. -/
def onSession (act : StateM Go.Session α) : ExceptT Fault (StateM (ρ × Services ρ)) α :=
  service fun s =>
    let (a, session) := act s.session
    (a, { s with session })

/-- A hook of a reducer inside another kind of reducer. -/
def embed (into : β → ρ) (b : β) (h : Hook β α) : Hook ρ α := fun c => ExceptT.mk do
  let (_, s) ← get
  let (a, (b, t)) := (h c).run.run (b, { s with added := [] })
  set (into b, { t with added := s.added ++ t.added.map into })
  return a

/-- Calls one of two hooks, by the side that the reducer is on. -/
def either (f : Hook β α) (g : Hook ρ α) : Hook (β ⊕ ρ) α := fun c => do
  match (← get).1 with
  | .inl b => embed .inl b f c
  | .inr r => embed .inr r g c

end Hook

instance {β ρ : Type} [Reducer β] [Reducer ρ] : Reducer (β ⊕ ρ) where
  label := Sum.elim Reducer.label Reducer.label
  init := Hook.either Reducer.init Reducer.init
  cond := Hook.either Reducer.cond Reducer.cond
  mount := Hook.either Reducer.mount Reducer.mount
  unmount := Hook.either Reducer.unmount Reducer.unmount
  config := Hook.either Reducer.config Reducer.config
  reduce := Hook.either Reducer.reduce Reducer.reduce

instance : Reducer Empty where
  label := Empty.elim
  reduce := fun c => pure c.state

end EditorAgent

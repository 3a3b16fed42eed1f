import EditorAgent.Store.Pipeline
import EditorAgent.Store.Props

/-!
# Stores

A store owns the state and the pipeline. Jobs wait in a queue and are done one at a time, in the order in
which they came; what a reduction dispatches goes to the end. The job that unmounts the reducers is the
last.
-/

namespace EditorAgent

inductive Job where
  | reduce (action : Action) (cookie : String) (props : Props)
  /-- Answers a request that reached no reducer, with the state at that time. -/
  | reply (cookie error : String)
  /-- Unmounts the reducers and stops. -/
  | unmount

structure Store (ρ : Type) where
  state : State := {}
  stations : List (Station ρ) := []
  /-- Reducers that join the pipeline with the next reduction. -/
  incoming : List (Station ρ) := []
  listeners : List Nat := []
  nextListener : Nat := 1
  queue : List Job := []
  started : Bool := false
  stopped : Bool := false
  cancelled : Bool := false
  session : Go.Session
  /-- What was done so far. -/
  trace : List Event := []

namespace Store

variable {ρ : Type}

def make (state : State) (expiry : Expiry) (profile : Profile) : Store ρ :=
  { state, session := { tree := Vfs.make expiry, profile } }

def start (s : Store ρ) : Except StoreError (Store ρ) :=
  if s.started then .error (.other "store already started") else .ok { s with started := true }

/-- Queues a job; a store that has stopped drops it. -/
def send (s : Store ρ) (j : Job) : Store ρ := if s.stopped then s else { s with queue := s.queue ++ [j] }

def dispatch (s : Store ρ) (action : Action) : Store ρ := s.send (.reduce action "" {})

/-- Adds a listener, and gives the number by which it unsubscribes. -/
def subscribe (s : Store ρ) : Nat × Store ρ :=
  (s.nextListener,
    { s with listeners := s.listeners ++ [s.nextListener], nextListener := s.nextListener + 1 })

def unsubscribe (s : Store ρ) (listener : Nat) : Store ρ :=
  { s with listeners := s.listeners.filter (· != listener) }

/-- Calls off the work of the store. -/
def cancel (s : Store ρ) : Store ρ := { s with cancelled := true }

variable [Reducer ρ]

def use (s : Store ρ) (r : ρ) : Store ρ :=
  { s with incoming := s.incoming ++ [{ reducer := r, label := Reducer.label r }] }

/-- Puts a turn's effects into the store: what it dispatched is queued, what it added is to join. -/
def settle (s : Store ρ) (t : Turn ρ) : Store ρ :=
  let s := { s with session := t.services.session, trace := s.trace ++ t.trace }
  let s := t.services.dispatched.foldl dispatch s
  t.services.added.foldl use s

/-- Tells the listeners of a new state. -/
def broadcast (s : Store ρ) (c : Ctx) : Store ρ :=
  { s with trace := s.trace ++ s.listeners.map fun l => .broadcast l c.label c.cookie c.state }

/-- Reduces an action. -/
def reduce (d : Disk) (s : Store ρ) (action : Action) (cookie : String) (props : Props) : Store ρ :=
  let session := { s.session with profile := s.session.profile.push action.name }
  let stations := s.stations ++ s.incoming
  let turn : Turn ρ :=
    { ctx := ⟨d, props.apply s.state.resetEphemeral, action, cookie⟩
      services := { session, cancelled := s.cancelled } }
  let (stations, turn) := Station.all Station.step 0 stations turn
  let s := settle { s with stations, incoming := [] } turn
  let s := broadcast { s with state := turn.ctx.state } turn.ctx
  { s with session := { s.session with profile := (s.session.profile.pop 0).1 } }

/-- Unmounts what is mounted. -/
def unmountAll (d : Disk) (s : Store ρ) : Store ρ :=
  let turn : Turn ρ :=
    { ctx := ⟨d, s.state, .unmount, ""⟩, services := { session := s.session, cancelled := s.cancelled } }
  let (stations, turn) := Station.all Station.dismount 0 s.stations turn
  settle { s with stations } turn

/-- Does a job. -/
def perform (d : Disk) (s : Store ρ) : Job → Store ρ
  | .reduce action cookie props => s.reduce d action cookie props
  | .reply cookie error => { s with trace := s.trace ++ [.reply cookie error s.state] }
  | .unmount => { s.unmountAll d with stopped := true, queue := [] }

/-- Does the next job, if the store is running and has one. -/
def next? (d : Disk) (s : Store ρ) : Option (Store ρ) :=
  if s.started && !s.stopped then
    match s.queue with
    | [] => none
    | j :: queue => some (perform d { s with queue } j)
  else none

/-- Does at most so many jobs. -/
def run (d : Disk) : Nat → Store ρ → Store ρ
  | 0, s => s
  | n + 1, s => match s.next? d with
    | some s => run d n s
    | none => s

end Store
end EditorAgent

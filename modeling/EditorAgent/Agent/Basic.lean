import EditorAgent.Agent.Builtin
import EditorAgent.Agent.Settings
import EditorAgent.Store.Basic

/-!
# Agents

An agent reads requests, dispatches their actions to a store and writes every new state. A request that
cannot be dispatched is answered in its turn. Input ends with its last message, with a shutdown, or with a
message that cannot be read.
-/

namespace EditorAgent

structure AgentConfig where
  /-- Empty for the name in the settings. -/
  name : String := ""
  /-- Empty for the codec in the settings. -/
  codec : String := ""
  /-- The environment that the agent starts with. -/
  env : Env := .empty
  settings : Settings := {}

/-- An agent with reducers of its own kind beside the built-in ones. -/
structure Agent (ρ : Type) where
  name : String
  codec : Codec
  store : Store (Builtin ⊕ ρ)
  registry : Registry := .builtins

/-- What came of a run. -/
structure AgentRun (ρ : Type) where
  store : Store (Builtin ⊕ ρ)
  result : Except AgentError Unit

namespace Agent

variable {ρ : Type}

/-- The action of a request and what was sent along, or why the request is not dispatched. -/
def accept (registry : Registry) (r : Request) : Except String (Action × Props) :=
  match registry.create r.action r.data with
  | .error e => .error e.message
  | .ok action => match r.props with
    | none => .ok (action, {})
    | some p => match p.decode Props.reader with
      | .ok props => .ok (action, props)
      | .error e => .error s!"cannot decode props: {e.message}"

/-- The jobs of an input, and how it ended; no more than `fuel` messages are read. -/
def jobs (c : Codec) (registry : Registry) : Nat → Input → List Job × Except AgentError Unit
  | 0, _ => ([], .ok ())
  | fuel + 1, i => match Request.next c i with
    | .error e => ([], .error (.codec e))
    | .ok none => ([], .ok ())
    | .ok (some (r, i)) => match accept registry r with
      | .error e =>
        let (js, result) := jobs c registry fuel i
        (.reply r.cookie e :: js, result)
      | .ok (action, props) =>
        if action = .shutdown then ([.reduce action r.cookie props], .ok ())
        else
          let (js, result) := jobs c registry fuel i
          (.reduce action r.cookie props :: js, result)

/-- The answers in what a store did. -/
def responses (trace : List Event) : List Response :=
  trace.filterMap fun
    | .broadcast _ _ cookie state => some ⟨cookie, state.joinedErrors, state.toValue⟩
    | .reply cookie error state => some ⟨cookie, error, state.toValue⟩
    | .hook _ _ _ _ => none

variable [Reducer ρ]

def make (c : AgentConfig) : Except AgentError (Agent ρ) :=
  match c.settings.fault? with
  | some reason => .error (.settings reason)
  | none => match Codec.ofName (if c.codec = "" then c.settings.codec else c.codec) with
    | .error e => .error (.codec e)
    | .ok codec =>
      let name := if c.name = "" then c.settings.name else c.name
      let store := Store.make { env := c.env } .never (Profile.make name c.settings.profiling)
      let store := { store with session.expiryFits := c.settings.expiryFits }
      let store := store.use (.inl (.envDefaults c.env))
      .ok { name, codec, store := store.use (.inl (.ready name)) }

def use (a : Agent ρ) (r : Builtin ⊕ ρ) : Agent ρ := { a with store := a.store.use r }

/-- Serves an input. What reducers dispatch is done as well if it is queued before the input has been
worked off. -/
def run (d : Disk) (a : Agent ρ) (i : Input) : AgentRun ρ :=
  let (js, result) := jobs a.codec a.registry (i.bytes.length + 1) i
  let store := { (a.store.subscribe).2 with started := true }
  let store := js.foldl Store.send (store.dispatch .started)
  let store := (store.run d store.queue.length).send .unmount
  ⟨(store.run d store.queue.length).cancel, result⟩

/-- The bytes that an agent writes. -/
def output (c : Codec) (r : AgentRun ρ) : Bytes := (responses r.store.trace).flatMap (Response.write c)

/-- The timings that are printed at the end. -/
def profileText (r : AgentRun ρ) : String :=
  let p := r.store.session.profile
  if p.enabled then p.render "" else ""

end Agent
end EditorAgent

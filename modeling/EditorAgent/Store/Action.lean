import EditorAgent.Wire.Request

/-!
# Actions and their registry

An action is a signal, a command, or a count. The registry says under which names editors may send which
kind, and what an action is worth when it is sent without data.
-/

namespace EditorAgent

structure RunCmd where
  name : String := ""
  args : List String := []
  input : Bool := false
deriving DecidableEq, Repr, Inhabited

namespace RunCmd

def toValue (c : RunCmd) : Value :=
  .table [("Name", .text c.name), ("Args", .texts c.args), ("Input", .bool c.input)]

def reader (d : Dialect) : Reader RunCmd :=
  d.record [
    .opt "Name" d.text fun x c => { c with name := x },
    .opt "Args" (d.list d.text) fun x c => { c with args := x },
    .opt "Input" d.bool fun x c => { c with input := x }] {}

instance : Message RunCmd := ⟨reader, toValue⟩

end RunCmd

/-- What is dispatched to a store. -/
inductive Action where
  /-- An action that carries nothing but its name. -/
  | signal (name : String)
  | runCmd (cmd : RunCmd)
  | step (n : Int)
deriving DecidableEq, Repr, Inhabited

namespace Action

def name : Action → String
  | .signal name => name
  | .runCmd _ => "RunCmd"
  | .step _ => "Step"

def started : Action := .signal "Started"
def unmount : Action := .signal "Unmount"
def shutdown : Action := .signal "Shutdown"
def restart : Action := .signal "Restart"

/-- Reads an action of the same kind. -/
def readLike (a : Action) (d : Dialect) : Reader Action :=
  match a with
  | .signal name => d.unit.map fun _ => .signal name
  | .runCmd _ => (RunCmd.reader d).map .runCmd
  | .step _ => d.integer.map .step

end Action

inductive StoreError where
  | alreadyRegistered (name : String)
  | unknownAction (name : String)
  | decode (action : String) (source : CodecError)
  | closed
  | other (reason : String)
deriving DecidableEq, Repr

def StoreError.message : StoreError → String
  | .alreadyRegistered name => s!"ActionCreator {name} is already registered"
  | .unknownAction name => s!"no such action: {name}"
  | .decode action source => s!"cannot decode {action}: {source.message}"
  | .closed => "store dispatcher is not running"
  | .other reason => reason

/-- Names and the actions they stand for when no data is sent. -/
structure Registry where
  entries : List (String × Action)
deriving Repr, Inhabited

namespace Registry

def empty : Registry := ⟨[]⟩

def find? (r : Registry) (name : String) : Option Action :=
  (r.entries.find? (·.1 == name)).map (·.2)

def register (r : Registry) (name : String) (zero : Action) : Except StoreError Registry :=
  if (r.find? name).isSome then .error (.alreadyRegistered name)
  else .ok ⟨r.entries ++ [(name, zero)]⟩

/-- Signals an editor may send. -/
def editorSignals : List String :=
  ["QueryCompletions", "QueryIssues", "QueryUserCmds", "Restart", "Shutdown", "ViewActivated",
    "ViewFmt", "ViewLoaded", "ViewModified", "ViewPosChanged", "ViewPreSave", "ViewSaved"]

def builtins : Registry :=
  ⟨editorSignals.map (fun n => (n, .signal n)) ++ [("RunCmd", .runCmd {})]⟩

/-- The action of a request: the registered one if no data was sent, else its data decoded. -/
def create (r : Registry) (name : String) (data : Payload) : Except StoreError Action :=
  match r.find? name with
  | none => .error (.unknownAction name)
  | some zero =>
    if data.isEmpty then .ok zero
    else match data.decode zero.readLike with
      | .ok a => .ok a
      | .error e => .error (.decode name e)

def names (r : Registry) : List String := (sortedOfEntries r.entries).map (·.1)

end Registry
end EditorAgent

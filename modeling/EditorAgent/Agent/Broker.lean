import EditorAgent.Agent.Settings
import EditorAgent.Go.Build
import EditorAgent.Store.Duration
import EditorAgent.Text.Quoted
import EditorAgent.Wire.Line

/-!
# The method broker

A broker answers method calls, a line each, between a greeting and a farewell. A line that cannot be read
as a call is answered without a token, and a call of an unknown method with an error; blank lines and calls
without a method are not answered.
-/

namespace EditorAgent

/-- What comes of a call. -/
inductive Outcome where
  | data (v : Value)
  | failure (reason : String)
  /-- The method broke off. -/
  | broken

abbrev Method := Value → Outcome

/-- Methods under their names. -/
structure Methods where
  entries : List (String × Method) := []

namespace Methods

def find? (m : Methods) (name : String) : Option Method := (m.entries.find? (·.1 == name)).map (·.2)

def names (m : Methods) : List String := (sortedOfEntries m.entries).map (·.1)

def register (m : Methods) (name : String) (f : Method) : Except AgentError Methods :=
  if name = "" then .error (.other "method name must not be empty")
  else if (m.find? name).isSome then .error (.other s!"method {name} is already registered")
  else .ok ⟨m.entries ++ [(name, f)]⟩

/-- How an unexpected argument is described. -/
def describe : Value → String
  | .null | .unit => "null"
  | .bool b => s!"boolean `{b}`"
  | .int i => s!"integer `{i}`"
  | .float bits => "floating point `" ++ Json.compact (.float bits) ++ "`"
  | .text s => "string " ++ Text.quote s
  | .bytes _ => "byte array"
  | .list _ => "sequence"
  | .table _ => "map"

def mismatch {α : Type} (v : Value) (expected : String) : Except String α :=
  .error ("invalid type: " ++ describe v ++ ", expected " ++ expected)

def nameList : Value → Except String (List String)
  | .list xs => xs.mapM fun
    | .text s => .ok s
    | v => mismatch v "a string"
  | v => mismatch v "a sequence"

/-- The names of the variables that a call of `env` asks for: the entry `List` of its argument, or the only
element if the argument is a list. -/
def envNames : Value → Except String (List String)
  | .null => .ok []
  | .table entries => match Value.get? (.table entries) "List" with
    | some v => nameList v
    | none => .ok []
  | .list [] => .ok []
  | .list [v] => nameList v
  | .list (v :: _ :: rest) => match nameList v with
    | .ok _ => .error s!"invalid length {rest.length + 2}, expected fewer elements in array"
    | .error e => .error e
  | v => mismatch v "struct EnvArgs"

/-- A variable as `env` shows it: the platform defaults to the host, all else to nothing. -/
def shownVar (env : Env) (k : String) : String :=
  match (env.get? k).filter (· != "") with
  | some v => v
  | none => if k = "GOOS" then Go.hostOs else if k = "GOARCH" then Go.hostArch else ""

def envMethod (env : Env) : Method := fun arg =>
  match envNames arg with
  | .error e => .failure e
  | .ok names => .data (.ofEntries (names.map fun k => (k, .text (shownVar env k))))

def builtins (env : Env) : Methods := ⟨[("hello", .data), ("env", envMethod env)]⟩

end Methods

/-- The lines of an input, each with its end; a line that breaks off is lost. -/
def Input.lines (i : Input) : List Bytes × Option String :=
  go [] i.bytes
where
  go (line : Bytes) : Bytes → List Bytes × Option String
    | [] => (if line.isEmpty || i.failure.isSome then [] else [line.reverse], i.failure)
    | b :: rest =>
      if b = 0x0A then
        let (ls, failure) := go [] rest
        ((b :: line).reverse :: ls, failure)
      else go (b :: line) rest

structure Broker where
  /-- Marks every answer. -/
  tag : String
  methods : Methods
  /-- How many calls are served at a time. -/
  workers : Nat := 1

/-- What a broker wrote for its lines, and how many calls it made. -/
structure Service where
  answers : List Line.Answer := []
  served : Nat := 0

namespace Broker

def maxWorkers : Nat := 0x1FFFFFFFFFFFFFFF

/-- Why a broker does not go on after its greeting, if it has more workers than there can be. -/
def refusal? (b : Broker) : Option String :=
  if b.workers ≤ maxWorkers then none
  else some s!"a semaphore may not have more than MAX_PERMITS permits ({maxWorkers})"

def answer (b : Broker) (token : String) : Line.Answer := { token, tag := b.tag }

def complaint (b : Broker) (token error : String) : Line.Answer := { b.answer token with error }

def call (b : Broker) (h : Line.Header) (f : Method) (arg : Value) : Line.Answer :=
  match f arg with
  | .data v => (b.answer h.token).withData v
  | .failure reason => b.complaint h.token reason
  | .broken => b.complaint h.token s!"broker: {h.method}#{h.token} PANIC"

/-- Serves lines up to the one that says goodbye, or one that is not text. -/
def serveLines (b : Broker) (failure : Option String) : List Bytes → Service
  | [] => { answers := (failure.map (b.complaint "")).toList }
  | line :: rest => match Utf8.decode? line with
    | none => { answers := [b.complaint "" "stream did not contain valid UTF-8"] }
    | some text =>
      if Text.trim text = "" then serveLines b failure rest
      else match Line.parse line with
        | .error e =>
          let s := serveLines b failure rest
          { s with answers := b.complaint "" e.message :: s.answers }
        | .ok (h, arg) =>
          if h.method = "" then serveLines b failure rest
          else if h.method = Line.byeMethod then {}
          else
            let s := serveLines b failure rest
            match b.methods.find? h.method with
            | none => { s with answers := b.complaint h.token s!"Invalid method {h.method}" :: s.answers }
            | some f => ⟨b.call h f arg :: s.answers, s.served + 1⟩

/-- Serves an input. The greeting gives the time, in seconds, and the farewell how long the broker ran, in
nanoseconds. -/
def serve (b : Broker) (time uptime : Nat) (i : Input) : Service :=
  let (lines, failure) := i.lines
  let s := b.serveLines failure lines
  let hello := (b.answer Line.helloToken).withData (.table [("time", .nat time)])
  if b.refusal?.isSome then { answers := [hello] } else
  let bye := (b.answer Line.byeToken).withData
    (.table [("served", .nat s.served), ("uptime", .text (Duration.render uptime))])
  { s with answers := hello :: s.answers ++ [bye] }

end Broker
end EditorAgent

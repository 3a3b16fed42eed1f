import EditorAgent.Codec.Basic
import EditorAgent.Disk.Basic
import EditorAgent.Store.Action
import EditorAgent.Toml.Document

/-!
# Settings

The settings of an agent, from a file or with their defaults. Keys that are not known are ignored.
-/

namespace EditorAgent

structure Settings where
  codec : String := "json"
  /-- The name in logs and profiles. -/
  name : String := "loupe"
  /-- How long a stat stays valid; zero is for ever. -/
  vfsExpirySecs : Nat := 17
  /-- How many dependencies are imported at a time; zero is the default of the process. -/
  importConcurrency : Nat := 0
  profiling : Bool := false
  /-- How many calls the broker serves at a time. -/
  legacyWorkers : Nat := 20
deriving DecidableEq, Repr, Inhabited

inductive AgentError where
  | codec (cause : CodecError)
  | store (cause : StoreError)
  | io (reason : String)
  | settings (reason : String)
  | other (reason : String)
deriving DecidableEq, Repr

def AgentError.message : AgentError → String
  | .codec cause => s!"codec error: {cause.message}"
  | .store cause => s!"store error: {cause.message}"
  | .io reason => s!"IO error: {reason}"
  | .settings reason => s!"invalid settings: {reason}"
  | .other reason => reason

namespace Settings

def vfsExpiry? (s : Settings) : Option Nat := if s.vfsExpirySecs = 0 then none else some s.vfsExpirySecs

/-- Whether the clock reaches the time at which a stat expires. -/
def expiryFits (s : Settings) : Bool := s.vfsExpirySecs < 0x7FFFFFFFFFFFFFFF

/-- What is wrong with settings, if anything. -/
def fault? (s : Settings) : Option String :=
  match Codec.ofName s.codec with
  | .error e => some e.message
  | .ok _ =>
    if Text.trim s.name = "" then some "name must not be empty"
    else if s.legacyWorkers = 0 then some "legacy_workers must be > 0"
    else none

def toValue (s : Settings) : Value :=
  .table [("codec", .text s.codec), ("name", .text s.name), ("vfs_expiry_secs", .nat s.vfsExpirySecs),
    ("import_concurrency", .nat s.importConcurrency), ("profiling", .bool s.profiling),
    ("legacy_workers", .nat s.legacyWorkers)]

def reader (d : Dialect) : Reader Settings :=
  d.record [
    .opt "codec" d.text fun x s => { s with codec := x },
    .opt "name" d.text fun x s => { s with name := x },
    .opt "vfs_expiry_secs" d.natural fun x s => { s with vfsExpirySecs := x },
    .opt "import_concurrency" d.natural fun x s => { s with importConcurrency := x },
    .opt "profiling" d.bool fun x s => { s with profiling := x },
    .opt "legacy_workers" d.natural fun x s => { s with legacyWorkers := x }] {}

def text? : Toml.Item → Option String
  | .scalar (.text s) => some s
  | _ => none

def natural? : Toml.Item → Option Nat
  | .scalar (.int i) => if 0 ≤ i then some i.toNat else none
  | _ => none

def bool? : Toml.Item → Option Bool
  | .scalar (.bool b) => some b
  | _ => none

/-- Sets a field; `none` if the value is of another type. -/
def set? (s : Settings) (k : String) (i : Toml.Item) : Option Settings :=
  match k with
  | "codec" => (text? i).map fun x => { s with codec := x }
  | "name" => (text? i).map fun x => { s with name := x }
  | "vfs_expiry_secs" => (natural? i).map fun x => { s with vfsExpirySecs := x }
  | "import_concurrency" => (natural? i).map fun x => { s with importConcurrency := x }
  | "profiling" => (bool? i).map fun x => { s with profiling := x }
  | "legacy_workers" => (natural? i).map fun x => { s with legacyWorkers := x }
  | _ => some s

/-- Settings from the text of a file. -/
def parse (text : String) : Except AgentError Settings :=
  match (Toml.parse text).bind fun t => t.foldlM (fun s e => set? s e.1 e.2) {} with
  | none => .error (.settings "TOML parse error")
  | some s => match s.fault? with
    | some reason => .error (.settings reason)
    | none => .ok s

/-- Settings from a file. -/
def load (d : Disk) (path : String) : Except AgentError Settings :=
  match d.read path with
  | .error e => .error (.io e.message)
  | .ok data => match Utf8.decode? data with
    | none => .error (.io "stream did not contain valid UTF-8")
    | some text => parse text

instance : Message Settings := ⟨reader, toValue⟩

end Settings
end EditorAgent

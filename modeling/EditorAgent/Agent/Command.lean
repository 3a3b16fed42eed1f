import EditorAgent.Agent.Basic
import EditorAgent.Agent.Broker

/-!
# The command

Options, what the command writes, and the code with which it ends: zero, one after an error that it
reports, two for a command line that it does not understand, 101 if it breaks off.
-/

namespace EditorAgent

structure Options where
  codec : Option String := none
  name : Option String := none
  /-- A file with settings. -/
  config : Option String := none
  /-- Serve method calls. -/
  legacy : Bool := false
  profile : Bool := false
  verbose : Bool := false
deriving DecidableEq, Repr, Inhabited

/-- What a command line asks for. -/
inductive Invocation where
  | serve (o : Options)
  | help
  | version
  | misuse
deriving DecidableEq, Repr

namespace Options

/-- Options that are followed by a value. -/
inductive Valued where
  | codec
  | name
  | config
deriving DecidableEq, Repr

def valued? (name : String) : Option Valued :=
  match name with
  | "codec" => some .codec
  | "name" => some .name
  | "config" => some .config
  | _ => none

/-- Gives an option its value, once; a file has a name. -/
def setValue? (o : Options) (k : Valued) (v : String) : Option Options :=
  match k with
  | .codec => if o.codec.isSome then none else some { o with codec := some v }
  | .name => if o.name.isSome then none else some { o with name := some v }
  | .config => if o.config.isSome || v = "" then none else some { o with config := some v }

/-- What a switch does: it changes the options, or decides what is asked for. -/
inductive Switch where
  | set (o : Options)
  | stop (i : Invocation)

/-- Sets a switch, once. -/
def switch (o : Options) (name : String) : Switch :=
  match name with
  | "legacy" => if o.legacy then .stop .misuse else .set { o with legacy := true }
  | "profile" => if o.profile then .stop .misuse else .set { o with profile := true }
  | "verbose" => if o.verbose then .stop .misuse else .set { o with verbose := true }
  | "help" => .stop .help
  | "version" => .stop .version
  | _ => .stop .misuse

/-- The long name of a letter. -/
def longName : Char → String
  | 'v' => "verbose"
  | 'h' => "help"
  | 'V' => "version"
  | _ => ""

/-- Sets the switches of a group of letters. -/
def letters (o : Options) : List Char → Switch
  | [] => .set o
  | c :: cs => match switch o (longName c) with
    | .set o => letters o cs
    | stop => stop

/-- Whether a word is not a value: it starts with a dash and is not only that. -/
def looksLikeOption (word : List Char) : Bool := word.head? = some '-' && word.length ≠ 1

/-- A word that stands for itself: a group of letters, or a long name, perhaps with a value. -/
def single (o : Options) (word : List Char) : Switch :=
  match word with
  | '-' :: '-' :: cs =>
    match Text.cut? (String.ofList cs) "=" with
    | some (name, v) => match valued? name with
      | some k => match setValue? o k v with
        | some o => .set o
        | none => .stop .misuse
      | none => .stop .misuse
    | none => switch o (String.ofList cs)
  | '-' :: c :: cs => letters o (c :: cs)
  | _ => .stop .misuse

/-- The option that a word names and whose value is the next word. -/
def awaits? (word : String) : Option Valued := (Text.after? word "--").bind valued?

def parseFrom (o : Options) : List String → Invocation
  | [] => .serve o
  | word :: rest =>
    if word = "--" then if rest.isEmpty then .serve o else .misuse
    else match awaits? word, rest with
      | some _, [] => .misuse
      | some k, v :: rest =>
        if looksLikeOption v.toList then .misuse
        else match setValue? o k v with
          | some o => parseFrom o rest
          | none => .misuse
      | none, rest => match single o word.toList with
        | .set o => parseFrom o rest
        | .stop i => i

/-- Reads a command line. -/
def parse (args : List String) : Invocation := parseFrom {} args

end Options

/-- Why an error arose, outermost cause first. -/
def CodecError.causes : CodecError → List String
  | .input reason => [reason]
  | .malformed _ reason => [reason]
  | .unknownCodec _ | .other _ => []

def AgentError.causes : AgentError → List String
  | .codec cause => cause.message :: cause.causes
  | .store cause => [cause.message]
  | .io reason => [reason]
  | .settings _ | .other _ => []

namespace Command

def program : String := "loupe"

def version : String := "0.1.1"

def helpText : String :=
  Text.join "\n" [
    "Language assistance agent for text editors",
    "",
    "Usage: loupe [OPTIONS]",
    "",
    "Options:",
    "      --codec <CODEC>    Wire codec: json, cbor or msgpack",
    "      --name <NAME>      Agent name used in logs and the profile",
    "      --config <CONFIG>  TOML settings file",
    "      --legacy           Serve the line-oriented method-call protocol instead",
    "      --profile          Print reduction timings to stderr on exit",
    "  -v, --verbose          Enable verbose logging",
    "  -h, --help             Print help",
    "  -V, --version          Print version",
    ""]

def usageText : String :=
  "error: unexpected argument\n\nUsage: loupe [OPTIONS]\n\nFor more information, try '--help'.\n"

/-- A cause, with its further lines set in as deep as its first. -/
def indent (first more cause : String) : String :=
  first ++ Text.join ("\n" ++ more) (Text.split (· == '\n') cause)

/-- An error with its causes, which are numbered if there are several. -/
def report (message : String) (causes : List String) : String :=
  let listed := match causes with
    | [] => []
    | [c] => [indent "    " "    " c]
    | cs => cs.mapIdx fun i c =>
      let number := toString i
      indent ("".pushn ' ' (5 - number.length) ++ number ++ ": ") "       " c
  let tail := if listed.isEmpty then "" else "\n\nCaused by:\n" ++ Text.join "\n" listed
  "Error: " ++ message ++ tail ++ "\n"

/-- What a run of the command left behind. -/
structure Result where
  code : Nat := 0
  stdout : Bytes := []
  stderr : String := ""
deriving DecidableEq, Repr

def fail (message : String) (causes : List String) : Result := { code := 1, stderr := report message causes }

/-- When the command is run, in seconds, and for how many nanoseconds. -/
structure Clock where
  time : Nat := 0
  uptime : Nat := 0
deriving DecidableEq, Repr, Inhabited

def serveCalls (o : Options) (s : Settings) (env : Env) (clock : Clock) (i : Input) : Result :=
  let b : Broker := ⟨o.name.getD s.name, .builtins env, s.legacyWorkers⟩
  { code := if b.refusal?.isSome then 101 else 0
    stderr := b.refusal?.getD ""
    stdout := (b.serve clock.time clock.uptime i).answers.flatMap fun a => Utf8.encode a.line }

def serveRequests (d : Disk) (o : Options) (settings : Settings) (env : Env) (i : Input) : Result :=
  let made : Except AgentError (Agent Empty) :=
    Agent.make ⟨o.name.getD "", o.codec.getD "", env, settings⟩
  match made with
  | .error e => fail e.message e.causes
  | .ok a =>
    let a := a.use (.inl (.typeCheck { workers := settings.importConcurrency }))
    let r := a.run d i
    let stdout := Agent.output a.codec r
    match r.result with
    | .ok () => { stdout, stderr := Agent.profileText r }
    | .error e => { code := 1, stdout, stderr := Agent.profileText r ++ report e.message e.causes }

def serve (d : Disk) (o : Options) (env : Env) (clock : Clock) (i : Input) : Result :=
  match o.config.elim (.ok {}) (Settings.load d) with
  | .error e => fail ("loading settings from " ++ o.config.getD "") (e.message :: e.causes)
  | .ok settings =>
    let settings := { settings with profiling := settings.profiling || o.profile }
    if o.legacy then serveCalls o settings env clock i else serveRequests d o settings env i

/-- Runs the command. -/
def run (d : Disk) (args : List String) (env : Env) (clock : Clock) (i : Input) : Result :=
  match Options.parse args with
  | .serve o => serve d o env clock i
  | .help => { stdout := Utf8.encode helpText }
  | .version => { stdout := Utf8.encode s!"{program} {version}\n" }
  | .misuse => { code := 2, stderr := usageText }

end Command
end EditorAgent

import EditorAgent.Codec.Json
import EditorAgent.Codec.Cbor
import EditorAgent.Codec.MessagePack
import EditorAgent.Text.Blank

/-!
# Codecs

A codec writes values and reads typed ones, alone or one after another from an input. A message that
ends early is an error; an input that ends between two messages is not.
-/

namespace EditorAgent

inductive Codec where
  | json
  | cbor
  | msgpack
deriving DecidableEq, Repr, Inhabited

inductive CodecError where
  /-- The input failed between two messages. -/
  | input (reason : String)
  | unknownCodec (name : String)
  /-- A message that is malformed or of another type. -/
  | malformed (codec : Codec) (reason : String)
  | other (reason : String)
deriving DecidableEq, Repr

/-- Bytes that arrive, and the reason why no more can be read if they do not simply end. -/
structure Input where
  bytes : Bytes
  failure : Option String
deriving DecidableEq, Repr

namespace Codec

def name : Codec → String
  | .json => "json"
  | .cbor => "cbor"
  | .msgpack => "msgpack"

def all : List Codec := [.json, .cbor, .msgpack]

/-- The codec of a name; the empty name is JSON. -/
def ofName (s : String) : Except CodecError Codec :=
  let s := Text.trim s
  if s = "" then .ok .json
  else match all.find? (·.name == s) with
    | some c => .ok c
    | none => .error (.unknownCodec s)

end Codec

def CodecError.message : CodecError → String
  | .input reason => s!"IO error: {reason}"
  | .unknownCodec name => s!"Invalid codec `{name}`; expected one of json, cbor, msgpack"
  | .malformed .json reason => s!"JSON error: {reason}"
  | .malformed .cbor reason => s!"CBOR error: {reason}"
  | .malformed .msgpack reason => s!"MessagePack error: {reason}"
  | .other reason => reason

namespace Codec

def dialect : Codec → Dialect
  | .json => Json.dialect
  | .cbor => Cbor.dialect
  | .msgpack => MessagePack.dialect

def maxDepth : Codec → Nat
  | .json => Json.maxDepth
  | .cbor => Cbor.maxDepth
  | .msgpack => MessagePack.maxDepth

/-- A message on its own. -/
def write (c : Codec) (v : Value) : Bytes :=
  match c with
  | .json => Utf8.encode (Json.compact v)
  | .cbor => Cbor.write v
  | .msgpack => MessagePack.write v

/-- A message in an output; JSON is laid out over lines and ended by one. -/
def writeFrame (c : Codec) (v : Value) : Bytes :=
  match c with
  | .json => Utf8.encode (Json.pretty v) ++ [0x0A]
  | c => c.write v

def reject {α : Type} (c : Codec) : Except CodecError α := .error (.malformed c "malformed message")

variable {α : Type}

/-- Reads a message on its own. Only JSON minds what follows it. -/
def read (c : Codec) (r : Dialect → Reader α) (s : Bytes) : Except CodecError α :=
  match r c.dialect c.maxDepth s with
  | none => c.reject
  | some (a, rest) =>
    match c with
    | .json => if (Json.skipSpace rest).isEmpty then .ok a else c.reject
    | _ => .ok a

/-- Blanks between JSON messages; a form feed counts here. -/
def isGap (b : UInt8) : Bool := Json.isSpace b || b = 0x0C

/-- The end of a number is only seen from the byte after it, which is then gone. -/
def afterMessage (s rest : Bytes) : Bytes :=
  match Json.skipSpace s with
  | b :: _ => if b = 0x2D || Json.isDigit b then rest.drop 1 else rest
  | [] => rest

/-- Reads the next message of an input; `none` at its end. -/
def next (c : Codec) (r : Dialect → Reader α) (i : Input) : Except CodecError (Option (α × Input)) :=
  let s := match c with
    | .json => i.bytes.dropWhile isGap
    | _ => i.bytes
  if s.isEmpty then
    match i.failure with
    | some reason => .error (.input reason)
    | none => .ok none
  else match r c.dialect c.maxDepth s with
    | none => c.reject
    | some (a, rest) =>
      let rest := match c with
        | .json => afterMessage s rest
        | _ => rest
      .ok (some (a, ⟨rest, i.failure⟩))

/-- A codec is sent as its name. -/
instance : Message Codec :=
  ⟨fun d => (d.choice (all.map name)).map fun i => all.getD i .json, fun c => .text c.name⟩

end Codec
end EditorAgent

import EditorAgent.Codec.Basic

/-!
# Method-call lines

The older protocol is a line per message. A request line holds a header, `Method` and `Token`, and right
after it the payload; an answer is one object.
-/

namespace EditorAgent.Line

structure Header where
  method : String := ""
  token : String := ""
deriving DecidableEq, Repr, Inhabited

structure Answer where
  token : String := ""
  error : String := ""
  tag : String := ""
  data : Value := .table []
deriving Repr, Inhabited

def helloToken : String := "margo.hello"
def byeToken : String := "margo.bye-ni"
def byeMethod : String := "bye-ni"

def Header.toValue (h : Header) : Value :=
  .table [("Method", .text h.method), ("Token", .text h.token)]

def Header.reader (d : Dialect) : Reader Header :=
  d.record [
    .opt "Method" d.text fun x h => { h with method := x },
    .opt "Token" d.text fun x h => { h with token := x }] {}

def Answer.reader (d : Dialect) : Reader Answer :=
  d.record [
    .req "token" d.text fun x a => { a with token := x },
    .opt "error" d.text fun x a => { a with error := x },
    .opt "tag" d.text fun x a => { a with tag := x },
    .opt "data" d.value fun x a => { a with data := x }] {}

def Answer.toValue (a : Answer) : Value :=
  .table [("token", .text a.token), ("error", .text a.error), ("tag", .text a.tag), ("data", a.data)]

instance : Message Header := ⟨Header.reader, Header.toValue⟩
instance : Message Answer := ⟨Answer.reader, Answer.toValue⟩

/-- No data is an empty object. -/
def Answer.withData (a : Answer) (data : Value) : Answer :=
  { a with data := if data.isNull then .table [] else data }

def Answer.line (a : Answer) : String := Json.compact a.toValue ++ "\n"

/-- Whether a value that does not close itself ends before this byte. -/
def endsValue (b : UInt8) : Bool :=
  Json.isSpace b || [0x22, 0x5B, 0x5D, 0x7B, 0x7D, 0x2C, 0x3A].contains b

/-- The next of several values written one after another; `none` at the end. -/
def nextValue (s : Bytes) : Except CodecError (Option (Value × Bytes)) :=
  match Json.skipSpace s with
  | [] => .ok none
  | b :: r =>
    match Json.value Json.maxDepth (b :: r) with
    | none => Codec.json.reject
    | some (v, rest) =>
      let closed := b = 0x5B || b = 0x22 || b = 0x7B
      match rest with
      | c :: _ => if closed || endsValue c then .ok (some (v, rest)) else Codec.json.reject
      | [] => .ok (some (v, rest))

/-- The header and the payload of a request line; a missing payload is `null`. -/
def parse (line : Bytes) : Except CodecError (Header × Value) :=
  match nextValue line with
  | .error e => .error e
  | .ok none => .error (.other "empty request line")
  | .ok (some (v, rest)) =>
    match Codec.json.read Header.reader (Codec.json.write v) with
    | .error e => .error e
    | .ok h => match nextValue rest with
      | .error e => .error e
      | .ok none => .ok (h, .null)
      | .ok (some (payload, _)) => .ok (h, payload)

end EditorAgent.Line

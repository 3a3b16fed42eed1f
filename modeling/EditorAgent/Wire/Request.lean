import EditorAgent.Codec.Basic

/-!
# Requests and responses

A request names an action and carries its data, and perhaps properties of the editor, still encoded:
whoever knows the type decodes them. A response carries the state back.
-/

namespace EditorAgent

/-- An encoded value and its codec. No bytes means that nothing was sent. -/
structure Payload where
  codec : Codec
  bytes : Bytes
deriving DecidableEq, Repr, Inhabited

namespace Payload

def isEmpty (p : Payload) : Bool := p.bytes.isEmpty

def decode {α : Type} (p : Payload) (r : Dialect → Reader α) : Except CodecError α :=
  p.codec.read r p.bytes

end Payload

structure Request where
  cookie : String
  action : String
  data : Payload
  props : Option Payload
deriving DecidableEq, Repr, Inhabited

namespace Request

/-- The fields of a request as they arrive. -/
structure Frame where
  cookie : String := ""
  action : String := ""
  data : Option Bytes := none
  props : Option Bytes := none

/-- The action inside a request. -/
structure Call where
  name : String := ""
  data : Option Bytes := none

def callReader (d : Dialect) : Reader Call :=
  d.record [
    .opt "Name" d.text fun x c => { c with name := x },
    .opt "Data" (d.optional d.native) fun x c => { c with data := x }] {}

def frameReader (d : Dialect) : Reader Frame :=
  d.record [
    .opt "Cookie" d.text fun x f => { f with cookie := x },
    .opt "Action" (callReader d) fun x f => { f with action := x.name, data := x.data },
    .opt "Props" (d.optional d.native) fun x f => { f with props := x }] {}

def ofFrame (c : Codec) (f : Frame) : Request :=
  ⟨f.cookie, f.action, ⟨c, f.data.getD []⟩, f.props.map fun b => ⟨c, b⟩⟩

/-- The next request of an input, `none` at its end. -/
def next (c : Codec) (i : Input) : Except CodecError (Option (Request × Input)) :=
  match c.next frameReader i with
  | .ok (some (f, i)) => .ok (some (ofFrame c f, i))
  | .ok none => .ok none
  | .error e => .error e

/-- A request as a client writes it; what is absent is left out. -/
def clientValue (cookie name : String) (data props : Option Value) : Value :=
  let entry (k : String) (v : Option Value) : List (String × Value) :=
    match v with
    | some v => [(k, v)]
    | none => []
  .table ([("Cookie", .text cookie), ("Action", .table (("Name", .text name) :: entry "Data" data))]
    ++ entry "Props" props)

end Request

/-- A response as it is written after every reduction. -/
structure Response where
  cookie : String
  error : String
  state : Value

namespace Response

def toValue (r : Response) : Value :=
  .table [("Cookie", .text r.cookie), ("Error", .text r.error), ("State", r.state)]

def write (c : Codec) (r : Response) : Bytes := c.writeFrame r.toValue

end Response
end EditorAgent

import EditorAgent.Value.Basic

/-!
# Typed readers

A reader takes a typed value off the front of a message. A dialect is what one message format offers
to typed readers; a record is read from its fields, each with a name and a way to enter the record.
-/

namespace EditorAgent

/-- Reads a value off the front of the input, given how many containers may still be opened.
`none` is a malformed message or one of another type. -/
abbrev Reader (α : Type) := Nat → Bytes → Option (α × Bytes)

namespace Reader

variable {α β : Type}

def map (f : α → β) (r : Reader α) : Reader β := fun depth s =>
  match r depth s with
  | some (a, rest) => some (f a, rest)
  | none => none

end Reader

/-- A field of a record: its name, whether it may be absent, and how its value enters the record. -/
structure Field (σ : Type) where
  name : String
  required : Bool
  read : Reader (σ → σ)

namespace Field

variable {σ α : Type}

/-- A field that keeps the record's own value when absent. -/
def opt (name : String) (r : Reader α) (set : α → σ → σ) : Field σ :=
  ⟨name, false, r.map set⟩

def req (name : String) (r : Reader α) (set : α → σ → σ) : Field σ :=
  ⟨name, true, r.map set⟩

end Field

/-- A record being read: its value so far and the names seen. -/
structure Draft (σ : Type) where
  value : σ
  seen : List String

namespace Draft

variable {σ : Type}

/-- Reads the value of a field. A field may occur once. -/
def enter (p : Draft σ) (f : Field σ) : Reader (Draft σ) := fun depth s =>
  if p.seen.contains f.name then none
  else match f.read depth s with
    | some (set, rest) => some (⟨set p.value, f.name :: p.seen⟩, rest)
    | none => none

/-- The record, if no required field is missing. -/
def finish (p : Draft σ) (fields : List (Field σ)) : Option σ :=
  if fields.all fun f => !f.required || p.seen.contains f.name then some p.value else none

end Draft

/-- What a message format offers to typed readers. -/
structure Dialect where
  text : Reader String
  bool : Reader Bool
  /-- An integer of 64 bits without sign. -/
  natural : Reader Nat
  /-- An integer of 64 bits with sign. -/
  integer : Reader Int
  /-- Source text: a byte string, or what stands for one. -/
  source : Reader Bytes
  /-- The only value of a type that carries nothing. -/
  unit : Reader Unit
  /-- One of the listed names, as its position. -/
  choice : List String → Reader Nat
  /-- Any value that has a JSON form. -/
  value : Reader Value
  /-- Any value of the format, written again in its plainest form. -/
  native : Reader Bytes
  optional : {α : Type} → Reader α → Reader (Option α)
  list : {α : Type} → Reader α → Reader (List α)
  /-- A mapping from texts, in the order of the message. -/
  table : {α : Type} → Reader α → Reader (List (String × α))
  record : {σ : Type} → List (Field σ) → σ → Reader σ

/-- Types whose values are sent in messages. -/
class Message (α : Type) where
  reader : Dialect → Reader α
  toValue : α → Value

instance : Message Value := ⟨fun d => d.value, id⟩

/-- The type that carries nothing. -/
instance : Message Unit := ⟨fun d => d.unit, fun _ => .unit⟩

end EditorAgent

/-!
# Memos

A memo keeps values under keys, in the order in which the keys came. Computing a missing value takes two
steps, `start` and `finish`, and the memo may change in between: the value is kept only if the entry that
was started is still there. A pinned value outlives `clear` and is told of it.
-/

namespace EditorAgent

/-- Where a value is kept. -/
structure Slot (ν : Type) where
  /-- Tells this slot from every other slot of the memo, earlier ones included. -/
  serial : Nat
  value : Option ν := none
  pinned : Bool := false
  /-- A computation of the value is under way. -/
  busy : Bool := false
  /-- A computation of the value has failed. -/
  broken : Bool := false
deriving DecidableEq, Repr

structure Memo (κ ν : Type) where
  entries : List (κ × Slot ν) := []
  /-- The serial number of the next slot. -/
  next : Nat := 0
deriving Repr

/-- What a reader finds. -/
inductive Lookup (ν : Type) where
  | found (v : ν)
  /-- The value has to be computed for the slot of this serial number. -/
  | missing (serial : Nat)

namespace Memo

variable {κ ν : Type}

def empty : Memo κ ν := {}

instance : Inhabited (Memo κ ν) := ⟨empty⟩

def size (m : Memo κ ν) : Nat := m.entries.length

def values (m : Memo κ ν) : List ν := m.entries.filterMap (·.2.value)

/-- Keys with their values; keys without a value are left out. -/
def pairs (m : Memo κ ν) : List (κ × ν) := m.entries.filterMap fun e => e.2.value.map (e.1, ·)

/-- The slots with a serial number changed by `f`. -/
def modify (m : Memo κ ν) (serial : Nat) (f : Slot ν → Slot ν) : Memo κ ν :=
  { m with entries := m.entries.map fun e => if e.2.serial = serial then (e.1, f e.2) else e }

/-- Keeps a computed value, if its slot is still there. -/
def finish (m : Memo κ ν) (serial : Nat) (v : ν) (pinned : Bool) : Memo κ ν :=
  m.modify serial fun s => { s with value := some v, pinned, busy := false }

/-- Gives a computation up. -/
def fail (m : Memo κ ν) (serial : Nat) : Memo κ ν :=
  m.modify serial fun s => { s with busy := false, broken := true }

/-- Whether an entry outlives `clear`. -/
def outlives (s : Slot ν) : Bool := s.pinned && !s.busy && !s.broken

/-- Drops all but the pinned entries, and lists the values that are to be told. -/
def clear (m : Memo κ ν) : Memo κ ν × List ν :=
  let m := { m with entries := m.entries.filter fun e => outlives e.2 }
  (m, m.values)

variable [DecidableEq κ]

def slot? (m : Memo κ ν) (k : κ) : Option (Slot ν) := (m.entries.find? (·.1 = k)).map (·.2)

/-- The slot of a key, made if it is missing. -/
def slot (m : Memo κ ν) (k : κ) : Memo κ ν × Slot ν :=
  match m.slot? k with
  | some s => (m, s)
  | none =>
    let s : Slot ν := { serial := m.next }
    ({ entries := m.entries ++ [(k, s)], next := m.next + 1 }, s)

/-- The value of a key, if it is one that `wanted` accepts. -/
def peek? (m : Memo κ ν) (k : κ) (wanted : ν → Bool) : Option ν :=
  ((m.slot? k).bind (·.value)).filter wanted

/-- Looks a key up before computing its value; a value that is not wanted is as good as none. -/
def start (m : Memo κ ν) (k : κ) (wanted : ν → Bool) : Memo κ ν × Lookup ν :=
  let (m, s) := m.slot k
  match s.value.filter wanted with
  | some v => (m, .found v)
  | none => (m.modify s.serial fun s => { s with busy := true }, .missing s.serial)

/-- Stores a value that `clear` drops. -/
def put (m : Memo κ ν) (k : κ) (v : ν) : Memo κ ν :=
  let (m, s) := m.slot k
  m.modify s.serial fun s => { s with value := some v, pinned := false }

def erase (m : Memo κ ν) (k : κ) : Memo κ ν :=
  { m with entries := m.entries.filter fun e => !decide (e.1 = k) }

/-- The value of a key, computed by `init` and kept if it is missing. -/
def read (m : Memo κ ν) (k : κ) (wanted : ν → Bool) (pinned : Bool) (init : Unit → ν) : Memo κ ν × ν :=
  match m.start k wanted with
  | (m, .found v) => (m, v)
  | (m, .missing serial) =>
    let v := init ()
    (m.finish serial v pinned, v)

end Memo
end EditorAgent

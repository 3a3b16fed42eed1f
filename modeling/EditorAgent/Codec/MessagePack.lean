import EditorAgent.Codec.Reader
import EditorAgent.Text.Base64
import EditorAgent.Number.Binary

/-!
# MessagePack

Every object opens with a marker. Names of fields and choices may also be given by position. `Item` is
any object, for messages that are passed on without being understood.
-/

namespace EditorAgent.MessagePack

open Binary

def maxDepth : Nat := 1024

/-! ## Markers -/

inductive Marker where
  | int (i : Int)
  | null
  | bool (b : Bool)
  | single (bits : Nat)
  | double (bits : Nat)
  | text (len : Nat)
  | bytes (len : Nat)
  | array (len : Nat)
  | map (len : Nat)
  | extension (len : Nat)
deriving DecidableEq, Repr

def bigEndian (s : Bytes) : Nat := s.foldl (fun n b => n * 256 + b.toNat) 0

def takeBytes (n : Nat) (s : Bytes) : Option (Bytes × Bytes) :=
  if n ≤ s.length then some (s.take n, s.drop n) else none

/-- A number in the next `n` bytes. -/
def numeral (n : Nat) (s : Bytes) : Option (Nat × Bytes) :=
  (takeBytes n s).map fun x => (bigEndian x.1, x.2)

/-- Two's complement of `n` bytes. -/
def signed (n : Nat) (x : Nat) : Int :=
  if x < Nat.pow 2 (8 * n - 1) then x else (x : Int) - Nat.pow 2 (8 * n)

def marker (s : Bytes) : Option (Marker × Bytes) :=
  match s with
  | [] => none
  | b :: r =>
    let sized (n : Nat) (f : Nat → Marker) : Option (Marker × Bytes) :=
      (numeral n r).map fun x => (f x.1, x.2)
    let n := b.toNat
    if n < 0x80 then some (.int n, r)
    else if n < 0x90 then some (.map (n - 0x80), r)
    else if n < 0xA0 then some (.array (n - 0x90), r)
    else if n < 0xC0 then some (.text (n - 0xA0), r)
    else if 0xE0 ≤ n then some (.int ((n : Int) - 256), r)
    else match n with
      | 0xC0 => some (.null, r)
      | 0xC2 => some (.bool false, r)
      | 0xC3 => some (.bool true, r)
      | 0xC4 => sized 1 .bytes
      | 0xC5 => sized 2 .bytes
      | 0xC6 => sized 4 .bytes
      | 0xC7 => sized 1 .extension
      | 0xC8 => sized 2 .extension
      | 0xC9 => sized 4 .extension
      | 0xCA => sized 4 .single
      | 0xCB => sized 8 .double
      | 0xCC => sized 1 fun x => .int x
      | 0xCD => sized 2 fun x => .int x
      | 0xCE => sized 4 fun x => .int x
      | 0xCF => sized 8 fun x => .int x
      | 0xD0 => sized 1 fun x => .int (signed 1 x)
      | 0xD1 => sized 2 fun x => .int (signed 2 x)
      | 0xD2 => sized 4 fun x => .int (signed 4 x)
      | 0xD3 => sized 8 fun x => .int (signed 8 x)
      | 0xD4 => some (.extension 1, r)
      | 0xD5 => some (.extension 2, r)
      | 0xD6 => some (.extension 4, r)
      | 0xD7 => some (.extension 8, r)
      | 0xD8 => some (.extension 16, r)
      | 0xD9 => sized 1 .text
      | 0xDA => sized 2 .text
      | 0xDB => sized 4 .text
      | 0xDC => sized 2 .array
      | 0xDD => sized 4 .array
      | 0xDE => sized 2 .map
      | 0xDF => sized 4 .map
      | _ => none

/-! ## Containers -/

/-- Folds `item` over `len` items. -/
def items {σ : Type} (item : σ → Bytes → Option (σ × Bytes)) : Nat → σ → Bytes → Option (σ × Bytes)
  | 0, acc, s => some (acc, s)
  | n + 1, acc, s =>
    match item acc s with
    | some (acc, s) => items item n acc s
    | none => none

def listOf {α : Type} (read : Bytes → Option (α × Bytes)) (len : Nat) (s : Bytes) :
    Option (List α × Bytes) :=
  let item (acc : List α) (r : Bytes) := (read r).map fun x => (x.1 :: acc, x.2)
  (items item len [] s).map fun x => (x.1.reverse, x.2)

/-! ## Items -/

inductive Item where
  | int (i : Int)
  | null
  | bool (b : Bool)
  | single (bits : Nat)
  | double (bits : Nat)
  | text (s : String)
  | bytes (b : Bytes)
  | list (xs : List Item)
  | map (entries : List (Item × Item))
  | extension (kind : UInt8) (data : Bytes)
deriving Repr, Inhabited

/-- Any object. A container or an extension needs a depth of two or more, its contents one less. Text that is
not well-formed is taken for bytes. -/
def item : Nat → Bytes → Option (Item × Bytes)
  | 0, _ => none
  | depth + 1, s =>
    match marker s with
    | some (.int i, r) => some (.int i, r)
    | some (.null, r) => some (.null, r)
    | some (.bool b, r) => some (.bool b, r)
    | some (.single b, r) => some (.single b, r)
    | some (.double b, r) => some (.double b, r)
    | some (.text n, r) => (takeBytes n r).map fun x =>
      (match Utf8.decode? x.1 with
        | some t => .text t
        | none => .bytes x.1, x.2)
    | some (.bytes n, r) => (takeBytes n r).map fun x => (.bytes x.1, x.2)
    | some (.array n, r) =>
      if depth = 0 then none
      else (listOf (item depth) n r).map fun x => (.list x.1, x.2)
    | some (.map n, r) =>
      if depth = 0 then none
      else
        let entry (r : Bytes) : Option ((Item × Item) × Bytes) :=
          match item depth r with
          | some (k, r) => (item depth r).map fun x => ((k, x.1), x.2)
          | none => none
        (listOf entry n r).map fun x => (.map x.1, x.2)
    | some (.extension n, k :: r) =>
      if depth = 0 then none
      else (takeBytes n r).map fun x => (.extension k x.1, x.2)
    | _ => none

/-! ## Writing -/

def fixedBytes (count n : Nat) : Bytes :=
  (List.range count).map fun i => UInt8.ofNat (n / Nat.pow 256 (count - 1 - i))

/-- The fewest bytes for an integer. -/
def intBytes (i : Int) : Bytes :=
  if 0 ≤ i then
    let n := i.toNat
    if n < 0x80 then [UInt8.ofNat n]
    else if n < 256 then 0xCC :: fixedBytes 1 n
    else if n < 65536 then 0xCD :: fixedBytes 2 n
    else if n < 0x100000000 then 0xCE :: fixedBytes 4 n
    else 0xCF :: fixedBytes 8 n
  else if -32 ≤ i then [UInt8.ofNat (i + 256).toNat]
  else if -128 ≤ i then 0xD0 :: fixedBytes 1 (i + 256).toNat
  else if -32768 ≤ i then 0xD1 :: fixedBytes 2 (i + 65536).toNat
  else if -0x80000000 ≤ i then 0xD2 :: fixedBytes 4 (i + 0x100000000).toNat
  else 0xD3 :: fixedBytes 8 (i + 0x10000000000000000).toNat

def textBytes (s : String) : Bytes :=
  let b := Utf8.encode s
  let n := b.length
  (if n < 32 then [UInt8.ofNat (0xA0 + n)]
    else if n < 256 then 0xD9 :: fixedBytes 1 n
    else if n < 65536 then 0xDA :: fixedBytes 2 n
    else 0xDB :: fixedBytes 4 n) ++ b

def binaryBytes (b : Bytes) : Bytes :=
  let n := b.length
  (if n < 256 then 0xC4 :: fixedBytes 1 n
    else if n < 65536 then 0xC5 :: fixedBytes 2 n
    else 0xC6 :: fixedBytes 4 n) ++ b

def arrayHead (n : Nat) : Bytes :=
  if n < 16 then [UInt8.ofNat (0x90 + n)]
  else if n < 65536 then 0xDC :: fixedBytes 2 n
  else 0xDD :: fixedBytes 4 n

def mapHead (n : Nat) : Bytes :=
  if n < 16 then [UInt8.ofNat (0x80 + n)]
  else if n < 65536 then 0xDE :: fixedBytes 2 n
  else 0xDF :: fixedBytes 4 n

def extensionBytes (kind : UInt8) (data : Bytes) : Bytes :=
  let n := data.length
  (match n with
    | 1 => [0xD4]
    | 2 => [0xD5]
    | 4 => [0xD6]
    | 8 => [0xD7]
    | 16 => [0xD8]
    | _ =>
      if n < 256 then 0xC7 :: fixedBytes 1 n
      else if n < 65536 then 0xC8 :: fixedBytes 2 n
      else 0xC9 :: fixedBytes 4 n) ++ kind :: data

mutual

def Item.write : Item → Bytes
  | .int i => intBytes i
  | .null => [0xC0]
  | .bool b => [if b then 0xC3 else 0xC2]
  | .single b => 0xCA :: fixedBytes 4 b
  | .double b => 0xCB :: fixedBytes 8 b
  | .text s => textBytes s
  | .bytes b => binaryBytes b
  | .list xs => arrayHead xs.length ++ writeItems xs
  | .map es => mapHead es.length ++ writePairs es
  | .extension k d => extensionBytes k d

def writeItems : List Item → Bytes
  | [] => []
  | x :: xs => x.write ++ writeItems xs

def writePairs : List (Item × Item) → Bytes
  | [] => []
  | (k, v) :: es => k.write ++ v.write ++ writePairs es

end

mutual

/-- A type that carries nothing is written as an empty array. -/
def write : Value → Bytes
  | .null => [0xC0]
  | .unit => [0x90]
  | .bool b => [if b then 0xC3 else 0xC2]
  | .int i => intBytes i
  | .float bits => 0xCB :: fixedBytes 8 bits.toNat
  | .text s => textBytes s
  | .bytes b => binaryBytes b
  | .list xs => arrayHead xs.length ++ writeList xs
  | .table es => mapHead es.length ++ writeEntries es

def writeList : List Value → Bytes
  | [] => []
  | x :: xs => write x ++ writeList xs

def writeEntries : List (String × Value) → Bytes
  | [] => []
  | (k, v) :: es => textBytes k ++ write v ++ writeEntries es

end

/-! ## Dialect -/

def floatValue (bits : Nat) : Value :=
  match Binary.double.magnitude bits with
  | .finite _ _ => .float (UInt64.ofNat bits)
  | _ => .null

def wellFormedText (s : Bytes) : Option (String × Bytes) :=
  match marker s with
  | some (.text n, r) => match takeBytes n r with
    | some (b, r) => (Utf8.decode? b).map (·, r)
    | none => none
  | _ => none

/-- Well-formed text, also if it is marked as bytes. -/
def textReader : Reader String := fun _ s =>
  let decoded (n : Nat) (r : Bytes) : Option (String × Bytes) :=
    match takeBytes n r with
    | some (b, r) => (Utf8.decode? b).map (·, r)
    | none => none
  match marker s with
  | some (.text n, r) => decoded n r
  | some (.bytes n, r) => decoded n r
  | _ => none

/-- A value with a JSON form. Byte strings and extensions have none; a byte string may be a key, but not the
first. -/
def value : Reader Value
  | 0, _ => none
  | depth + 1, s =>
    match marker s with
    | some (.int i, r) => some (.int i, r)
    | some (.null, r) => some (.null, r)
    | some (.bool b, r) => some (.bool b, r)
    | some (.single b, r) => some (floatValue (convert Binary.single Binary.double b), r)
    | some (.double b, r) => some (floatValue b, r)
    | some (.text _, _) => (wellFormedText s).map fun x => (.text x.1, x.2)
    | some (.array n, r) =>
      if depth = 0 then none
      else (listOf (value depth) n r).map fun x => (.list x.1, x.2)
    | some (.map n, r) =>
      if depth = 0 then none
      else
        let entry (acc : List (String × Value)) (r : Bytes) : Option (List (String × Value) × Bytes) :=
          match if acc.isEmpty then wellFormedText r else textReader depth r with
          | some (k, r) => (value depth r).map fun x => ((k, x.1) :: acc, x.2)
          | none => none
        (items entry n [] r).map fun x => (.ofEntries x.1.reverse, x.2)
    | _ => none

def boolReader : Reader Bool := fun _ s =>
  match marker s with
  | some (.bool b, r) => some (b, r)
  | _ => none

def integerIn (ok : Int → Bool) : Reader Int := fun _ s =>
  match marker s with
  | some (.int i, r) => if ok i then some (i, r) else none
  | _ => none

def unitReader : Reader Unit := fun _ s =>
  match marker s with
  | some (.null, r) => some ((), r)
  | _ => if s.head? = some 0x90 then some ((), s.drop 1) else none

def optionalReader {α : Type} (read : Reader α) : Reader (Option α) := fun depth s =>
  match marker s with
  | some (.null, r) => some (none, r)
  | _ => (read depth s).map fun x => (some x.1, x.2)

/-- An array, or bytes as small numbers. -/
def listReader {α : Type} (read : Reader α) : Reader (List α) := fun depth s =>
  match marker s with
  | some (.array n, r) => if depth ≤ 1 then none else listOf (read (depth - 1)) n r
  | some (.bytes n, r) => match takeBytes n r with
    | some (b, r) => (b.mapM fun x => (read depth (intBytes x.toNat)).map (·.1)).map (·, r)
    | none => none
  | _ => none

def tableReader {α : Type} (read : Reader α) : Reader (List (String × α)) := fun depth s =>
  match marker s with
  | some (.map n, r) =>
    if depth ≤ 1 then none
    else
      let entry (r : Bytes) : Option ((String × α) × Bytes) :=
        match textReader (depth - 1) r with
        | some (k, r) => (read (depth - 1) r).map fun x => ((k, x.1), x.2)
        | none => none
      listOf entry n r
  | _ => none

/-- Bytes; text in base64, or as its bytes if it is not well-formed; nothing; or small numbers. -/
def sourceReader : Reader Bytes := fun depth s =>
  match marker s with
  | some (.null, r) => some ([], r)
  | some (.bytes n, r) => takeBytes n r
  | some (.text n, r) => match takeBytes n r with
    | some (b, r) => match Utf8.decode? b with
      | some t => (Base64.decode? Base64.standard t).map (·, r)
      | none => some (b, r)
    | none => none
  | _ => (listReader (integerIn fun i => 0 ≤ i && i < 256) depth s).map fun x =>
    (x.1.map fun i => UInt8.ofNat i.toNat, x.2)

/-- How a field or a choice is named. -/
inductive Name where
  | bytes (b : Bytes)
  | position (n : Nat)

def name (s : Bytes) : Option (Name × Bytes) :=
  match marker s with
  | some (.text n, r) => (takeBytes n r).map fun x => (.bytes x.1, x.2)
  | some (.bytes n, r) => (takeBytes n r).map fun x => (.bytes x.1, x.2)
  | some (.int i, r) => if 0 ≤ i then some (.position i.toNat, r) else none
  | _ => none

def Name.find (n : Name) (names : List String) : Option Nat :=
  match n with
  | .bytes b => names.findIdx? fun x => Utf8.encode x == b
  | .position i => if i < names.length then some i else none

/-- A choice by name, alone or as the only entry of a container, followed by nothing. -/
def choiceReader (names : List String) : Reader Nat := fun _ s =>
  let found (s : Bytes) : Option (Nat × Bytes) :=
    match name s with
    | some (n, r) => (n.find names).map (·, r)
    | none => none
  let sole (s : Bytes) : Option (Nat × Bytes) :=
    match found s with
    | some (i, 0xC0 :: r) => some (i, r)
    | _ => none
  match marker s with
  | some (.array 1, r) => sole r
  | some (.map 1, r) => sole r
  | some (.array _, _) => none
  | some (.map _, _) => none
  | _ => found s

/-- Reads the fields in order from `n` items. -/
def positional {σ : Type} (depth : Nat) : List (Field σ) → Nat → Draft σ → Bytes →
    Option (Draft σ × Bytes)
  | _, 0, d, s => some (d, s)
  | [], _ + 1, _, _ => none
  | f :: fs, n + 1, d, s =>
    match d.enter f depth s with
    | some (d, s) => positional depth fs n d s
    | none => none

/-- A record from a map, from its fields in order, or from bytes that are the first fields as small numbers. -/
def recordReader {σ : Type} (fields : List (Field σ)) (zero : σ) : Reader σ := fun depth s =>
  let entry (d : Draft σ) (r : Bytes) : Option (Draft σ × Bytes) :=
    match name r with
    | some (n, r) => match (n.find (fields.map Field.name)).bind (fields[·]?) with
      | some f => d.enter f (depth - 1) r
      | none => (item (depth - 1) r).map fun x => (d, x.2)
    | none => none
  let draft : Option (Draft σ × Bytes) := match marker s with
    | some (.array n, r) => if depth ≤ 1 then none else positional (depth - 1) fields n ⟨zero, []⟩ r
    | some (.map n, r) => if depth ≤ 1 then none else items entry n ⟨zero, []⟩ r
    | some (.bytes n, r) => match takeBytes n r with
      | some (b, r) =>
        let numbers := (b.take fields.length).map fun x => intBytes x.toNat
        (positional depth fields numbers.length ⟨zero, []⟩ numbers.flatten).map fun x => (x.1, r)
      | none => none
    | _ => none
  match draft with
  | some (d, r) => (d.finish fields).map (·, r)
  | none => none

def dialect : Dialect where
  text := textReader
  bool := boolReader
  natural := (integerIn fun i => 0 ≤ i && i < 0x10000000000000000).map Int.toNat
  integer := integerIn fun i => -0x8000000000000000 ≤ i && i < 0x8000000000000000
  source := sourceReader
  unit := unitReader
  choice := choiceReader
  value := value
  native := fun depth s => (item depth s).map fun x => (x.1.write, x.2)
  optional := optionalReader
  list := listReader
  table := tableReader
  record := recordReader

end EditorAgent.MessagePack

import EditorAgent.Codec.Reader
import EditorAgent.Number.Binary

/-!
# CBOR

Every item opens with a header. Typed readers pass over tags; a text or byte string may come in
pieces, except where the reader works in a buffer of `bufferSize` bytes. `Item` is any CBOR item, for
messages that are passed on without being understood.
-/

namespace EditorAgent.Cbor

open Binary

/-- The size of the buffer that short strings are read into. -/
def bufferSize : Nat := 4096

def maxDepth : Nat := 256

/-! ## Headers -/

/-- The opening of an item; `none` is a length to be found by a closing mark. -/
inductive Header where
  | positive (n : Nat)
  /-- Stands for `-1 - n`. -/
  | negative (n : Nat)
  | bytes (len : Option Nat)
  | text (len : Option Nat)
  | array (len : Option Nat)
  | map (len : Option Nat)
  | tag (n : Nat)
  | simple (n : Nat)
  | float (bits : Nat)
  | close
deriving DecidableEq, Repr

def bigEndian (s : Bytes) : Nat := s.foldl (fun n b => n * 256 + b.toNat) 0

/-- `n` bytes off the front. -/
def takeBytes (n : Nat) (s : Bytes) : Option (Bytes × Bytes) :=
  if n ≤ s.length then some (s.take n, s.drop n) else none

/-- The argument of a header: immediate, in the following bytes, or absent. -/
def argument (minor : Nat) (s : Bytes) : Option (Option Nat × Bytes) :=
  let following (n : Nat) := (takeBytes n s).map fun x => (some (bigEndian x.1), x.2)
  if minor < 24 then some (some minor, s)
  else if minor = 24 then following 1
  else if minor = 25 then following 2
  else if minor = 26 then following 4
  else if minor = 27 then following 8
  else if minor = 31 then some (none, s)
  else none

def header (s : Bytes) : Option (Header × Bytes) :=
  match s with
  | [] => none
  | b :: r =>
    let major := b.toNat / 32
    let minor := b.toNat % 32
    match argument minor r with
    | none => none
    | some (arg, r) =>
      match major, arg with
      | 0, some n => some (.positive n, r)
      | 1, some n => some (.negative n, r)
      | 2, len => some (.bytes len, r)
      | 3, len => some (.text len, r)
      | 4, len => some (.array len, r)
      | 5, len => some (.map len, r)
      | 6, some n => some (.tag n, r)
      | 7, none => some (.close, r)
      | 7, some n =>
        if minor = 25 then some (.float (convert half double n), r)
        else if minor = 26 then some (.float (convert single double n), r)
        else if minor = 27 then some (.float n, r)
        else some (.simple n, r)
      | _, _ => none

/-- The first header that is no tag. -/
def untagged : Nat → Bytes → Option (Header × Bytes)
  | 0, _ => none
  | fuel + 1, s =>
    match header s with
    | some (.tag _, r) => untagged fuel r
    | x => x

def headerPastTags (s : Bytes) : Option (Header × Bytes) := untagged (s.length + 1) s

/-! ## Strings -/

/-- Whether a string is of bytes or of text; the pieces of text are well-formed each. -/
inductive Kind where
  | bytes
  | text
deriving DecidableEq

def Kind.accepts (k : Kind) (piece : Bytes) : Bool :=
  match k with
  | .bytes => true
  | .text => (Utf8.decode? piece).isSome

def Kind.length? (k : Kind) (h : Header) : Option (Option Nat) :=
  match k, h with
  | .bytes, .bytes len => some len
  | .text, .text len => some len
  | _, _ => none

/-- The pieces of a string up to its closing mark; pieces may nest. -/
def pieces (k : Kind) : Nat → Nat → Bytes → Bytes → Option (Bytes × Bytes)
  | 0, _, _, _ => none
  | fuel + 1, nested, acc, s =>
    match header s with
    | some (.close, r) => if nested ≤ 1 then some (acc, r) else pieces k fuel (nested - 1) acc r
    | some (h, r) =>
      match k.length? h with
      | some (some len) => match takeBytes len r with
        | some (piece, r) => if k.accepts piece then pieces k fuel nested (acc ++ piece) r else none
        | none => none
      | some none => pieces k fuel (nested + 1) acc r
      | none => none
    | none => none

/-- The contents of a string after its header. -/
def content (k : Kind) (len : Option Nat) (s : Bytes) : Option (Bytes × Bytes) :=
  match len with
  | some n => match takeBytes n s with
    | some (b, r) => if k.accepts b then some (b, r) else none
    | none => none
  | none => pieces k (s.length + 1) 1 [] s

def textContent (len : Option Nat) (s : Bytes) : Option (String × Bytes) :=
  match content .text len s with
  | some (b, r) => (Utf8.decode? b).map (·, r)
  | none => none

/-! ## Numbers -/

/-- An integer after a tag for large integers: its magnitude has at most sixteen bytes. -/
def largeMagnitude (s : Bytes) : Option (Nat × Bytes) :=
  match header s with
  | some (.bytes len, r) => match content .bytes len r with
    | some (b, r) =>
      let b := b.dropWhile (· = 0)
      if b.length ≤ 16 then some (bigEndian b, r) else none
    | none => none
  | _ => none

/-- The magnitude after a tag for large integers where it may also be something else: sixteen bytes at most, in one
piece. -/
def shortMagnitude (s : Bytes) : Option (Nat × Bytes) :=
  match header s with
  | some (.bytes (some n), r) => if n ≤ 16 then (takeBytes n r).map fun x => (bigEndian x.1, x.2) else none
  | _ => none

/-- An integer, large ones included; other tags are passed over. -/
def anyInteger : Nat → Bytes → Option (Int × Bytes)
  | 0, _ => none
  | fuel + 1, s =>
    match header s with
    | some (.positive n, r) => some ((n : Int), r)
    | some (.negative n, r) => some (-1 - (n : Int), r)
    | some (.tag 2, r) => (largeMagnitude r).map fun x => ((x.1 : Int), x.2)
    | some (.tag 3, r) => (largeMagnitude r).map fun x => (-1 - (x.1 : Int), x.2)
    | some (.tag _, r) => anyInteger fuel r
    | _ => none

def integerIn (ok : Int → Bool) : Reader Int := fun _ s =>
  match anyInteger (s.length + 1) s with
  | some (i, r) => if ok i then some (i, r) else none
  | none => none

/-! ## Containers -/

/-- Folds `item` over `len` items, or up to the closing mark. -/
def items {σ : Type} (item : σ → Bytes → Option (σ × Bytes)) : Nat → Option Nat → σ → Bytes →
    Option (σ × Bytes)
  | 0, _, _, _ => none
  | _ + 1, some 0, acc, s => some (acc, s)
  | fuel + 1, some (n + 1), acc, s =>
    match item acc s with
    | some (acc, s) => items item fuel (some n) acc s
    | none => none
  | fuel + 1, none, acc, s =>
    match header s with
    | some (.close, r) => some (acc, r)
    | none => none
    | _ => match item acc s with
      | some (acc, s) => items item fuel none acc s
      | none => none

/-- Every item takes a byte at least, which bounds the number of rounds. -/
def rounds (s : Bytes) : Nat := s.length + 2

def listOf {α : Type} (read : Bytes → Option (α × Bytes)) (len : Option Nat) (s : Bytes) :
    Option (List α × Bytes) :=
  let item (acc : List α) (r : Bytes) := (read r).map fun x => (x.1 :: acc, x.2)
  (items item (rounds s) len [] s).map fun x => (x.1.reverse, x.2)

/-! ## Items -/

inductive Item where
  | int (i : Int)
  | bytes (b : Bytes)
  | text (s : String)
  | list (xs : List Item)
  | map (entries : List (Item × Item))
  | tag (n : Nat) (x : Item)
  | bool (b : Bool)
  | null
  | float (bits : Nat)
deriving Repr, Inhabited

def minimalBytes (n : Nat) : Bytes :=
  ((List.range 16).map fun i => UInt8.ofNat (n / Nat.pow 256 (15 - i))).dropWhile (· = 0)

/-- A large integer is kept as an integer if 64 bits and a sign hold it. -/
def Item.ofLarge (i : Int) : Item :=
  if -0x10000000000000000 ≤ i ∧ i < 0x10000000000000000 then .int i
  else if i < 0 then .tag 3 (.bytes (minimalBytes (-1 - i).toNat))
  else .tag 2 (.bytes (minimalBytes i.toNat))

/-- The integer that a tag and a short byte string stand for. The negative ones have 127 bits. -/
def tagged (tag : Nat) (s : Bytes) : Option (Option Int × Bytes) :=
  match tag, shortMagnitude s with
  | 2, some (n, r) => some (some n, r)
  | 3, some (n, r) => some (if n < Nat.pow 2 127 then some (-1 - (n : Int)) else none, r)
  | _, _ => none

/-- Any item. Each container or tag uses up one of `depth`. -/
def item : Nat → Bytes → Option (Item × Bytes)
  | depth, s =>
    match header s with
    | some (.positive n, r) => some (.int n, r)
    | some (.negative n, r) => some (.int (-1 - (n : Int)), r)
    | some (.bytes len, r) => (content .bytes len r).map fun x => (.bytes x.1, x.2)
    | some (.text len, r) => (textContent len r).map fun x => (.text x.1, x.2)
    | some (.array len, r) =>
      match depth with
      | 0 => none
      | depth + 1 => (listOf (item depth) len r).map fun x => (.list x.1, x.2)
    | some (.map len, r) =>
      match depth with
      | 0 => none
      | depth + 1 =>
        let entry (r : Bytes) : Option ((Item × Item) × Bytes) :=
          match item depth r with
          | some (k, r) => (item depth r).map fun x => ((k, x.1), x.2)
          | none => none
        (listOf entry len r).map fun x => (.map x.1, x.2)
    | some (.tag n, r) =>
      match tagged n r, depth with
      | some (i, r), _ => i.map fun i => (.ofLarge i, r)
      | none, 0 => none
      | none, depth + 1 => (item depth r).map fun x => (.tag n x.1, x.2)
    | some (.float bits, r) => some (.float bits, r)
    | some (.simple 20, r) => some (.bool false, r)
    | some (.simple 21, r) => some (.bool true, r)
    | some (.simple 22, r) => some (.null, r)
    | some (.simple 23, r) => some (.null, r)
    | _ => none

/-! ## Writing -/

def fixedBytes (count n : Nat) : Bytes :=
  (List.range count).map fun i => UInt8.ofNat (n / Nat.pow 256 (count - 1 - i))

/-- A header with its argument in the fewest bytes. -/
def head (major n : Nat) : Bytes :=
  let first (minor : Nat) : UInt8 := UInt8.ofNat (major * 32 + minor)
  if n < 24 then [first n]
  else if n < 256 then first 24 :: fixedBytes 1 n
  else if n < 65536 then first 25 :: fixedBytes 2 n
  else if n < 0x100000000 then first 26 :: fixedBytes 4 n
  else first 27 :: fixedBytes 8 n

def intBytes (i : Int) : Bytes :=
  if 0 ≤ i then head 0 i.toNat else head 1 (-1 - i).toNat

/-- A float in the smallest format that keeps its bits. -/
def floatBytes (bits : Nat) : Bytes :=
  let h := convert double half bits
  let f := convert double single bits
  if convert half double h = bits then 0xF9 :: fixedBytes 2 h
  else if convert single double f = bits then 0xFA :: fixedBytes 4 f
  else 0xFB :: fixedBytes 8 bits

def stringHead (major : Nat) (b : Bytes) : Bytes := head major b.length ++ b

mutual

def Item.write : Item → Bytes
  | .int i => intBytes i
  | .bytes b => stringHead 2 b
  | .text s => stringHead 3 (Utf8.encode s)
  | .list xs => head 4 xs.length ++ writeItems xs
  | .map es => head 5 es.length ++ writePairs es
  | .tag n x => head 6 n ++ x.write
  | .bool b => [if b then 0xF5 else 0xF4]
  | .null => [0xF6]
  | .float bits => floatBytes bits

def writeItems : List Item → Bytes
  | [] => []
  | x :: xs => x.write ++ writeItems xs

def writePairs : List (Item × Item) → Bytes
  | [] => []
  | (k, v) :: es => k.write ++ v.write ++ writePairs es

end

mutual

def write : Value → Bytes
  | .null => [0xF6]
  | .unit => [0xF6]
  | .bool b => [if b then 0xF5 else 0xF4]
  | .int i => intBytes i
  | .float bits => floatBytes bits.toNat
  | .text s => stringHead 3 (Utf8.encode s)
  | .bytes b => stringHead 2 b
  | .list xs => head 4 xs.length ++ writeList xs
  | .table es => head 5 es.length ++ writeEntries es

def writeList : List Value → Bytes
  | [] => []
  | x :: xs => write x ++ writeList xs

def writeEntries : List (String × Value) → Bytes
  | [] => []
  | (k, v) :: es => stringHead 3 (Utf8.encode k) ++ write v ++ writeEntries es

end

/-! ## Dialect -/

/-- Text held in the buffer: of known length and no longer than it. -/
def shortText (s : Bytes) : Option (String × Bytes) :=
  match headerPastTags s with
  | some (.text (some n), r) => if n ≤ bufferSize then textContent (some n) r else none
  | _ => none

def finite (bits : Nat) : Bool :=
  match double.magnitude bits with
  | .finite _ _ => true
  | _ => false

/-- Integers that JSON has: up to 64 bits, with a sign or without. -/
def jsonInt (i : Int) : Option Value :=
  if -0x8000000000000000 ≤ i ∧ i < 0x10000000000000000 then some (.int i) else none

def textReader : Reader String := fun _ s =>
  match headerPastTags s with
  | some (.text len, r) => textContent len r
  | _ => none

/-- A value with a JSON form. Byte strings and tags have none. The first key of a map is read into the buffer. -/
def value : Reader Value
  | depth, s =>
    match header s with
    | some (.positive n, r) => some (.int n, r)
    | some (.negative n, r) => (jsonInt (-1 - (n : Int))).map (·, r)
    | some (.tag n, r) => match tagged n r with
      | some (some i, r) => (jsonInt i).map (·, r)
      | _ => none
    | some (.text len, r) => (textContent len r).map fun x => (.text x.1, x.2)
    | some (.array len, r) =>
      match depth with
      | 0 => none
      | depth + 1 => (listOf (value depth) len r).map fun x => (.list x.1, x.2)
    | some (.map len, r) =>
      match depth with
      | 0 => none
      | depth + 1 =>
        let entry (acc : List (String × Value)) (r : Bytes) : Option (List (String × Value) × Bytes) :=
          match if acc.isEmpty then shortText r else textReader depth r with
          | some (k, r) => (value depth r).map fun x => ((k, x.1) :: acc, x.2)
          | none => none
        (items entry (rounds r) len [] r).map fun x => (.ofEntries x.1.reverse, x.2)
    | some (.float bits, r) =>
      some (if finite bits then .float (UInt64.ofNat bits) else .null, r)
    | some (.simple 20, r) => some (.bool false, r)
    | some (.simple 21, r) => some (.bool true, r)
    | some (.simple 22, r) => some (.null, r)
    | some (.simple 23, r) => some (.null, r)
    | _ => none

def boolReader : Reader Bool := fun _ s =>
  match headerPastTags s with
  | some (.simple 20, r) => some (false, r)
  | some (.simple 21, r) => some (true, r)
  | _ => none

def unitReader : Reader Unit := fun _ s =>
  match headerPastTags s with
  | some (.simple 22, r) => some ((), r)
  | some (.simple 23, r) => some ((), r)
  | _ => none

/-- A tag before a missing value counts as a value. -/
def optionalReader {α : Type} (read : Reader α) : Reader (Option α) := fun depth s =>
  match header s with
  | some (.simple 22, r) => some (none, r)
  | some (.simple 23, r) => some (none, r)
  | _ => (read depth s).map fun x => (some x.1, x.2)

/-- An array; an empty byte string is an empty list of anything. -/
def listReader {α : Type} (read : Reader α) : Reader (List α) := fun depth s =>
  match headerPastTags s with
  | some (.array len, r) => if depth = 0 then none else listOf (read (depth - 1)) len r
  | some (.bytes len, r) => match content .bytes len r with
    | some ([], r) => some ([], r)
    | _ => none
  | _ => none

def tableReader {α : Type} (read : Reader α) : Reader (List (String × α)) := fun depth s =>
  match headerPastTags s with
  | some (.map len, r) =>
    if depth = 0 then none
    else
      let entry (r : Bytes) : Option ((String × α) × Bytes) :=
        match textReader (depth - 1) r with
        | some (k, r) => (read (depth - 1) r).map fun x => ((k, x.1), x.2)
        | none => none
      listOf entry len r
  | _ => none

/-- A byte string that fits the buffer, or an array of small numbers. -/
def sourceReader : Reader Bytes := fun depth s =>
  match headerPastTags s with
  | some (.bytes (some n), r) => if n ≤ bufferSize then takeBytes n r else none
  | some (.array len, r) =>
    if depth = 0 then none
    else
      let byte (r : Bytes) := (integerIn (fun i => 0 ≤ i && i < 256) 0 r).map fun x =>
        (UInt8.ofNat x.1.toNat, x.2)
      listOf byte len r
  | _ => none

/-- A name in the buffer, as text or as bytes. -/
def name (s : Bytes) : Option (Bytes × Bytes) :=
  match headerPastTags s with
  | some (.bytes (some n), r) => if n ≤ bufferSize then takeBytes n r else none
  | some (.text (some n), r) => if n ≤ bufferSize then content .text (some n) r else none
  | _ => none

/-- A name, alone or opening a map of one entry whose value is left unread. -/
def choiceReader (names : List String) : Reader Nat := fun depth s =>
  let found (s : Bytes) : Option (Nat × Bytes) :=
    if depth = 0 then none
    else match name s with
      | some (b, r) => (names.findIdx? fun n => Utf8.encode n == b).map (·, r)
      | none => none
  match headerPastTags s with
  | some (.map (some 1), r) => found r
  | some (.text _, _) => found s
  | _ => none

def recordReader {σ : Type} (fields : List (Field σ)) (zero : σ) : Reader σ := fun depth s =>
  match headerPastTags s with
  | some (.map len, r) =>
    if depth = 0 then none
    else
      let entry (d : Draft σ) (r : Bytes) : Option (Draft σ × Bytes) :=
        match name r with
        | some (b, r) => match fields.find? fun (f : Field σ) => Utf8.encode f.name == b with
          | some f => d.enter f (depth - 1) r
          | none => (item (depth - 1) r).map fun x => (d, x.2)
        | none => none
      match items entry (rounds r) len ⟨zero, []⟩ r with
      | some (d, r) => (d.finish fields).map (·, r)
      | none => none
  | _ => none

def dialect : Dialect where
  text := textReader
  bool := boolReader
  natural := (integerIn fun i => 0 ≤ i && i < 0x10000000000000000).map Int.toNat
  integer := integerIn fun i => -0x8000000000000000 ≤ i && i < 0x8000000000000000
  source := sourceReader
  unit := unitReader
  choice := choiceReader
  value := value
  native := fun depth s => (item depth s).map fun x => (x.1.write, x.2)
  optional := optionalReader
  list := listReader
  table := tableReader
  record := recordReader

end EditorAgent.Cbor

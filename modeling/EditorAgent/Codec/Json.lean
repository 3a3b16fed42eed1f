import EditorAgent.Codec.Reader
import EditorAgent.Codec.JsonWriter

/-!
# Reading JSON

Lexical rules first, then containers, then the dialect. Entries nobody asked for are skipped under
looser rules: their strings need not be well-formed text, their numbers may be of any size, and they
nest to any depth.
-/

namespace EditorAgent.Json

/-- Blank, tab, line feed, carriage return. -/
def isSpace (b : UInt8) : Bool := b = 0x20 || b = 0x09 || b = 0x0A || b = 0x0D

def skipSpace (s : Bytes) : Bytes := s.dropWhile isSpace

def isDigit (b : UInt8) : Bool := 0x30 ≤ b && b ≤ 0x39

def digitValue (b : UInt8) : Nat := b.toNat - 0x30

/-! ## Strings -/

def hexValue? (b : UInt8) : Option Nat :=
  if isDigit b then some (digitValue b)
  else if 0x61 ≤ b && b ≤ 0x66 then some (b.toNat - 87)
  else if 0x41 ≤ b && b ≤ 0x46 then some (b.toNat - 55)
  else none

def hex4? (a b c d : UInt8) : Option Nat := do
  let a ← hexValue? a
  let b ← hexValue? b
  let c ← hexValue? c
  let d ← hexValue? d
  some (((a * 16 + b) * 16 + c) * 16 + d)

def simpleEscape? (b : UInt8) : Option UInt8 :=
  match b with
  | 0x22 => some 0x22
  | 0x5C => some 0x5C
  | 0x2F => some 0x2F
  | 0x62 => some 0x08
  | 0x66 => some 0x0C
  | 0x6E => some 0x0A
  | 0x72 => some 0x0D
  | 0x74 => some 0x09
  | _ => none

def isHigh (n : Nat) : Bool := 0xD800 ≤ n && n < 0xDC00
def isLow (n : Nat) : Bool := 0xDC00 ≤ n && n < 0xE000

def charBytes (n : Nat) : Bytes := String.utf8EncodeChar (Char.ofNat n)

/-- The bytes of a string after its opening quote, in reverse onto `acc`, and what follows its
closing quote. Surrogates must come in pairs. -/
def stringBytes (acc : Bytes) : Bytes → Option (Bytes × Bytes)
  | [] => none
  | 0x22 :: r => some (acc.reverse, r)
  | 0x5C :: 0x75 :: a :: b :: c :: d :: r =>
    match hex4? a b c d with
    | none => none
    | some n =>
      if isLow n then none
      else if isHigh n then
        match r with
        | 0x5C :: 0x75 :: e :: f :: g :: h :: r' =>
          match hex4? e f g h with
          | none => none
          | some m =>
            if isLow m then
              stringBytes ((charBytes ((n - 0xD800) * 1024 + (m - 0xDC00) + 0x10000)).reverse ++ acc) r'
            else none
        | _ => none
      else stringBytes ((charBytes n).reverse ++ acc) r
  | 0x5C :: b :: r =>
    match simpleEscape? b with
    | some c => stringBytes (c :: acc) r
    | none => none
  | b :: r => if b < 0x20 then none else stringBytes (b :: acc) r

/-- The text of a string after its opening quote. -/
def string (s : Bytes) : Option (String × Bytes) :=
  match stringBytes [] s with
  | some (b, r) => (Utf8.decode? b).map (·, r)
  | none => none

/-- What follows the closing quote. -/
def skipString : Bytes → Option Bytes
  | [] => none
  | 0x22 :: r => some r
  | 0x5C :: 0x75 :: a :: b :: c :: d :: r =>
    if (hex4? a b c d).isSome then skipString r else none
  | 0x5C :: b :: r => if (simpleEscape? b).isSome then skipString r else none
  | b :: r => if b < 0x20 then none else skipString r

/-! ## Numbers -/

def maxU64 : Nat := 0xFFFFFFFFFFFFFFFF

/-- Appends digits to a significand while it fits 64 bits; also how many were taken. -/
def accumulate (sig n : Nat) : Bytes → Nat × Nat × Bytes
  | [] => (sig, n, [])
  | c :: r =>
    if isDigit c && sig * 10 + digitValue c ≤ maxU64 then
      accumulate (sig * 10 + digitValue c) (n + 1) r
    else (sig, n, c :: r)

def dropDigits (s : Bytes) : Bytes := s.dropWhile isDigit

def startsDigit : Bytes → Bool
  | c :: _ => isDigit c
  | [] => false

/-- A decimal read so far: a significand and a power of ten. -/
structure Scientific where
  sig : Nat
  exp : Int

/-- Digits of an exponent up to the largest of 32 bits; `none` if it is larger. -/
def exponentDigits (e : Nat) : Bytes → Option Nat × Bytes
  | [] => (some e, [])
  | c :: r =>
    if isDigit c then
      if e * 10 + digitValue c ≤ 2147483647 then exponentDigits (e * 10 + digitValue c) r
      else (none, dropDigits r)
    else (some e, c :: r)

/-- The exponent after its mark, and the magnitude's bit pattern; `none` if malformed or too large. -/
def exponent (x : Scientific) (s : Bytes) : Option (Nat × Bytes) :=
  let (neg, r) := match s with
    | 0x2B :: r => (false, r)
    | 0x2D :: r => (true, r)
    | r => (false, r)
  if !startsDigit r then none
  else match exponentDigits 0 r with
    | (some e, r') => (Decimal.scaled x.sig (if neg then x.exp - e else x.exp + e)).map (·, r')
    | (none, r') => if x.sig ≠ 0 && !neg then none else some (0, r')

def afterDigits (x : Scientific) (s : Bytes) : Option (Nat × Bytes) :=
  match s with
  | 0x65 :: r => exponent x r
  | 0x45 :: r => exponent x r
  | r => (Decimal.scaled x.sig x.exp).map (·, r)

/-- The digits after the point. Those that no longer fit the significand are passed over. -/
def fraction (x : Scientific) (s : Bytes) : Option (Nat × Bytes) :=
  let (sig, n, r) := accumulate x.sig 0 s
  if startsDigit r then afterDigits ⟨sig, x.exp - n⟩ (dropDigits r)
  else if n = 0 then none
  else afterDigits ⟨sig, x.exp - n⟩ r

def signed (neg : Bool) (bits : Nat) : Value :=
  .float (UInt64.ofNat (bits + if neg then Binary.double.signBit else 0))

def integer (neg : Bool) (sig : Nat) : Value :=
  if !neg then .int sig
  else if sig = 0 || 0x8000000000000000 < sig then signed true (Binary.double.nearest sig 1)
  else .int (-(sig : Int))

def afterInteger (neg : Bool) (sig : Nat) (s : Bytes) : Option (Value × Bytes) :=
  match s with
  | 0x2E :: r => (fraction ⟨sig, 0⟩ r).map fun x => (signed neg x.1, x.2)
  | 0x65 :: r => (exponent ⟨sig, 0⟩ r).map fun x => (signed neg x.1, x.2)
  | 0x45 :: r => (exponent ⟨sig, 0⟩ r).map fun x => (signed neg x.1, x.2)
  | r => some (integer neg sig, r)

/-- Digits beyond 64 bits only count as powers of ten. -/
def longInteger (neg : Bool) (sig : Nat) (s : Bytes) : Option (Value × Bytes) :=
  let r := dropDigits s
  let x : Scientific := ⟨sig, (s.length - r.length : Nat)⟩
  let y := match r with
    | 0x2E :: r' => fraction x r'
    | r' => afterDigits x r'
  y.map fun x => (signed neg x.1, x.2)

/-- A number after its sign. -/
def magnitude (neg : Bool) (s : Bytes) : Option (Value × Bytes) :=
  match s with
  | 0x30 :: r => if startsDigit r then none else afterInteger neg 0 r
  | s =>
    if startsDigit s then
      let (sig, _, r) := accumulate 0 0 s
      if startsDigit r then longInteger neg sig r else afterInteger neg sig r
    else none

def number (s : Bytes) : Option (Value × Bytes) :=
  match s with
  | 0x2D :: r => magnitude true r
  | s => magnitude false s

/-- What follows a number of any size. -/
def skipNumber (s : Bytes) : Option Bytes :=
  let s := match s with
    | 0x2D :: r => r
    | s => s
  let int := match s with
    | 0x30 :: r => if startsDigit r then none else some r
    | s => if startsDigit s then some (dropDigits s) else none
  let exp (s : Bytes) : Option Bytes :=
    let r := match s with
      | 0x2B :: r => r
      | 0x2D :: r => r
      | r => r
    if startsDigit r then some (dropDigits r) else none
  let tail (s : Bytes) : Option Bytes :=
    match s with
    | 0x65 :: r => exp r
    | 0x45 :: r => exp r
    | r => some r
  match int with
  | none => none
  | some (0x2E :: r) => if startsDigit r then tail (dropDigits r) else none
  | some r => tail r

/-! ## Containers -/

def keyword (word : Bytes) (s : Bytes) : Option Bytes :=
  if word.isPrefixOf s then some (s.drop word.length) else none

/-- Folds `item` over the items of a list after its opening bracket. -/
def items {σ : Type} (item : σ → Bytes → Option (σ × Bytes)) : Nat → Bool → σ → Bytes →
    Option (σ × Bytes)
  | 0, _, _, _ => none
  | fuel + 1, first, acc, s =>
    match skipSpace s with
    | 0x5D :: r => some (acc, r)
    | 0x2C :: r =>
      if first then none
      else match skipSpace r with
        | 0x5D :: _ => none
        | r => match item acc r with
          | some (acc, r) => items item fuel false acc r
          | none => none
    | r =>
      if first then match item acc r with
        | some (acc, r) => items item fuel false acc r
        | none => none
      else none

/-- The key of an entry with its colon. -/
def key (s : Bytes) : Option (String × Bytes) :=
  match s with
  | 0x22 :: r => match string r with
    | some (k, r) => match skipSpace r with
      | 0x3A :: r => some (k, r)
      | _ => none
    | none => none
  | _ => none

/-- Folds `entry` over the entries of an object after its opening brace. -/
def entries {σ : Type} (entry : σ → String → Bytes → Option (σ × Bytes)) : Nat → Bool → σ → Bytes →
    Option (σ × Bytes)
  | 0, _, _, _ => none
  | fuel + 1, first, acc, s =>
    let next (r : Bytes) : Option (σ × Bytes) :=
      match key r with
      | some (k, r) => match entry acc k r with
        | some (acc, r) => entries entry fuel false acc r
        | none => none
      | none => none
    match skipSpace s with
    | 0x7D :: r => some (acc, r)
    | 0x2C :: r => if first then none else next (skipSpace r)
    | r => if first then next r else none

/-- What follows a value of any kind. -/
def skip : Nat → Bytes → Option Bytes
  | 0, _ => none
  | fuel + 1, s =>
    match skipSpace s with
    | 0x6E :: r => keyword [0x75, 0x6C, 0x6C] r
    | 0x74 :: r => keyword [0x72, 0x75, 0x65] r
    | 0x66 :: r => keyword [0x61, 0x6C, 0x73, 0x65] r
    | 0x22 :: r => skipString r
    | 0x5B :: r => (items (fun _ r => (skip fuel r).map ((), ·)) (r.length + 1) true () r).map (·.2)
    | 0x7B :: r =>
      let entry (first : Bool) (r : Bytes) : Option Bytes :=
        match (if first then r else skipSpace r) with
        | 0x22 :: r => match skipString r with
          | some r => match skipSpace r with
            | 0x3A :: r => skip fuel r
            | _ => none
          | none => none
        | _ => none
      let rec loop : Nat → Bool → Bytes → Option Bytes
        | 0, _, _ => none
        | n + 1, first, r =>
          match skipSpace r with
          | 0x7D :: r => some r
          | 0x2C :: r => if first then none else match entry false r with
            | some r => loop n false r
            | none => none
          | r => if first then match entry true r with
              | some r => loop n false r
              | none => none
            else none
      loop (r.length + 1) true r
    | r => skipNumber r

/-- A JSON value. A container needs a depth of two or more, its contents one less. -/
def value : Reader Value
  | 0, _ => none
  | depth + 1, s =>
    match skipSpace s with
    | 0x6E :: r => (keyword [0x75, 0x6C, 0x6C] r).map (.null, ·)
    | 0x74 :: r => (keyword [0x72, 0x75, 0x65] r).map (.bool true, ·)
    | 0x66 :: r => (keyword [0x61, 0x6C, 0x73, 0x65] r).map (.bool false, ·)
    | 0x22 :: r => (string r).map fun x => (.text x.1, x.2)
    | 0x5B :: r =>
      if depth = 0 then none
      else
        let item (acc : List Value) (r : Bytes) := (value depth r).map fun x => (x.1 :: acc, x.2)
        (items item (r.length + 1) true [] r).map fun x => (.list x.1.reverse, x.2)
    | 0x7B :: r =>
      if depth = 0 then none
      else
        let entry (acc : List (String × Value)) (k : String) (r : Bytes) :=
          (value depth r).map fun x => (sortedInsert k x.1 acc, x.2)
        (entries entry (r.length + 1) true [] r).map fun x => (.table x.1, x.2)
    | r => number r

/-! ## Dialect -/

def maxDepth : Nat := 128

def textReader : Reader String := fun _ s =>
  match skipSpace s with
  | 0x22 :: r => string r
  | _ => none

def boolReader : Reader Bool := fun _ s =>
  match skipSpace s with
  | 0x74 :: r => (keyword [0x72, 0x75, 0x65] r).map (true, ·)
  | 0x66 :: r => (keyword [0x61, 0x6C, 0x73, 0x65] r).map (false, ·)
  | _ => none

def integerIn (ok : Int → Bool) : Reader Int := fun _ s =>
  match number (skipSpace s) with
  | some (.int i, r) => if ok i then some (i, r) else none
  | _ => none

def unitReader : Reader Unit := fun _ s =>
  match skipSpace s with
  | 0x6E :: r => (keyword [0x75, 0x6C, 0x6C] r).map ((), ·)
  | _ => none

def optionalReader {α : Type} (read : Reader α) : Reader (Option α) := fun depth s =>
  match skipSpace s with
  | 0x6E :: r => (keyword [0x75, 0x6C, 0x6C] r).map (none, ·)
  | r => (read depth r).map fun x => (some x.1, x.2)

def listReader {α : Type} (read : Reader α) : Reader (List α) := fun depth s =>
  match skipSpace s with
  | 0x5B :: r =>
    if depth ≤ 1 then none
    else
      let item (acc : List α) (r : Bytes) := (read (depth - 1) r).map fun x => (x.1 :: acc, x.2)
      (items item (r.length + 1) true [] r).map fun x => (x.1.reverse, x.2)
  | _ => none

def tableReader {α : Type} (read : Reader α) : Reader (List (String × α)) := fun depth s =>
  match skipSpace s with
  | 0x7B :: r =>
    if depth ≤ 1 then none
    else
      let entry (acc : List (String × α)) (k : String) (r : Bytes) :=
        (read (depth - 1) r).map fun x => ((k, x.1) :: acc, x.2)
      (entries entry (r.length + 1) true [] r).map fun x => (x.1.reverse, x.2)
  | _ => none

/-- Text in base64, `null` for no bytes, or a list of small numbers. -/
def sourceReader : Reader Bytes := fun depth s =>
  match skipSpace s with
  | 0x22 :: r => match string r with
    | some (t, r) => (Base64.decode? Base64.standard t).map (·, r)
    | none => none
  | 0x6E :: r => (keyword [0x75, 0x6C, 0x6C] r).map ([], ·)
  | r => (listReader (integerIn fun i => 0 ≤ i && i < 256) depth r).map fun x =>
    (x.1.map fun i => UInt8.ofNat i.toNat, x.2)

/-- A name, or an object whose only key is the name and whose value is `null`. -/
def choiceReader (names : List String) : Reader Nat := fun depth s =>
  match skipSpace s with
  | 0x22 :: r => match string r with
    | some (t, r) => (names.idxOf? t).map (·, r)
    | none => none
  | 0x7B :: r =>
    if depth ≤ 1 then none
    else match key (skipSpace r) with
      | some (t, r) => match names.idxOf? t, unitReader depth r with
        | some i, some (_, r) => match skipSpace r with
          | 0x7D :: r => some (i, r)
          | _ => none
        | _, _ => none
      | none => none
  | _ => none

/-- Reads the fields in order from a list, which may stop early but not go on. -/
def positional {σ : Type} (depth : Nat) : List (Field σ) → Bool → Draft σ → Bytes →
    Option (Draft σ × Bytes)
  | [], _, d, s => match skipSpace s with
    | 0x5D :: r => some (d, r)
    | _ => none
  | f :: fs, first, d, s =>
    let next (r : Bytes) : Option (Draft σ × Bytes) :=
      match d.enter f depth r with
      | some (d, r) => positional depth fs false d r
      | none => none
    match skipSpace s with
    | 0x5D :: r => some (d, r)
    | 0x2C :: r => if first then none else match skipSpace r with
      | 0x5D :: _ => none
      | r => next r
    | r => if first then next r else none

def recordReader {σ : Type} (fields : List (Field σ)) (zero : σ) : Reader σ := fun depth s =>
  if depth ≤ 1 then none
  else
    let draft : Option (Draft σ × Bytes) := match skipSpace s with
      | 0x5B :: r => positional (depth - 1) fields true ⟨zero, []⟩ r
      | 0x7B :: r =>
        let entry (d : Draft σ) (k : String) (r : Bytes) : Option (Draft σ × Bytes) :=
          match fields.find? fun (f : Field σ) => f.name == k with
          | some f => d.enter f (depth - 1) r
          | none => (skip (r.length + 1) r).map (d, ·)
        entries entry (r.length + 1) true ⟨zero, []⟩ r
      | _ => none
    match draft with
    | some (d, r) => (d.finish fields).map (·, r)
    | none => none

def dialect : Dialect where
  text := textReader
  bool := boolReader
  natural := (integerIn fun i => 0 ≤ i && i < 0x10000000000000000).map Int.toNat
  integer := integerIn fun i => -0x8000000000000000 ≤ i && i < 0x8000000000000000
  source := sourceReader
  unit := unitReader
  choice := choiceReader
  value := value
  native := value.map fun v => Utf8.encode (compact v)
  optional := optionalReader
  list := listReader
  table := tableReader
  record := recordReader

/-- A whole text: one value and blanks around it. -/
def parse? (s : Bytes) : Option Value :=
  match value maxDepth s with
  | some (v, r) => if (skipSpace r).isEmpty then some v else none
  | none => none

end EditorAgent.Json

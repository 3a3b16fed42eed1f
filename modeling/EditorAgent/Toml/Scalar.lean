/-!
# Scalars of settings files

Strings, numbers, truth values and dates of TOML. Numbers with a fraction and dates are recognised and
their values not kept.
-/

namespace EditorAgent.Toml

inductive Scalar where
  | text (s : String)
  | int (i : Int)
  | bool (b : Bool)
  /-- A number with a fraction, or a date. -/
  | other
deriving DecidableEq, Repr, Inhabited

/-- Takes a value off the front of a text. -/
abbrev Take (α : Type) := List Char → Option (α × List Char)

def isControl (c : Char) : Bool := (c.toNat < 0x20 && c != '\t') || c.toNat = 0x7F

def skipBlank (s : List Char) : List Char := s.dropWhile fun c => c == ' ' || c == '\t'

/-- A line ending, as its length. -/
def newline? : List Char → Option (List Char)
  | '\n' :: r => some r
  | '\r' :: '\n' :: r => some r
  | _ => none

def hexDigit? (c : Char) : Option Nat :=
  if c.isDigit then some (c.toNat - 48)
  else if 'a' ≤ c && c ≤ 'f' then some (c.toNat - 87)
  else if 'A' ≤ c && c ≤ 'F' then some (c.toNat - 55)
  else none

/-- The character of a code point written in hexadecimal digits. -/
def codePoint? (digits : List Char) : Option Char := do
  let n ← digits.foldlM (fun n c => (hexDigit? c).map (n * 16 + ·)) 0
  if n < 0xD800 || (0xDFFF < n && n < 0x110000) then some (Char.ofNat n) else none

/-- The character of an escape, after its backslash. -/
def escape? : Take Char
  | 'b' :: r => some ('\x08', r)
  | 't' :: r => some ('\t', r)
  | 'n' :: r => some ('\n', r)
  | 'f' :: r => some ('\x0c', r)
  | 'r' :: r => some ('\r', r)
  | '"' :: r => some ('"', r)
  | '\\' :: r => some ('\\', r)
  | 'u' :: r => if r.length < 4 then none else (codePoint? (r.take 4)).map (·, r.drop 4)
  | 'U' :: r => if r.length < 8 then none else (codePoint? (r.take 8)).map (·, r.drop 8)
  | _ => none

/-! ## Strings

Each reader gets the text after the opening quotes and the characters read so far, last first. The number
bounds the characters that are read. -/

def basic : Nat → List Char → Take String
  | 0, _, _ => none
  | _, _, [] => none
  | n + 1, acc, c :: r =>
    if c = '"' then some (String.ofList acc.reverse, r)
    else if c = '\\' then match escape? r with
      | some (x, r) => basic n (x :: acc) r
      | none => none
    else if isControl c then none
    else basic n (c :: acc) r

def literal (quote : Char) : Nat → List Char → Take String
  | 0, _, _ => none
  | _, _, [] => none
  | n + 1, acc, c :: r =>
    if c = quote then some (String.ofList acc.reverse, r)
    else if isControl c then none
    else literal quote n (c :: acc) r

/-- The quotes at the front of a text over several lines: the text they close and what comes after it, if there are
three or more of them. Two more may belong to the text. -/
def closing? (quote : Char) (acc s : List Char) : Option (String × List Char) :=
  let n := min 5 (s.takeWhile (· == quote)).length
  if 3 ≤ n then some (String.ofList (acc.reverse ++ List.replicate (n - 3) quote), s.drop n) else none

/-- What follows the blanks and line endings at the front of a text. -/
def skipFold : List Char → List Char
  | ' ' :: r => skipFold r
  | '\t' :: r => skipFold r
  | '\n' :: r => skipFold r
  | '\r' :: '\n' :: r => skipFold r
  | r => r

/-- A backslash at the end of a line: what follows the blanks after it. -/
def foldedLine? (s : List Char) : Option (List Char) := (newline? (skipBlank s)).map skipFold

def basicLines : Nat → List Char → Take String
  | 0, _, _ => none
  | _, _, [] => none
  | n + 1, acc, c :: r =>
    match closing? '"' acc (c :: r), newline? (c :: r) with
    | some done, _ => some done
    | none, some r => basicLines n ('\n' :: acc) r
    | none, none =>
      if c = '\\' then match foldedLine? r with
        | some r => basicLines n acc r
        | none => match escape? r with
          | some (x, r) => basicLines n (x :: acc) r
          | none => none
      else if isControl c then none
      else basicLines n (c :: acc) r

def literalLines (quote : Char) : Nat → List Char → Take String
  | 0, _, _ => none
  | _, _, [] => none
  | n + 1, acc, c :: r =>
    match closing? quote acc (c :: r), newline? (c :: r) with
    | some done, _ => some done
    | none, some r => literalLines quote n ('\n' :: acc) r
    | none, none => if isControl c then none else literalLines quote n (c :: acc) r

/-- The single quote. -/
def tick : Char := Char.ofNat 0x27

/-- A text over several lines may start on the line after its quotes. -/
def firstLine (s : List Char) : List Char := (newline? s).getD s

/-- A string of any kind, with its quotes. -/
def string : Take String
  | a :: b :: c :: r =>
    let n := r.length + 3
    if a = '"' && b = '"' && c = '"' then basicLines n [] (firstLine r)
    else if a = tick && b = tick && c = tick then literalLines tick n [] (firstLine r)
    else if a = '"' then basic n [] (b :: c :: r)
    else if a = tick then literal tick n [] (b :: c :: r)
    else none
  | ['"', '"'] => some ("", [])
  | [a, b] => if a = tick && b = tick then some ("", []) else none
  | _ => none

/-! ## Numbers and dates -/

def splitAt (c : Char) (s : List Char) : List (List Char) :=
  s.foldr (fun x acc => match acc with
    | part :: parts => if x = c then [] :: part :: parts else (x :: part) :: parts
    | [] => [[x]]) [[]]

/-- Digits with single underscores between them. -/
def digits? (isDigit : Char → Bool) (s : List Char) : Option (List Char) :=
  let parts := splitAt '_' s
  if parts.all fun p => !p.isEmpty && p.all isDigit then some parts.flatten else none

def ofDigits (base : Nat) (s : List Char) : Nat :=
  s.foldl (fun n c => n * base + (hexDigit? c).getD 0) 0

/-- Decimal digits that do not start with a zero, but for zero itself. -/
def decimal? (s : List Char) : Option Nat := do
  let ds ← digits? Char.isDigit s
  if ds.length = 1 || ds.head? != some '0' then some (ofDigits 10 ds) else none

def fits (i : Int) : Option Int := if -0x8000000000000000 ≤ i && i < 0x8000000000000000 then some i else none

def integer? (s : List Char) : Option Int :=
  match s with
  | '0' :: 'x' :: r => ((digits? (fun c => (hexDigit? c).isSome) r).bind fun ds => fits (ofDigits 16 ds))
  | '0' :: 'o' :: r =>
    ((digits? (fun c => '0' ≤ c && c ≤ '7') r).bind fun ds => fits (ofDigits 8 ds))
  | '0' :: 'b' :: r => ((digits? (fun c => c == '0' || c == '1') r).bind fun ds => fits (ofDigits 2 ds))
  | '-' :: r => (decimal? r).bind fun n => fits (-(n : Int))
  | '+' :: r => (decimal? r).bind fun n => fits n
  | r => (decimal? r).bind fun n => fits n

def unsigned (s : List Char) : List Char :=
  match s with
  | '-' :: r => r
  | '+' :: r => r
  | r => r

def isExponent (s : List Char) : Bool := (digits? Char.isDigit (unsigned s)).isSome

/-- Whether `digits * 10 ^ place` is finite as a double: it lies below the middle between the largest double and the
power of two after it. -/
def isFinite (digits : Nat) (place : Int) : Bool :=
  let top := place + (Nat.toDigits 10 digits).length
  digits = 0 || top < 300 ||
    top < 320 && digits * Nat.pow 10 place.toNat < (Nat.pow 2 54 - 1) * Nat.pow 2 970 * Nat.pow 10 (-place).toNat

/-- The number after an exponent mark. -/
def exponent (s : List Char) : Int :=
  let n := ofDigits 10 (s.filter Char.isDigit)
  if s.head? = some '-' then -(n : Int) else n

/-- A number with a fraction or an exponent. The positive ones must not be too large. -/
def isFloat (s : List Char) : Bool :=
  let isNegative := s.head? = some '-'
  let s := unsigned s
  if s = "inf".toList || s = "nan".toList then true
  else
    let isE (c : Char) : Bool := c == 'e' || c == 'E'
    let mantissa := s.takeWhile fun c => !isE c
    let power := s.dropWhile fun c => !isE c
    let hasPoint := mantissa.contains '.'
    let whole := mantissa.takeWhile (· != '.')
    let fraction := (mantissa.dropWhile (· != '.')).drop 1
    (hasPoint || !power.isEmpty) && (decimal? whole).isSome
      && (!hasPoint || (digits? Char.isDigit fraction).isSome)
      && (power.isEmpty || isExponent (power.drop 1))
      && (isNegative || isFinite (ofDigits 10 ((whole ++ fraction).filter Char.isDigit))
        (exponent (power.drop 1) - (fraction.filter Char.isDigit).length))

/-- A number of a fixed width between two bounds. -/
def field? (width lo hi : Nat) (s : List Char) : Option Nat :=
  if s.length = width && s.all Char.isDigit then
    let n := ofDigits 10 s
    if lo ≤ n && n ≤ hi then some n else none
  else none

def daysIn (year month : Nat) : Nat :=
  if month = 2 then (if year % 4 = 0 && (year % 100 != 0 || year % 400 = 0) then 29 else 28)
  else if [4, 6, 9, 11].contains month then 30 else 31

def isDate (s : List Char) : Bool :=
  match splitAt '-' s with
  | [y, m, d] => match field? 4 0 9999 y, field? 2 1 12 m with
    | some year, some month => (field? 2 1 (daysIn year month) d).isSome
    | _, _ => false
  | _ => false

def isTime (s : List Char) : Bool :=
  match splitAt ':' s with
  | [h, m, rest] =>
    let second := rest.takeWhile (· != '.')
    let fraction := rest.dropWhile (· != '.')
    (field? 2 0 23 h).isSome && (field? 2 0 59 m).isSome && (field? 2 0 60 second).isSome
      && (fraction.isEmpty || (1 < fraction.length && (fraction.drop 1).all Char.isDigit))
  | _ => false

def isOffset (s : List Char) : Bool :=
  match s with
  | ['Z'] => true
  | ['z'] => true
  | sign :: r => (sign == '+' || sign == '-') && match splitAt ':' r with
    | [h, m] => (field? 2 0 23 h).isSome && (field? 2 0 59 m).isSome
    | _ => false
  | [] => true

def isDateTime (s : List Char) : Bool :=
  if isDate s || isTime s then true
  else
    let date := s.take 10
    let rest := s.drop 11
    let time := rest.takeWhile fun c => c.isDigit || c == ':' || c == '.'
    ((s.drop 10).head?.any fun c => c == 'T' || c == 't' || c == ' ') && isDate date && isTime time
      && isOffset (rest.drop time.length)

/-- The characters of numbers, dates and names. -/
def isWordChar (c : Char) : Bool := c.isAlphanum || "_+-.:".toList.contains c

/-- A word, and the time of day after a date that a blank parts from it. -/
def word (s : List Char) : List Char × List Char :=
  let w := s.takeWhile isWordChar
  let r := s.dropWhile isWordChar
  match r with
  | ' ' :: h :: _ =>
    if isDate w && h.isDigit then
      (w ++ ' ' :: (r.drop 1).takeWhile isWordChar, (r.drop 1).dropWhile isWordChar)
    else (w, r)
  | _ => (w, r)

/-- A scalar that is no string. -/
def plain : Take Scalar := fun s =>
  let (w, r) := word s
  if w = "true".toList then some (.bool true, r)
  else if w = "false".toList then some (.bool false, r)
  else match integer? w with
    | some i => some (.int i, r)
    | none => if isFloat w || isDateTime w then some (.other, r) else none

end EditorAgent.Toml

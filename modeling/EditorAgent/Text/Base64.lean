import EditorAgent.Text.Utf8

/-!
# Base64

Base64 over two alphabets, padded unless a text is asked for without. The reader is strict: full groups
of four, padding only at the end, and no stray bits under the padding, so every byte string has one
written form.
-/

namespace EditorAgent.Base64

structure Alphabet where
  plus : Char
  slash : Char

def standard : Alphabet := ⟨'+', '/'⟩
def urlSafe : Alphabet := ⟨'-', '_'⟩

def Alphabet.char (a : Alphabet) (n : Nat) : Char :=
  if n < 26 then Char.ofNat (65 + n)
  else if n < 52 then Char.ofNat (97 + (n - 26))
  else if n < 62 then Char.ofNat (48 + (n - 52))
  else if n = 62 then a.plus else a.slash

def Alphabet.digit? (a : Alphabet) (c : Char) : Option Nat :=
  if 'A' ≤ c ∧ c ≤ 'Z' then some (c.toNat - 65)
  else if 'a' ≤ c ∧ c ≤ 'z' then some (c.toNat - 97 + 26)
  else if '0' ≤ c ∧ c ≤ '9' then some (c.toNat - 48 + 52)
  else if c = a.plus then some 62
  else if c = a.slash then some 63
  else none

def encodeChars (a : Alphabet) : Bytes → List Char
  | [] => []
  | [x] =>
    let n := x.toNat
    [a.char (n / 4), a.char (n % 4 * 16), '=', '=']
  | [x, y] =>
    let n := x.toNat * 256 + y.toNat
    [a.char (n / 1024), a.char (n / 16 % 64), a.char (n % 16 * 4), '=']
  | x :: y :: z :: r =>
    let n := (x.toNat * 256 + y.toNat) * 256 + z.toNat
    a.char (n / 262144) :: a.char (n / 4096 % 64) :: a.char (n / 64 % 64) :: a.char (n % 64) ::
      encodeChars a r

def encode (a : Alphabet) (s : Bytes) : String := String.ofList (encodeChars a s)

/-- Without the padding at the end. -/
def encodeUnpadded (a : Alphabet) (s : Bytes) : String := String.ofList ((encodeChars a s).takeWhile (· != '='))

def decodeChars (a : Alphabet) : List Char → Option Bytes
  | [] => some []
  | [p, q, '=', '='] => do
    let p ← a.digit? p
    let q ← a.digit? q
    if q % 16 = 0 then some [UInt8.ofNat (p * 4 + q / 16)] else none
  | [p, q, r, '='] => do
    let p ← a.digit? p
    let q ← a.digit? q
    let r ← a.digit? r
    if r % 4 = 0 then
      some [UInt8.ofNat (p * 4 + q / 16), UInt8.ofNat (q % 16 * 16 + r / 4)]
    else none
  | p :: q :: r :: s :: rest => do
    let p ← a.digit? p
    let q ← a.digit? q
    let r ← a.digit? r
    let s ← a.digit? s
    let tail ← decodeChars a rest
    some (UInt8.ofNat (p * 4 + q / 16) :: UInt8.ofNat (q % 16 * 16 + r / 4) ::
      UInt8.ofNat (r % 4 * 64 + s) :: tail)
  | _ => none

def decode? (a : Alphabet) (s : String) : Option Bytes := decodeChars a s.toList

end EditorAgent.Base64

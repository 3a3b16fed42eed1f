import EditorAgent.Value.Basic
import EditorAgent.Text.Base64
import EditorAgent.Number.Decimal

/-!
# JSON text

Compact text, and text laid out over lines. Byte strings are written in base64; numbers that are not
finite are written as `null`.
-/

namespace EditorAgent.Json

def hexDigit (n : Nat) : Char := Char.ofNat (if n < 10 then 48 + n else 87 + n)

def escape (c : Char) : List Char :=
  if c = '"' then ['\\', '"']
  else if c = '\\' then ['\\', '\\']
  else if 0x20 ≤ c.toNat then [c]
  else match c.toNat with
    | 8 => ['\\', 'b']
    | 9 => ['\\', 't']
    | 10 => ['\\', 'n']
    | 12 => ['\\', 'f']
    | 13 => ['\\', 'r']
    | n => ['\\', 'u', '0', '0', hexDigit (n / 16), hexDigit (n % 16)]

def quote (s : String) : List Char := '"' :: (s.toList.flatMap escape ++ ['"'])

def scalar : Value → List Char
  | .bool true => "true".toList
  | .bool false => "false".toList
  | .int i => (toString i).toList
  | .float bits => ((Decimal.text? Decimal.messageLayout bits).getD "null").toList
  | .text s => quote s
  | .bytes b => quote (Base64.encode Base64.standard b)
  | _ => "null".toList

mutual

def compactChars : Value → List Char
  | .list [] => ['[', ']']
  | .list (x :: xs) => '[' :: (compactChars x ++ compactItems xs)
  | .table [] => ['\x7b', '\x7d']
  | .table ((k, v) :: es) => '\x7b' :: (quote k ++ ':' :: (compactChars v ++ compactEntries es))
  | .null => scalar .null
  | .unit => scalar .unit
  | .bool b => scalar (.bool b)
  | .int i => scalar (.int i)
  | .float b => scalar (.float b)
  | .text s => scalar (.text s)
  | .bytes b => scalar (.bytes b)

/-- The items after the first, and the closing bracket. -/
def compactItems : List Value → List Char
  | [] => [']']
  | x :: xs => ',' :: (compactChars x ++ compactItems xs)

/-- The entries after the first, and the closing brace. -/
def compactEntries : List (String × Value) → List Char
  | [] => ['\x7d']
  | (k, v) :: es => ',' :: (quote k ++ ':' :: (compactChars v ++ compactEntries es))

end

def newline (indent : Nat) : List Char := '\n' :: List.replicate (2 * indent) ' '

mutual

def prettyChars (indent : Nat) : Value → List Char
  | .list [] => ['[', ']']
  | .list (x :: xs) =>
    '[' :: (newline (indent + 1) ++ prettyChars (indent + 1) x ++ prettyItems indent xs)
  | .table [] => ['\x7b', '\x7d']
  | .table ((k, v) :: es) =>
    '\x7b' :: (newline (indent + 1) ++ quote k ++ ':' :: ' ' :: prettyChars (indent + 1) v
      ++ prettyEntries indent es)
  | .null => scalar .null
  | .unit => scalar .unit
  | .bool b => scalar (.bool b)
  | .int i => scalar (.int i)
  | .float b => scalar (.float b)
  | .text s => scalar (.text s)
  | .bytes b => scalar (.bytes b)

def prettyItems (indent : Nat) : List Value → List Char
  | [] => newline indent ++ [']']
  | x :: xs => ',' :: (newline (indent + 1) ++ prettyChars (indent + 1) x ++ prettyItems indent xs)

def prettyEntries (indent : Nat) : List (String × Value) → List Char
  | [] => newline indent ++ ['\x7d']
  | (k, v) :: es =>
    ',' :: (newline (indent + 1) ++ quote k ++ ':' :: ' ' :: prettyChars (indent + 1) v
      ++ prettyEntries indent es)

end

def compact (v : Value) : String := String.ofList (compactChars v)

/-- Two spaces an indent, one item a line. -/
def pretty (v : Value) : String := String.ofList (prettyChars 0 v)

end EditorAgent.Json

/-!
# Blanks

The characters of the Unicode property `White_Space`, and what trimming and splitting at them gives.
-/

namespace EditorAgent.Text

def isBlank (c : Char) : Bool :=
  let n := c.toNat
  (9 ≤ n && n ≤ 13) || n = 0x20 || n = 0x85 || n = 0xA0 || n = 0x1680 ||
    (0x2000 ≤ n && n ≤ 0x200A) || n = 0x2028 || n = 0x2029 || n = 0x202F || n = 0x205F || n = 0x3000

def trimChars (p : Char → Bool) (s : List Char) : List Char :=
  ((s.dropWhile p).reverse.dropWhile p).reverse

def trim (s : String) : String := String.ofList (trimChars isBlank s.toList)

def trimStart (s : String) : String := String.ofList (s.toList.dropWhile isBlank)

def trimEnd (s : String) : String := String.ofList (s.toList.reverse.dropWhile isBlank).reverse

/-- The parts between characters that satisfy `p`, empty ones included. -/
def splitChars (p : Char → Bool) : List Char → List (List Char)
  | [] => [[]]
  | c :: r =>
    if p c then [] :: splitChars p r
    else match splitChars p r with
      | [] => [[c]]
      | part :: parts => (c :: part) :: parts

def split (p : Char → Bool) (s : String) : List String :=
  (splitChars p s.toList).map String.ofList

/-- The words of a text. -/
def words (s : String) : List String := (split isBlank s).filter (· != "")

/-- Cuts one carriage return off the end. -/
def chompReturn (s : List Char) : List Char :=
  match s.reverse with
  | '\r' :: r => r.reverse
  | _ => s

/-- The lines of a text: a line feed, or a carriage return and a line feed, ends a line, and a last line
need not be ended. -/
def lines (s : String) : List String :=
  match (splitChars (· == '\n') s.toList).reverse with
  | [] => []
  | last :: ended =>
    (ended.reverse.map chompReturn ++ if last.isEmpty then [] else [last]).map String.ofList

def startsWith (s p : String) : Bool := p.toList.isPrefixOf s.toList

def endsWith (s p : String) : Bool := p.toList.reverse.isPrefixOf s.toList.reverse

/-- What follows `p` at the start of `s`. -/
def after? (s p : String) : Option String :=
  if startsWith s p then some (String.ofList (s.toList.drop p.length)) else none

/-- What precedes `p` at the end of `s`. -/
def before? (s p : String) : Option String :=
  if endsWith s p then some (String.ofList (s.toList.take (s.length - p.length))) else none

/-- Cuts a list at the first place where `p` stands. -/
def cutChars (p : List Char) : List Char → Option (List Char × List Char)
  | [] => if p.isEmpty then some ([], []) else none
  | c :: r =>
    if p.isPrefixOf (c :: r) then some ([], (c :: r).drop p.length)
    else (cutChars p r).map fun x => (c :: x.1, x.2)

/-- The texts before and after the first `p`. -/
def cut? (s p : String) : Option (String × String) :=
  (cutChars p.toList s.toList).map fun x => (String.ofList x.1, String.ofList x.2)

def contains (s p : String) : Bool := (cutChars p.toList s.toList).isSome

def join (sep : String) (xs : List String) : String := String.intercalate sep xs

end EditorAgent.Text

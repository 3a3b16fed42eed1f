import EditorAgent.Text.Word

/-!
# Token patterns

Regular expressions over letters. A letter is an ASCII character or one of three classes of the other
characters: those that start a word, those that only go on with one, and the rest.
`Pattern.after` takes a leading letter off a pattern, so that a pattern is its own automaton.
-/

namespace EditorAgent.Syntax

/-- A set of letters, one bit for each. -/
abbrev Letters := Nat

namespace Letters

def wordStarter : Nat := 128
def wordExtender : Nat := 129
/-- Also the letter of a byte that belongs to no character. -/
def other : Nat := 130

def ofChar (c : Char) : Nat :=
  if c.toNat < 128 then c.toNat
  else if Text.startsWord c then wordStarter
  else if Text.continuesWord c then wordExtender
  else other

def single (c : Char) : Letters := 1 <<< c.toNat

def ofString (s : String) : Letters := s.toList.foldl (fun ls c => ls ||| single c) 0

def range (lo hi : Char) : Letters := (2 <<< hi.toNat) - (1 <<< lo.toNat)

def all : Letters := (2 <<< other) - 1

/-- Every letter but NUL and the characters of `s`. -/
def except (s : String) : Letters := all - (1 ||| ofString s)

def blank : Letters := range '\t' '\r' ||| single ' '

def digit : Letters := range '0' '9'

def wordStart : Letters := range 'a' 'z' ||| range 'A' 'Z' ||| single '_' ||| (1 <<< wordStarter)

def wordPart : Letters := wordStart ||| digit ||| (1 <<< wordExtender)

/-- The parts of `atoms` inside and outside of `ls`. -/
def refine (atoms : List Letters) (ls : Letters) : List Letters :=
  atoms.flatMap fun a =>
    let inside := a &&& ls
    [inside, a - inside].filter (· != 0)

end Letters

inductive Pattern where
  | never
  | done
  | one (ls : Letters)
  | both (p q : Pattern)
  | either (p q : Pattern)
  | many (p : Pattern)
deriving DecidableEq, Repr, Inhabited

namespace Pattern

def nullable : Pattern → Bool
  | never => false
  | done => true
  | one _ => false
  | both p q => p.nullable && q.nullable
  | either p q => p.nullable || q.nullable
  | many _ => true

/-- The letters a match can begin with. -/
def starts : Pattern → Letters
  | never => 0
  | done => 0
  | one ls => ls
  | both p q => if p.nullable then p.starts ||| q.starts else p.starts
  | either p q => p.starts ||| q.starts
  | many p => p.starts

/-- The sets of letters a pattern is made of. -/
def sets : Pattern → List Letters
  | never => []
  | done => []
  | one ls => [ls]
  | both p q => p.sets ++ q.sets
  | either p q => p.sets ++ q.sets
  | many p => p.sets

def join : Pattern → Pattern → Pattern
  | never, _ => never
  | done, q => q
  | both p q, r => both p (join q r)
  | p, q => if q = never then never else both p q

/-- Whether `p` is among the alternatives of a pattern. -/
def offers (p : Pattern) : Pattern → Bool
  | either q r => p == q || offers p r
  | q => p == q

def union : Pattern → Pattern → Pattern
  | never, q => q
  | either p r, q => union p (union r q)
  | p, q => if q = never then p else if offers p q then q else either p q

/-- What is left to match once the letter `l` was read. -/
def after (l : Nat) : Pattern → Pattern
  | never => never
  | done => never
  | one ls => if ls.testBit l then done else never
  | both p q =>
    let rest := join (after l p) q
    if p.nullable then union rest (after l q) else rest
  | either p q => union (after l p) (after l q)
  | many p => join (after l p) (many p)

def text (s : String) : Pattern := s.toList.foldr (fun c p => join (one (Letters.single c)) p) done

def seq (ps : List Pattern) : Pattern := ps.foldr join done

def choice (ps : List Pattern) : Pattern := ps.foldr union never

def opt (p : Pattern) : Pattern := union p done

def some (p : Pattern) : Pattern := join p (many p)

def times (n : Nat) (p : Pattern) : Pattern := seq (List.replicate n p)

def oneOf (s : String) : Pattern := one (Letters.ofString s)

end Pattern
end EditorAgent.Syntax

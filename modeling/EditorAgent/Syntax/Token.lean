import EditorAgent.Syntax.Pattern

/-!
# Tokens

A lexicon is a list of tokens; the number of a token is its place in the list, counted from 1, and 0 is the end
of the input. Several tokens are matched side by side, one thread for each. The longest match wins; among matches of
one length the higher priority, then a fixed text before a pattern, then the token listed first.
-/

namespace EditorAgent.Syntax

/-- How a part of the syntax tree is seen: not at all, only as one of the kinds it is a name for, as plain text,
or as a node with a name. -/
inductive Sight where
  | hidden
  | family
  | plain
  | named
deriving DecidableEq, Repr, Inhabited

def Sight.isVisible : Sight → Bool
  | hidden => false
  | family => false
  | plain => true
  | named => true

structure Token where
  name : String
  sight : Sight
  pattern : Pattern
  /-- What its nodes are called. -/
  kind : String := name
  priority : Nat := 0
  fixed : Bool := false
  /-- Whether it starts right where the token before it ended. -/
  immediate : Bool := false
deriving Repr, Inhabited

namespace Token

def ofText (s : String) : Token := { name := s, sight := .plain, pattern := Pattern.text s, fixed := true }

def rank (t : Token) : Nat := (if t.fixed then 2 else 0) + if t.immediate then 1 else 0

end Token

abbrev Lexicon := Array Token

/-- One token being matched: whether blanks before it may still be skipped, and what is left to match. -/
structure Thread where
  token : Nat
  waiting : Bool
  rest : Pattern
deriving DecidableEq, Repr, Inhabited

namespace Lexicon

def token (lx : Lexicon) (n : Nat) : Token := lx.getD (n - 1) default

def thread (lx : Lexicon) (n : Nat) : Thread := ⟨n, !(lx.token n).immediate, (lx.token n).pattern⟩

def prefers (lx : Lexicon) (a b : Nat) : Bool :=
  let s := lx.token a
  let t := lx.token b
  s.priority > t.priority ||
    s.priority == t.priority && (s.rank > t.rank || s.rank == t.rank && a < b)

/-- The token that is complete, if one is. -/
def complete? (lx : Lexicon) (ts : List Thread) : Option Nat :=
  ts.foldl (fun best t =>
    if !t.rest.nullable then best
    else match best with
      | none => some t.token
      | some b => if lx.prefers b t.token then best else some t.token) none

/-- What a letter does to the threads that can read it. -/
structure Move where
  threads : List Thread
  /-- The letter is a blank before every one of the tokens. -/
  skips : Bool
  priority : Nat
deriving Repr, Inhabited

def move (lx : Lexicon) (ts : List Thread) (l : Nat) : Move :=
  ts.foldr (fun t m =>
    let rest := t.rest.after l
    let skips := t.waiting && Letters.blank.testBit l
    if rest = .never then
      if skips then { m with threads := lx.thread t.token :: m.threads } else m
    else
      let next := if skips then rest.union (lx.token t.token).pattern else rest
      ⟨⟨t.token, skips, next⟩ :: m.threads, false, max m.priority (lx.token t.token).priority⟩)
    ⟨[], true, 0⟩

/-- Whether reading on is preferred to the complete token `c`. -/
def goesOn (lx : Lexicon) (c : Nat) (waiting : Bool) (m : Move) : Bool :=
  let p := (lx.token c).priority
  m.priority > p ||
    m.priority == p && !m.skips && !(waiting && m.threads.all fun t => t.token != c)

/-- Reads a letter; `none` if no token goes on with it. -/
def step? (lx : Lexicon) (ts : List Thread) (l : Nat) : Option Move :=
  let m := lx.move ts l
  if m.threads.isEmpty then none
  else match lx.complete? ts with
    | none => some m
    | some c => if lx.goesOn c (ts.any (·.waiting)) m then some m else none

end Lexicon
end EditorAgent.Syntax

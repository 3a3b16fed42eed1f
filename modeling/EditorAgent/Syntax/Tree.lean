import EditorAgent.Syntax.Language
import EditorAgent.Syntax.Source

/-!
# Syntax trees

Trees as they are built, with the blanks before each and the cost of the mistakes in it.
-/

namespace EditorAgent.Syntax

namespace Tree

/-- The symbol of what could not be understood. -/
def errorSymbol : Symbol := 65535

/-- The symbol of a list of tokens passed over, which becomes part of an error. -/
def skippedSymbol : Symbol := 65534

structure Head where
  symbol : Symbol
  /-- The blanks before it. -/
  padding : Extent := {}
  size : Extent := {}
  isVisible : Bool := false
  /-- It may stand anywhere. -/
  isExtra : Bool := false
  /-- It is not there, but was expected. -/
  isMissing : Bool := false
  cost : Nat := 0
  /-- The visible nodes among its children, those of hidden ones included. -/
  shown : Nat := 0
  /-- All visible nodes below it. -/
  below : Nat := 0
  weight : Int := 0
  layout : Nat := 0
  /-- A word that begins with a keyword. -/
  isKeyword : Bool := false
  /-- The state it was read in. -/
  state : Nat := 0
deriving DecidableEq, Repr, Inhabited

end Tree

inductive Tree where
  | node (head : Tree.Head) (children : List Tree)
deriving Inhabited, Repr

namespace Tree

def head : Tree → Head
  | node h _ => h

def children : Tree → List Tree
  | node _ cs => cs

def symbol (t : Tree) : Symbol := t.head.symbol
def cost (t : Tree) : Nat := t.head.cost
def weight (t : Tree) : Int := t.head.weight
def isExtra (t : Tree) : Bool := t.head.isExtra
def extent (t : Tree) : Extent := t.head.padding + t.head.size

def setExtra (extra : Bool) : Tree → Tree
  | node h cs => node { h with isExtra := extra } cs

def addWeight (w : Int) : Tree → Tree
  | node h cs => node { h with weight := h.weight + w } cs

/-- How many visible nodes a tree adds; a list of skipped tokens counts. -/
def nodeCount (t : Tree) : Nat :=
  t.head.below + (if t.head.isVisible then 1 else 0) + if t.symbol = skippedSymbol then 1 else 0

def isVisible (l : Language) (s : Symbol) : Bool :=
  if s = errorSymbol then true else ((l.kinds.getD s default).1).isVisible

def token (l : Language) (s : Symbol) (padding size : Extent) (state : Nat) (isKeyword : Bool) : Tree :=
  node { symbol := s, padding, size, isVisible := isVisible l s, isExtra := s == 0, isKeyword, state } []

/-! What a mistake costs. -/

def missingCost : Nat := 110
def errorCost : Nat := 500
def skippedTreeCost : Nat := 100
def skippedRowCost : Nat := 30

def missing (l : Language) (s : Symbol) : Tree :=
  node { symbol := s, isVisible := isVisible l s, isMissing := true, cost := missingCost + errorCost } []

/-- A keyword read as a plain word. -/
def asWord (l : Language) : Tree → Tree
  | node h cs => node { h with symbol := Language.word, isVisible := isVisible l Language.word } cs

/-- The cost of a tree that is part of an error, apart from its own mistakes. -/
def skipCost (c : Tree) : Nat :=
  if c.isExtra || c.symbol = errorSymbol && c.children.isEmpty then 0
  else if c.head.isVisible then skippedTreeCost
  else skippedTreeCost * c.head.shown

/-- Adds a child to what is known of a node; `kind` is the kind the child is given. -/
def Head.addChild (h : Head) (isFirst inError : Bool) (kind : Option String) (c : Tree) : Head :=
  let k := c.head
  let isSeen := k.isVisible || kind.isSome && !k.isExtra && k.symbol != 0
  { h with
    padding := if isFirst then k.padding else h.padding
    size := if isFirst then k.size else h.size + c.extent
    cost := h.cost + (if k.symbol = skippedSymbol then 0 else k.cost) + if inError then skipCost c else 0
    weight := h.weight + k.weight
    shown := h.shown + if isSeen then 1 else k.shown
    below := h.below + k.below + if isSeen then 1 else 0 }

/-- A node of the given symbol and children. -/
def build (l : Language) (s : Symbol) (layout : Nat) (cs : List Tree) : Tree :=
  let inError := s = errorSymbol || s = skippedSymbol
  let rec go (h : Head) (isFirst : Bool) (parts : Layout) : List Tree → Head
    | [] => h
    | c :: r =>
      let kind := parts.head?.bind (·.1)
      go (h.addChild isFirst inError kind c) false (if c.isExtra then parts else parts.tail) r
  let h := go { symbol := s, isVisible := isVisible l s, layout } true (l.layouts.getD layout []) cs
  let own := if inError then errorCost + h.size.bytes + skippedRowCost * h.size.rows else 0
  node { h with cost := h.cost + own } cs

mutual

/-- Orders trees by their symbols, then by the number of children, then by the children. -/
def compare : Tree → Tree → Ordering
  | node h cs, node k ds =>
    (Ord.compare h.symbol k.symbol).then
      ((Ord.compare cs.length ds.length).then (compareAll cs ds))

def compareAll : List Tree → List Tree → Ordering
  | c :: cs, d :: ds => (compare c d).then (compareAll cs ds)
  | _, _ => .eq

end

/-- Whether `b` is the better of two trees for one text. -/
def isBetter (a b : Tree) : Bool :=
  if a.cost != b.cost then b.cost < a.cost
  else if a.weight != b.weight then b.weight > a.weight
  else a.cost > 0 || compare a b == .gt

/-- Whether two trees need not be kept apart. -/
def isLike (a b : Tree) : Bool :=
  a.symbol == b.symbol && (a.cost > 0 && b.cost > 0 ||
    a.head.padding.bytes == b.head.padding.bytes && a.head.size.bytes == b.head.size.bytes &&
      a.children.length == b.children.length && a.isExtra == b.isExtra)

end Tree
end EditorAgent.Syntax

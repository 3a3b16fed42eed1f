import Std.Data.HashMap
import EditorAgent.Syntax.Token

/-!
# Grammars

Rules in the extended notation, with choices, options and repetitions, and the plain productions they stand for.
A repetition becomes a rule of its own, which is a list of one or more.
-/

namespace EditorAgent.Syntax

inductive Side where
  | left
  | right
deriving DecidableEq, Repr, Inhabited

/-- What is said about a part of a rule. -/
structure Note where
  /-- Binding strength. -/
  strength : Option Int := none
  side : Option Side := none
  /-- Of two readings of one text the heavier one is taken. -/
  weight : Int := 0
  /-- The kind a node has here in place of its own. -/
  kind : Option String := none
  field : Option String := none
deriving DecidableEq, Repr, Inhabited

inductive Rule where
  | blank
  | ref (name : String)
  | both (a b : Rule)
  | either (a b : Rule)
  | many (r : Rule)
  | noted (n : Note) (r : Rule)
deriving DecidableEq, Repr, Inhabited

namespace Rule

instance : Coe String Rule := ⟨ref⟩

def seq : List Rule → Rule
  | [] => blank
  | [r] => r
  | r :: rs => both r (seq rs)

def choice : List Rule → Rule
  | [] => blank
  | [r] => r
  | r :: rs => either r (choice rs)

def opt (r : Rule) : Rule := either r blank

def any (r : Rule) : Rule := opt (many r)

def separated (mark r : Rule) : Rule := both r (any (both mark r))

/-- One or more, with commas between. -/
def listed (r : Rule) : Rule := separated "," r

def strong (n : Int) (r : Rule) : Rule := noted { strength := some n } r

def leftStrong (n : Int) (r : Rule) : Rule := noted { strength := some n, side := some .left } r

def rightStrong (n : Int) (r : Rule) : Rule := noted { strength := some n, side := some .right } r

def weighing (n : Int) (r : Rule) : Rule := noted { weight := n } r

def field (name : String) (r : Rule) : Rule := noted { field := some name } r

def as (kind : String) (r : Rule) : Rule := noted { kind := some kind } r

/-- The contents of the repetitions in a rule, the inner ones first. -/
def repeated : Rule → List Rule
  | blank => []
  | ref _ => []
  | both a b => a.repeated ++ b.repeated
  | either a b => a.repeated ++ b.repeated
  | many r => r.repeated ++ [r]
  | noted _ r => r.repeated

end Rule

/-- A symbol of a production: 0 is the end of the input, then come the tokens, then the rules. -/
abbrev Symbol := Nat

structure Part where
  symbol : Symbol
  kind : Option String := none
  field : Option String := none
deriving DecidableEq, Hashable, Repr, Inhabited

structure Production where
  parts : List Part := []
  strength : Option Int := none
  side : Option Side := none
  weight : Int := 0
deriving DecidableEq, Repr, Inhabited

namespace Production

def append (p q : Production) : Production where
  parts := p.parts ++ q.parts
  strength := p.strength <|> q.strength
  side := p.side <|> q.side
  weight := if q.weight.natAbs > p.weight.natAbs then q.weight else p.weight

def note (n : Note) (p : Production) : Production where
  parts := p.parts.map fun s => { s with kind := s.kind <|> n.kind, field := s.field <|> n.field }
  strength := p.strength <|> n.strength
  side := p.side <|> n.side
  weight := if p.weight.natAbs > n.weight.natAbs then p.weight else n.weight

end Production

/-- The productions of a rule, where `symbolOf` gives the symbol of a name and `listOf` that of a repetition. -/
def Rule.productions (symbolOf : String → Symbol) (listOf : Rule → Symbol) : Rule → List Production
  | blank => [{}]
  | ref n => [{ parts := [⟨symbolOf n, none, none⟩] }]
  | both a b =>
    let right := b.productions symbolOf listOf
    (a.productions symbolOf listOf).flatMap fun p => right.map p.append
  | either a b => a.productions symbolOf listOf ++ b.productions symbolOf listOf
  | many r => [{ parts := [⟨listOf r, none, none⟩] }]
  | noted n r => (r.productions symbolOf listOf).map (Production.note n)

structure NamedRule where
  name : String
  sight : Sight
  rule : Rule
deriving Inhabited

/-- A lexicon, whose first token is the word that keywords are taken from, and rules, whose first is that of a
whole text. -/
structure Grammar where
  lexicon : Lexicon
  rules : List NamedRule
  /-- A token that may stand anywhere. -/
  extra : String

namespace Grammar

variable (g : Grammar)

/-- The repetitions, each once. -/
def lists : List Rule :=
  (g.rules.flatMap (·.rule.repeated)).foldl (fun seen r => if seen.contains r then seen else seen ++ [r]) []

def tokenCount : Nat := g.lexicon.size + 1

def names : Std.HashMap String Symbol :=
  let tokens := g.lexicon.toList.map (·.name)
  Std.HashMap.ofList ((tokens ++ g.rules.map (·.name)).zipIdx.map fun (n, i) => (n, i + 1))

def extraSymbol : Symbol := (g.names[g.extra]?).getD 0

/-- The productions of every rule, those of the repetitions after the others. -/
def productions : Array (List Production) :=
  let names := g.names
  let lists := g.lists
  let base := g.tokenCount + g.rules.length
  let symbolOf n := (names[n]?).getD 0
  let listOf r := base + lists.idxOf r
  let plain := g.rules.map fun r => (r.rule.productions symbolOf listOf).eraseDups
  let repeats := lists.zipIdx.map fun (r, i) =>
    let self : Part := ⟨base + i, none, none⟩
    { parts := [self, self] } :: (r.productions symbolOf listOf).eraseDups
  (plain ++ repeats).toArray

/-- How the nodes of each symbol are seen and called. -/
def kinds : Array (Sight × String) :=
  let tokens := g.lexicon.toList.map fun t => (t.sight, t.kind)
  let rules := g.rules.map fun r => (r.sight, r.name)
  ((Sight.hidden, "end") :: tokens ++ rules ++ g.lists.map fun _ => (Sight.hidden, "")).toArray

end Grammar
end EditorAgent.Syntax

import EditorAgent.Syntax.Rule

/-!
# Items

An item is a production with a dot in it. Two items that agree in all that lies ahead, and in the names given to
what lies behind, are one. Sets of tokens are bit masks.
-/

namespace EditorAgent.Syntax

abbrev TokenSet := Nat

/-- What tells items apart; a part behind the dot counts with the symbol 0. -/
structure ItemKey where
  rule : Nat
  dot : Nat
  strength : Option Int
  side : Option Bool
  weight : Int
  parts : List Part
deriving BEq, Hashable

structure Item where
  /-- The number of the rule, from 0; the item of the whole text has the number after the last. -/
  rule : Nat
  production : Production
  dot : Nat
  /-- The symbol behind the dot and the one after it. -/
  next : Option Symbol
  afterNext : Option Symbol
  /-- The item with the dot one further. -/
  successor : Nat
deriving Inhabited

/-- An item that comes with a rule, the tokens that always follow it there, and whether what follows the rule
may follow it too. -/
structure Addition where
  item : Nat
  follow : TokenSet
  passes : Bool
deriving Inhabited

structure Items where
  tokenCount : Nat
  ruleCount : Nat
  items : Array Item
  start : Nat
  /-- By symbol, the tokens it can begin with. -/
  first : Array TokenSet
  /-- By rule. -/
  additions : Array (List Addition)
deriving Inhabited

namespace Items

def keyOf (rule : Nat) (p : Production) (dot : Nat) : ItemKey where
  rule := rule
  dot := dot
  strength := p.strength
  side := p.side.map (· == .left)
  weight := p.weight
  parts := p.parts.zipIdx.map fun (s, i) => if i < dot then { s with symbol := 0 } else s

/-- The tokens that can stand at one end of each symbol, where `ends` picks that end of a production. -/
def edge (tokenCount : Nat) (ends : List Part → Option Part) (prods : Array (List Production)) :
    Array TokenSet :=
  let singles := (List.range tokenCount).map (1 <<< ·)
  let once (sets : Array TokenSet) : Array TokenSet :=
    prods.toList.zipIdx.foldl (fun sets (ps, r) =>
      let own := ps.foldl (fun m p => match ends p.parts with
        | some s => m ||| sets.getD s.symbol 0
        | none => m) 0
      sets.modify (tokenCount + r) (· ||| own)) sets
  (List.range prods.size).foldl (fun sets _ => once sets)
    (singles ++ List.replicate prods.size 0).toArray

/-- The rules that can come first in an expansion of `rule`, each with the tokens that follow it there and
whether it can also end the expansion. -/
def leading (tokenCount : Nat) (first : Array TokenSet) (prods : Array (List Production)) (rule : Nat) :
    Array (Option (TokenSet × Bool)) := Id.run do
  let mut found : Array (Option (TokenSet × Bool)) := Array.replicate prods.size none
  let mut todo : List (Nat × TokenSet × Bool) := [(rule, 0, true)]
  for _ in [0:prods.size * prods.size * 8] do
    match todo with
    | [] => break
    | (r, follow, passes) :: rest =>
      todo := rest
      let (f, p) := (found.getD r none).getD (0, false)
      let isNew := (found.getD r none).isNone || (passes && !p) || (f ||| follow) != f
      if isNew then
        found := found.set! r (some (f ||| follow, p || passes))
        for q in prods.getD r [] do
          match q.parts with
          | [s] => if s.symbol ≥ tokenCount then todo := (s.symbol - tokenCount, follow, passes) :: todo
          | s :: t :: _ =>
            if s.symbol ≥ tokenCount then
              todo := (s.symbol - tokenCount, first.getD t.symbol 0, false) :: todo
          | [] => pure ()
  return found

/-- All items of a grammar, in the order of dots, then rules, then weights, then lengths. -/
def ofGrammar (g : Grammar) : Items := Id.run do
  let prods := g.productions
  let whole : Production := { parts := [⟨g.tokenCount, none, none⟩] }
  let all := (prods.push [whole]).toList.zipIdx.flatMap fun (ps, r) => ps.flatMap fun p =>
    (List.range (p.parts.length + 1)).map fun dot => (r, p, dot)
  let sorted := all.mergeSort fun (r, p, i) (s, q, j) =>
    i < j || i == j && (r < s || r == s && (p.weight < q.weight || p.weight == q.weight &&
      p.parts.length ≤ q.parts.length))
  let mut ids : Std.HashMap ItemKey Nat := {}
  for (r, p, dot) in sorted do
    ids := ids.insertIfNew (keyOf r p dot) ids.size
  let idOf r p dot := (ids[keyOf r p dot]?).getD 0
  let mut items : Array Item := Array.replicate ids.size default
  for (r, p, dot) in sorted do
    let rest := p.parts.drop dot
    items := items.set! (idOf r p dot)
      ⟨r, p, dot, rest[0]?.map (·.symbol), rest[1]?.map (·.symbol), idOf r p (dot + 1)⟩
  let first := edge g.tokenCount (·.head?) prods
  let additions := (Array.range prods.size).map fun rule =>
    (leading g.tokenCount first prods rule).toList.zipIdx.flatMap fun (entry, r) =>
      match entry with
      | none => []
      | some (follow, passes) => (prods.getD r []).map fun p => ⟨idOf r p 0, follow, passes⟩
  return ⟨g.tokenCount, prods.size, items, idOf prods.size whole 0, first, additions⟩

def item (t : Items) (i : Nat) : Item := t.items.getD i default

/-- The lookaheads of every item that a state with these items has, 0 for those it does not have. -/
def closure (t : Items) (kernel : List (Nat × TokenSet)) : Array TokenSet := Id.run do
  let mut sets := Array.replicate t.items.size 0
  for (i, ahead) in kernel do
    sets := sets.modify i (· ||| ahead)
    let it := t.item i
    if let some s := it.next then
      if s ≥ t.tokenCount then
        let follow := match it.afterNext with
          | some a => t.first.getD a 0
          | none => ahead
        for a in t.additions.getD (s - t.tokenCount) [] do
          sets := sets.modify a.item (· ||| a.follow ||| if a.passes then follow else 0)
  return sets

end Items
end EditorAgent.Syntax

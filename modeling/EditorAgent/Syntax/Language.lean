import EditorAgent.Syntax.Clash
import EditorAgent.Syntax.Merge

/-!
# Languages

Everything about a grammar that a parser looks up: the actions of every state, and the tokens that are looked for
there. Fixed texts that are also words are found by looking up the word.
-/

namespace EditorAgent.Syntax

/-- Tokens looked for together. -/
structure Mode where
  tokens : TokenSet := 0
  threads : List Thread := []
  /-- Whether the end of the input is one of them. -/
  ends : Bool := false
deriving Inhabited

structure Language where
  lexicon : Lexicon
  tokenCount : Nat
  kinds : Array (Sight × String)
  layouts : Array Layout
  states : Array State
  /-- By state, the tokens that no other token there can be mistaken for. -/
  clear : Array TokenSet
  modes : Array Mode
  modeOf : Array Nat
  keywords : List (List Nat × Symbol)
deriving Inhabited

namespace Language

def word : Symbol := 1

def bits (n : Nat) (s : TokenSet) : List Nat := (List.range n).filter s.testBit

/-- The letters that may follow each token. -/
def followLetters (g : Grammar) (prods : Array (List Production)) : Array Letters := Id.run do
  let n := g.tokenCount
  let first := Items.edge n (·.head?) prods
  let last := Items.edge n (·.getLast?) prods
  let mut follow : Array TokenSet := Array.replicate n 0
  for ps in prods do
    for p in ps do
      for (a, b) in p.parts.zip p.parts.tail do
        for t in bits n (last.getD a.symbol 0) do
          follow := follow.modify t (· ||| first.getD b.symbol 0)
  let extra := g.extraSymbol
  let every := (2 <<< (n - 1)) - 2
  return ((follow.map (· ||| 1 <<< extra)).set! extra every).map fun s =>
    (bits n s).foldl (fun m t => if t = 0 then m else m ||| (g.lexicon.token t).pattern.starts) 0

/-- For each token, those that stand beside it in some state. -/
def companions (n : Nat) (states : Array State) : Array TokenSet :=
  states.foldl (fun (c : Array TokenSet) s =>
    (bits n s.tokens).foldl (fun c t => c.modify t (· ||| s.tokens)) c) (Array.replicate n 0)

/-- For each token, the tokens `t` with `p (clash with t)`. -/
def clashSet (table : Array (Array Clash)) (p : Clash → Bool) : Array TokenSet :=
  table.map fun row => (row.toList.zipIdx.map fun (c, t) => if p c then 1 <<< t else 0).foldl (· ||| ·) 0

def isKeyword (lx : Lexicon) (t : Symbol) : Bool :=
  t > word && (lx.token t).fixed &&
    ((lx.token t).name.toList.foldl (fun p c => p.after (Letters.ofChar c))
      (lx.token word).pattern).nullable

/-- What is looked for after a mistake: every token but those that would swallow one they never stand beside. -/
def errorTokens (n : Nat) (keywords : TokenSet) (beside : Array TokenSet) (table : Array (Array Clash)) :
    TokenSet :=
  let clash i j := (table.getD i #[]).getD j {}
  let apart i j := j != i && !(beside.getD i 0).testBit j
  let tokens := (List.range n).drop 1
  let harmless := tokens.filter fun i => !tokens.any fun j =>
    apart i j && ((clash i j).takesOver || (clash i j).isBlank) && !(clash j i).isBlank
  tokens.foldl (fun s i =>
    let kept := harmless.contains i || keywords.testBit i || i == word ||
      !harmless.any fun j => apart i j && (clash i j).conflicts
    if kept then s ||| 1 <<< i else s) 1

/-- Whether the tokens of two modes can be looked for together. -/
def compatible (n : Nat) (beside : Array TokenSet) (table : Array (Array Clash)) (a b : TokenSet) : Bool :=
  let clash i j := (table.getD i #[]).getD j {}
  let fits (i : Nat) (others : TokenSet) : Bool := (bits n others).all fun j =>
    j == 0 || !((clash i j).conflicts || (clash i j).cutsOff) &&
      ((beside.getD i 0).testBit j || !((clash j i).overlaps || (clash i j).overlaps))
  (bits n (a ^^^ b)).all fun i => i == 0 || fits i (if a.testBit i then b else a)

/-- The modes of the states, each state put to the first mode that its tokens go with. -/
def modesOf (n : Nat) (keywords : TokenSet) (beside : Array TokenSet) (table : Array (Array Clash))
    (states : Array State) : Array TokenSet × Array Nat := Id.run do
  let mut modes : Array TokenSet := #[]
  let mut modeOf : Array Nat := #[]
  for s in states do
    let own := s.tokens &&& keywords
    let tokens := (s.tokens ^^^ own) ||| if own = 0 then 0 else 1 <<< word
    match modes.findIdx? (compatible n beside table · tokens) with
    | some i =>
      modes := modes.modify i (· ||| tokens)
      modeOf := modeOf.push i
    | none =>
      modeOf := modeOf.push modes.size
      modes := modes.push tokens
  return (modes, modeOf)

def ofGrammar (g : Grammar) : Language :=
  let n := g.tokenCount
  let lx := g.lexicon
  let items := Items.ofGrammar g
  let kinds := g.kinds
  let listsFrom := g.rules.length
  let raw := Automaton.build items g.extraSymbol (· ≥ listsFrom) 100000
  let table := Clash.table lx (followLetters g g.productions)
  let beside := companions n raw.states
  let keyed := ((List.range n).drop 1).filter (isKeyword lx)
  let keywords := keyed.foldl (fun s t => s ||| 1 <<< t) 0
  let recovery := errorTokens n keywords beside table
  let states := raw.states.set! 0
    { tokens := recovery
      actions := (Array.range n).map fun t => if recovery.testBit t then [.recover] else []
      gotos := Array.replicate items.ruleCount 0 }
  let conflicts := (clashSet table (·.conflicts)).mapIdx fun t s =>
    if t = word then s &&& (keywords ^^^ ((2 <<< n) - 1))
    else if keywords.testBit t && s.testBit word then s ^^^ 1 <<< word
    else s
  let isHidden r := (kinds.getD r default).1 == .hidden
  let states := Merge.run conflicts n isHidden states
  let (modes, modeOf) := modesOf n keywords beside table states
  let overlapped := (List.range n).map fun t =>
    (List.range n).foldl (fun s i =>
      if ((table.getD i #[]).getD t {}).overlaps then s ||| 1 <<< i else s) 0
  { lexicon := lx
    tokenCount := n
    kinds := kinds
    layouts := raw.layouts
    states := states
    clear := states.mapIdx fun i s =>
      if i = 0 then 0
      else overlapped.zipIdx.foldl (fun m (o, t) =>
        if s.tokens.testBit t && o &&& s.tokens == 0 then m ||| 1 <<< t else m) 0
    modes := modes.map fun s => ⟨s, ((bits n s).filter (· != 0)).map lx.thread, s.testBit 0⟩
    modeOf := modeOf
    keywords := keyed.map fun t => ((lx.token t).name.toList.map Letters.ofChar, t) }

def actions (l : Language) (state : Nat) (s : Symbol) : List Action :=
  if s < l.tokenCount then (l.states.getD state default).actionsFor s else []

/-- Where a symbol leads; 0 if it leads nowhere. -/
def next (l : Language) (state : Nat) (s : Symbol) : Nat :=
  if s < l.tokenCount then
    match (l.actions state s).getLast? with
    | some (.shift t _) => t
    | some .skip => state
    | _ => 0
  else (l.states.getD state default).gotos.getD (s - l.tokenCount) 0

def mode (l : Language) (state : Nat) : Mode := l.modes.getD (l.modeOf.getD state 0) default

end Language
end EditorAgent.Syntax

import EditorAgent.Syntax.ParseState

/-!
# The token ahead

In every state only the tokens of its mode are looked for. Where none of them is found, all are; and where there is no
token at all, the text up to the next one is an error.
-/

namespace EditorAgent.Syntax

variable (l : Language) (src : Source)

namespace Lookahead

/-- The text up to the next token that is looked for after a mistake, from `start` and read up to `place`. -/
def unreadable : Nat → Extent → Extent → Extent × Extent
  | 0, start, stop => (start, stop)
  | n + 1, start, stop =>
    let m := l.mode 0
    let s := Scan.run l.lexicon src m.threads m.ends stop
    if s.symbol.isSome then (start, stop)
    else if s.place.bytes != stop.bytes then unreadable n start s.place
    else if src.atEnd s.place then (start, stop)
    else unreadable n start (src.advance s.place)

/-- A word is a keyword only if the state has something to do with it. -/
def ofScan (s : Scan) (symbol : Symbol) (start : Extent) (state : Nat) : Tree :=
  let token symbol := Tree.token l symbol (s.start - start) (s.stop - s.start) state
  if symbol = Language.word then
    let letters := src.lettersOf s.start.bytes (s.stop.bytes - s.start.bytes)
    let isKeyword := l.keywords.any fun (k, _) => k.isPrefixOf letters
    match l.keywords.find? fun (k, t) => k == letters && !(l.actions state t).isEmpty with
    | some (_, t) => token t isKeyword
    | none => token symbol isKeyword
  else token symbol false

def read (state : Nat) (start : Extent) : Tree :=
  let search (state : Nat) : Scan :=
    let m := l.mode state
    Scan.run l.lexicon src m.threads m.ends start
  let own := search state
  let s := if own.symbol.isSome then own else search 0
  match s.symbol with
  | some symbol => ofScan l src s symbol start state
  | none =>
    let next := if s.place.bytes != s.start.bytes then s.place else src.advance s.place
    let (first, last) := unreadable l src (src.size + 1) s.start next
    Tree.token l Tree.errorSymbol (first - start) (last - first) state false

/-- Whether a token that was read in another state would be read again. -/
def canReuse (t : Tree) (state : Nat) : Bool :=
  let mode i := l.modeOf.getD i 0
  let has := !(l.actions state t.symbol).isEmpty
  let h := t.head
  if has && mode h.state == mode state &&
      (h.symbol != Language.word || !h.isKeyword && h.state == state) then true
  else if h.size.bytes = 0 && h.symbol != 0 then false
  else has && (l.clear.getD state 0).testBit h.symbol

end Lookahead

/-- The token that reading `v` has ahead. -/
def Parsing.lookahead (v : Nat) : Parsing Tree := do
  let p ← get
  let f := p.top v
  let old := match p.lastToken with
    | some (b, t) => if b = f.place.bytes && Lookahead.canReuse l t f.state then some t else none
    | none => none
  match old with
  | some t => return t
  | none =>
    let t := Lookahead.read l src f.state f.place
    set { p with lastToken := some (f.place.bytes, t) }
    return t

end EditorAgent.Syntax

import EditorAgent.Syntax.Token

/-!
# Clashes between tokens

How two tokens get in each other's way when both are looked for at one place.
-/

namespace EditorAgent.Syntax

/-- What one token does to another. -/
structure Clash where
  /-- It stands although the other could read on. -/
  cutsOff : Bool := false
  /-- It reads on past the end of the other. -/
  goesPast : Bool := false
  /-- It does so with a letter that may follow the other. -/
  takesOver : Bool := false
  /-- It is complete where blanks could be skipped. -/
  isBlank : Bool := false
  /-- It wins a text that both match. -/
  wins : Bool := false
deriving DecidableEq, Repr, Inhabited

namespace Clash

def conflicts (c : Clash) : Bool := c.takesOver || c.isBlank || c.wins

def overlaps (c : Clash) : Bool := c.isBlank || c.cutsOff || c.wins || c.goesPast

/-- The clash of a token with `b` and that of `b` with it, a state of the search. -/
structure Pair where
  first : Nat
  second : Nat
  ab : Clash := {}
  ba : Clash := {}
deriving Inhabited

def Pair.mark (p : Pair) (token : Nat) (f : Clash → Clash) : Pair :=
  if token = p.first then { p with ab := f p.ab } else { p with ba := f p.ba }

variable (lx : Lexicon) (follow : Array Letters)

/-- The clashes seen with these threads, and the threads to go on with. -/
def examine (atoms : List Letters) (p : Pair) (ts : List Thread) : Pair × List (List Thread) :=
  if !(ts.any (·.token == p.first) && ts.any (·.token == p.second)) then (p, [])
  else
    let waiting := ts.any (·.waiting)
    let full := ts.filter (·.rest.nullable)
    let p := if waiting then full.foldl (fun p t => p.mark t.token ({ · with isBlank := true })) p else p
    let best := lx.complete? ts
    let p := match best with
      | some c => if full.length > 1 then p.mark c ({ · with wins := true }) else p
      | none => p
    atoms.foldl (fun (p, more) atom =>
      let m := lx.move ts atom.log2
      if m.threads.isEmpty then (p, more)
      else match best, m.threads.head? with
        | some c, some t =>
          if m.threads.any (·.token == c) then (p, m.threads :: more)
          else if lx.goesOn c waiting m then
            let meets := follow.getD c 0 &&& atom != 0
            (p.mark t.token fun k =>
              { k with goesPast := true, takesOver := k.takesOver || meets }, m.threads :: more)
          else (p.mark c ({ · with cutsOff := true }), more)
        | _, _ => (p, m.threads :: more)) (p, [])

def search (atoms : List Letters) : Nat → Pair → List (List Thread) → List (List Thread) → Pair
  | 0, p, _, _ => p
  | _ + 1, p, _, [] => p
  | n + 1, p, seen, ts :: todo =>
    if seen.contains ts then search atoms n p seen todo
    else
      let (p, more) := examine lx follow atoms p ts
      search atoms n p (ts :: seen) (more ++ todo)

/-- The clashes of tokens `a` and `b` with each other, where `follow` has the letters that may follow each
token. -/
def between (a b : Nat) : Pair :=
  let s := lx.thread a
  let t := lx.thread b
  let first := s.rest.starts
  let second := t.rest.starts
  if (first &&& (second ||| Letters.blank)) ||| (second &&& Letters.blank) == 0 &&
      !s.rest.nullable && !t.rest.nullable then ⟨a, b, {}, {}⟩
  else
    let atoms := (Letters.blank :: s.rest.sets ++ t.rest.sets).foldl Letters.refine [Letters.all]
    search lx follow atoms 10000 ⟨a, b, {}, {}⟩ [] [[s, t]]

/-- The clashes of all tokens, by the numbers of the two. -/
def table : Array (Array Clash) := Id.run do
  let n := lx.size + 1
  let mut rows : Array (Array Clash) := Array.replicate n (Array.replicate n {})
  for a in [1:n] do
    for b in [1:a] do
      let p := between lx follow a b
      rows := (rows.modify a (·.set! b p.ab)).modify b (·.set! a p.ba)
  return rows

end Clash
end EditorAgent.Syntax

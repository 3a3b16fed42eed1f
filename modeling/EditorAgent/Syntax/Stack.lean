import EditorAgent.Syntax.Tree

/-!
# Stacks that share their frames

Several readings of a text are followed at once. A frame has a link to each frame it may lie on, so that
readings which agree again after a while go on as one.
-/

namespace EditorAgent.Syntax

/-- The tree between a frame and the one below it; there is none where a mistake was found. -/
structure Link where
  frame : Nat
  tree : Option Tree
deriving Inhabited

namespace Link

def weight (k : Link) : Int := (k.tree.map (·.weight)).getD 0

def nodeCount (k : Link) : Nat := (k.tree.map (·.nodeCount)).getD 0

def isLike (a b : Link) : Bool :=
  match a.tree, b.tree with
  | some s, some t => s.isLike t
  | none, none => true
  | _, _ => false

end Link

structure Frame where
  state : Nat
  place : Extent := {}
  links : List Link := []
  cost : Nat := 0
  nodeCount : Nat := 0
  weight : Int := 0
deriving Inhabited

abbrev Frames := Array Frame

namespace Frames

def maxLinks : Nat := 8
def maxWalkers : Nat := 64

def frame (fs : Frames) (i : Nat) : Frame := fs.getD i default

/-- The frame of a state on top of frame `below`. -/
def above (fs : Frames) (below : Nat) (tree : Option Tree) (state : Nat) : Frame :=
  let f := fs.frame below
  let k : Link := ⟨below, tree⟩
  { state
    place := match tree with
      | some t => f.place + t.extent
      | none => f.place
    links := [k]
    cost := f.cost + (tree.map (·.cost)).getD 0
    nodeCount := f.nodeCount + k.nodeCount
    weight := f.weight + k.weight }

def alike (fs : Frames) (i j : Nat) : Bool :=
  let f := fs.frame i
  let g := fs.frame j
  f.state == g.state && f.place.bytes == g.place.bytes && f.cost == g.cost

/-- Adds a link to frame `i`, or the links behind it to those of a link like it. -/
def addLink : Nat → Frames → Nat → Link → Frames
  | 0, fs, _, _ => fs
  | n + 1, fs, i, k =>
    if k.frame = i then fs
    else
      let f := fs.frame i
      match f.links.findIdx? fun j => j.isLike k && (j.frame == k.frame || fs.alike j.frame k.frame) with
      | some x =>
        let j := f.links.getD x default
        if j.frame = k.frame then
          if k.weight > j.weight then
            fs.set! i { f with links := f.links.set x k, weight := (fs.frame k.frame).weight + k.weight }
          else fs
        else
          let fs := (fs.frame k.frame).links.foldl (fun fs x => addLink n fs j.frame x) fs
          let weight := (fs.frame k.frame).weight + k.weight
          fs.modify i fun f => { f with weight := max f.weight weight }
      | none =>
        if f.links.length ≥ maxLinks then fs
        else
          let g := fs.frame k.frame
          fs.set! i { f with
            links := f.links ++ [k]
            nodeCount := max f.nodeCount (g.nodeCount + k.nodeCount)
            weight := max f.weight (g.weight + k.weight) }

def addLinks (fs : Frames) (i : Nat) (ks : List Link) : Frames :=
  ks.foldl (fun fs k => addLink fs.size fs i k) fs

/-- A way down from a top frame: the trees passed, the lowest first, and how many of them count. -/
structure Walker where
  frame : Nat
  trees : List Tree := []
  depth : Nat := 0
deriving Inhabited

def Walker.follow (w : Walker) (k : Link) : Walker where
  frame := k.frame
  trees := match k.tree with
    | some t => t :: w.trees
    | none => w.trees
  depth := match k.tree with
    | some t => if t.isExtra then w.depth else w.depth + 1
    | none => w.depth + 1

/-- What to do with a walker. -/
structure Visit where
  takes : Bool := false
  stops : Bool := false

/-- The ways to one frame. -/
structure Arrival where
  frame : Nat
  ways : List (List Tree)
deriving Inhabited

def arrive (w : Walker) : List Arrival → List Arrival
  | [] => [⟨w.frame, [w.trees]⟩]
  | a :: r => if a.frame = w.frame then { a with ways := a.ways ++ [w.trees] } :: r else a :: arrive w r

variable {σ : Type} (visit : Walker → σ → Visit × σ)

/-- Moves every walker one frame down. Where ways part, the first goes on in its place and the others start behind the
last, as long as they are not too many. -/
def walkStep (fs : Frames) :
    List Walker → List Walker → List Walker → List Arrival → σ → List Walker × List Arrival × σ
  | [], kept, added, found, s => (kept ++ added, found, s)
  | w :: todo, kept, added, found, s =>
    let (v, s) := visit w s
    let found := if v.takes then arrive w found else found
    let links := (fs.frame w.frame).links
    match v.stops, links with
    | false, k :: ks =>
      let room := maxWalkers - (kept.length + todo.length + 1 + added.length)
      walkStep fs todo (kept ++ [w.follow k]) (added ++ (ks.take room).map w.follow) found s
    | _, _ => walkStep fs todo kept added found s

def walkFrom (fs : Frames) : Nat → List Walker → List Arrival → σ → List Arrival × σ
  | 0, _, found, s => (found, s)
  | _ + 1, [], found, s => (found, s)
  | n + 1, ws, found, s =>
    let (ws, found, s) := walkStep visit fs ws [] [] found s
    walkFrom fs n ws found s

/-- Walks down from frame `i` along all ways. -/
def walk (fs : Frames) (i : Nat) (s : σ) : List Arrival × σ :=
  walkFrom visit fs (fs.size + 1) [⟨i, [], 0⟩] [] s

/-- The ways over `n` trees. -/
def pop (fs : Frames) (i n : Nat) : List Arrival :=
  (walk (fun w _ => (⟨w.depth == n, w.depth == n⟩, ())) fs i ()).1

/-- The ways to the bottom. -/
def popAll (fs : Frames) (i : Nat) : List (List Tree) :=
  ((walk (fun w _ => (⟨(fs.frame w.frame).links.isEmpty, false⟩, ())) fs i ()).1).flatMap (·.ways)

/-- The first way over an error. -/
def popError? (fs : Frames) (i : Nat) : Option Arrival :=
  let visit (w : Walker) (found : Bool) : Visit × Bool :=
    match w.trees with
    | [] => ({}, found)
    | t :: _ => if !found && t.symbol = Tree.errorSymbol then (⟨true, true⟩, true) else (⟨false, true⟩, found)
  (walk visit fs i false).1.head?

/-- A state on the way down, where it is and how deep. -/
structure Reach where
  place : Extent
  depth : Nat
  state : Nat
deriving DecidableEq, Repr, Inhabited

def maxDepth : Nat := 16

/-- The states at each depth. -/
def summary (fs : Frames) (i : Nat) : List Reach :=
  let visit (w : Walker) (seen : List Reach) : Visit × List Reach :=
    let f := fs.frame w.frame
    if w.depth > maxDepth then (⟨false, true⟩, seen)
    else if (seen.takeWhile (·.depth ≥ w.depth)).any fun r => r.depth == w.depth && r.state == f.state then
      ({}, seen)
    else ({}, ⟨f.place, w.depth, f.state⟩ :: seen)
  (walk visit fs i []).2.reverse

end Frames
end EditorAgent.Syntax

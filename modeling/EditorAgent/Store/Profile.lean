import EditorAgent.Store.Duration

/-!
# Profiles

A tree of timings and the path of the frame that is open. A name opens the child of that name, which is
made at its first use, after its siblings.
-/

namespace EditorAgent

/-- What a frame has recorded. -/
structure Timing where
  nanos : Nat := 0
  samples : Nat := 0
deriving DecidableEq, Repr, Inhabited

inductive ProfileNode where
  | mk (name : String) (timing : Timing) (children : List ProfileNode)
deriving Repr, Inhabited

namespace ProfileNode

def name : ProfileNode → String
  | .mk name _ _ => name

def timing : ProfileNode → Timing
  | .mk _ timing _ => timing

def children : ProfileNode → List ProfileNode
  | .mk _ _ children => children

def leaf (name : String) : ProfileNode := .mk name {} []

def child? (n : ProfileNode) (name : String) : Option ProfileNode :=
  n.children.find? fun c => c.name == name

/-- Changes the child of a name, or the new child made for it at the end. -/
def upsert (name : String) (f : ProfileNode → ProfileNode) : List ProfileNode → List ProfileNode
  | [] => [f (leaf name)]
  | c :: cs => if c.name = name then f c :: cs else c :: upsert name f cs

/-- Changes the timing at the end of a path, making the nodes on the way. -/
def update (f : Timing → Timing) : List String → ProfileNode → ProfileNode
  | [], .mk name timing children => .mk name (f timing) children
  | k :: path, .mk name timing children => .mk name timing (upsert k (update f path) children)

def timingAt : List String → ProfileNode → Timing
  | [], n => n.timing
  | k :: path, n => match n.child? k with
    | some c => timingAt path c
    | none => {}

mutual

/-- A line per node: name, duration, and the number of samples if there are several. -/
def render (indent : String) (depth : Nat) : ProfileNode → String
  | .mk name timing children =>
    let count := if 2 ≤ timing.samples then s!"*{timing.samples}" else ""
    String.join (List.replicate depth indent) ++ name ++ ": " ++ Duration.render timing.nanos
      ++ count ++ "\n" ++ renderAll indent (depth + 1) children

def renderAll (indent : String) (depth : Nat) : List ProfileNode → String
  | [] => ""
  | c :: cs => render indent depth c ++ renderAll indent depth cs

end

end ProfileNode

structure Profile where
  enabled : Bool
  root : ProfileNode
  /-- The open frames, from the root on. -/
  path : List String
deriving Repr, Inhabited

namespace Profile

def make (name : String) (enabled : Bool) : Profile := ⟨enabled, .leaf name, []⟩

def push (p : Profile) (name : String) : Profile :=
  if p.enabled then
    let path := p.path ++ [name]
    { p with root := p.root.update id path, path }
  else p

/-- The sum of a node's recorded time and `nanos`, counted as a sample unless it no longer fits. -/
def record (p : Profile) (path : List String) (nanos : Nat) : Profile × Bool :=
  let sum := (p.root.timingAt path).nanos + nanos
  if Duration.fits sum then
    ({ p with root := p.root.update (fun t => ⟨sum, t.samples + 1⟩) path }, true)
  else ({ p with root := p.root.update id path }, false)

/-- Closes the open frame, which took `nanos`. The second component is false if the sum does not fit. -/
def pop (p : Profile) (nanos : Nat) : Profile × Bool :=
  if p.enabled && !p.path.isEmpty then
    let (q, ok) := p.record p.path nanos
    ({ q with path := p.path.dropLast }, ok)
  else (p, true)

/-- Records a duration for a child of the open frame. The second component is false if the sum does not
fit. -/
def sample (p : Profile) (name : String) (nanos : Nat) : Profile × Bool :=
  if p.enabled then p.record (p.path ++ [name]) nanos else (p, true)

def render (p : Profile) (indent : String) : String := p.root.render indent 0

end Profile
end EditorAgent

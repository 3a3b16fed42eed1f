import EditorAgent.Syntax.Tree

/-!
# Nodes

What is seen of a syntax tree. The children of a hidden tree stand in its place.
-/

namespace EditorAgent.Syntax

namespace Node

structure Info where
  kind : String
  isNamed : Bool
  /-- The part it plays in its parent. -/
  field : Option String := none
  start : Extent
  size : Extent
  isError : Bool := false
  isMissing : Bool := false
  hasError : Bool := false
deriving DecidableEq, Repr, Inhabited

end Node

inductive Node where
  | mk (info : Node.Info) (children : List Node)
deriving Inhabited, Repr

namespace Node

def info : Node → Info
  | mk i _ => i

def children : Node → List Node
  | mk _ cs => cs

def kind (n : Node) : String := n.info.kind
def field (n : Node) : Option String := n.info.field
def start (n : Node) : Extent := n.info.start

def namedChildren (n : Node) : List Node := n.children.filter (·.info.isNamed)

def childrenIn (n : Node) (field : String) : List Node := n.children.filter (·.field == some field)

def child? (n : Node) (field : String) : Option Node := n.children.find? (·.field == some field)

variable (l : Language)

def infoOf (h : Tree.Head) (start : Extent) (kind field : Option String) : Info :=
  let isError := h.symbol = Tree.errorSymbol
  let (sight, name) := if isError then (.named, "ERROR") else l.kinds.getD h.symbol default
  { kind := kind.getD name
    isNamed := kind.isSome || sight == .named
    field
    start
    size := h.size
    isError
    isMissing := h.isMissing
    hasError := h.cost > 0 }

mutual

/-- What is seen of a tree that starts at a place, after its blanks. -/
def ofTree (start : Extent) (kind field : Option String) : Tree → List Node
  | .node h cs =>
    if kind.isSome || h.isVisible then
      [mk (infoOf l h start kind (if h.isExtra then none else field))
        (ofTrees start true (l.layouts.getD h.layout []) none cs)]
    else ofTrees start true (l.layouts.getD h.layout []) field cs

/-- What is seen of trees in a row. -/
def ofTrees (place : Extent) (isFirst : Bool) (parts : Layout) (field : Option String) : List Tree → List Node
  | [] => []
  | .node h cs :: r =>
    let start := if isFirst then place else place + h.padding
    let part := if h.isExtra then (none, none) else parts.headD (none, none)
    ofTree start part.1 (part.2 <|> field) (.node h cs) ++
      ofTrees (start + h.size) false (if h.isExtra then parts else parts.tail) field r

end

def ofRoot (t : Tree) : Node := ((ofTree l t.head.padding none none t).head?).getD default

end Node
end EditorAgent.Syntax

import EditorAgent.Text.Blank

/-!
# Paths

A path is a text; `components` is its meaning. Empty and `.` elements mean nothing, except a `.` that
opens a relative path.
-/

namespace EditorAgent.Path

inductive Component where
  | root
  | here
  | up
  | name (s : String)
deriving DecidableEq, Repr, Inhabited

def isAbsolute (p : String) : Bool := p.toList.head? = some '/'

/-- The elements between slashes, without the root. -/
def elements (p : String) : List String :=
  let parts := Text.split (· == '/') p
  if isAbsolute p then parts.drop 1 else parts

/-- The component of an element, if it is one. Only the first of a relative path may be `.`. -/
def component? (opening : Bool) (e : String) : Option Component :=
  if e = "" then none
  else if e = "." then (if opening then some .here else none)
  else if e = ".." then some .up
  else some (.name e)

def relativeComponents (opening : Bool) : List String → List Component
  | [] => []
  | e :: es => (component? opening e).toList ++ relativeComponents false es

def components (p : String) : List Component :=
  if isAbsolute p then .root :: relativeComponents false (elements p)
  else relativeComponents true (elements p)

def Component.text : Component → String
  | .root => "/"
  | .here => "."
  | .up => ".."
  | .name s => s

/-- Appends a path; an absolute one takes over. -/
def join (p q : String) : String :=
  if isAbsolute q then q
  else if p = "" || Text.endsWith p "/" then p ++ q
  else p ++ "/" ++ q

def ofComponents (cs : List Component) : String := cs.foldl (fun p c => join p c.text) ""

/-- Two spellings of one path. -/
def same (p q : String) : Bool := components p == components q

def fileName? (p : String) : Option String :=
  match (components p).getLast? with
  | some (.name s) => some s
  | _ => none

/-- How many leading elements remain when the last component is cut off; `none` if there is none. -/
def parentElements (p : String) : Option Nat :=
  let es := elements p
  let isComponent (i : Nat) : Bool :=
    (component? (i == 0 && !isAbsolute p) (es.getD i "")).isSome
  match ((List.range es.length).filter isComponent).reverse with
  | [] => none
  | [_] => some 0
  | _ :: i :: _ => some (i + 1)

/-- The path without its last component, spelled as before. -/
def parent? (p : String) : Option String :=
  (parentElements p).map fun n =>
    (if isAbsolute p then "/" else "") ++ Text.join "/" ((elements p).take n)

/-- Splits a file name at its last dot, unless that opens the name. -/
def splitExtension (name : String) : String × Option String :=
  if name = ".." then (name, none)
  else
    let cs := name.toList.reverse
    let ext := (cs.takeWhile (· != '.')).reverse
    match cs.dropWhile (· != '.') with
    | [] => (name, none)
    | _ :: [] => (name, none)
    | _ :: stem => (String.ofList stem.reverse, some (String.ofList ext))

def extension? (p : String) : Option String := (fileName? p).bind fun n => (splitExtension n).2

/-- The components of `p` after those of `base`, if `p` lies at or below it. -/
def below? (p base : String) : Option (List Component) :=
  let b := components base
  if b.isPrefixOf (components p) then some ((components p).drop b.length) else none

def startsWith (p base : String) : Bool := (below? p base).isSome

end EditorAgent.Path

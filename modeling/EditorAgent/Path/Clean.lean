import EditorAgent.Path.Basic

/-!
# Clean paths

Cleaning works on a path's components from the left: `.` is dropped, and `..` takes back the component
before it. Where there is nothing to take back, at the start or after the root, `..` stays.
-/

namespace EditorAgent.Path

/-- One component of a path after the clean ones, given last first. -/
def cleanStep (acc : List Component) : Component → List Component
  | .here => acc
  | .up => match acc with
    | [] => [.up]
    | [.root] => [.up, .root]
    | _ :: rest => rest
  | c => c :: acc

def cleanComponents (cs : List Component) : List Component := (cs.foldl cleanStep []).reverse

/-- The path without `.` and with `..` resolved; `.` if nothing is left. -/
def clean (p : String) : String :=
  match cleanComponents (components p) with
  | [] => "."
  | cs => ofComponents cs

/-- One spelling for all spellings of a path. -/
def normal (p : String) : String := ofComponents (components p)

/-- What a component is ordered by: the root, `.` and `..` come before names, and names go by their characters. -/
def Component.rank : Component → List Nat
  | .root => [0]
  | .here => [1]
  | .up => [2]
  | .name s => 3 :: s.toList.map Char.toNat

/-- Whether a path comes before another or is the same, component by component. -/
def precedes (p q : String) : Bool :=
  (compare ((components p).map Component.rank) ((components q).map Component.rank)).isLE

/-- The path below a base, with slashes; `none` if it does not lie at or below it. -/
def relative? (p base : String) : Option String :=
  (below? p base).map fun cs => Text.join "/" (cs.map Component.text)

/-- The elements after the first `n` components. -/
def elementsAfter (opening : Bool) : Nat → List String → List String
  | 0, es => es
  | _, [] => []
  | n + 1, e :: es =>
    elementsAfter false (if (component? opening e).isSome then n else n + 1) es

/-- The path below a base, spelled as in `p`. -/
def strip? (p base : String) : Option String :=
  if startsWith p base then
    let n := (components base).length - (if isAbsolute p then 1 else 0)
    let rest := elementsAfter (!isAbsolute p) n (elements p)
    let isBlank (e : String) : Bool := e = "" || e = "."
    some (Text.join "/" ((rest.dropWhile isBlank).reverse.dropWhile isBlank).reverse)
  else none

/-- The paths above a path, the nearest first; at most `n` of them. -/
def ancestorsUpTo : Nat → String → List String
  | 0, _ => []
  | n + 1, p => match parent? p with
    | some q => q :: ancestorsUpTo n q
    | none => []

def ancestors (p : String) : List String := ancestorsUpTo (components p).length p

end EditorAgent.Path

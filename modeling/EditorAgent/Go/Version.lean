import EditorAgent.Text.Blank
import EditorAgent.Text.Digit

/-!
# Versions

A version is `v` and one to three numbers; after three of them may follow a pre-release and a build, each
a list of identifiers. A module path in a cache directory has its capitals marked.
-/

namespace EditorAgent.Go

/-- `0`, or digits that do not start with it; all but the first may be digits of any script. -/
def isVersionNumber (s : List Char) : Bool :=
  match s with
  | ['0'] => true
  | c :: r => '1' ≤ c && c ≤ '9' && r.all Text.isDecimal
  | [] => false

def isIdentifierChar (c : Char) : Bool := c.isAlphanum || c = '-'

def isIdentifier (s : List Char) : Bool := !s.isEmpty && s.all isIdentifierChar

/-- Identifiers between dots. -/
def isIdentifierList (s : List Char) : Bool := (Text.splitChars (· == '.') s).all isIdentifier

/-- The part from the first `c` on, without it, if there is one. -/
def cutFrom (c : Char) (s : List Char) : List Char × Option (List Char) :=
  match s.dropWhile (· != c) with
  | [] => (s, none)
  | _ :: r => (s.takeWhile (· != c), some r)

def isVersion (v : String) : Bool :=
  match v.toList with
  | 'v' :: r =>
    let (r, build) := cutFrom '+' r
    let (r, pre) := cutFrom '-' r
    let numbers := Text.splitChars (· == '.') r
    numbers.all isVersionNumber && numbers.length ≤ 3
      && (numbers.length = 3 || (pre.isNone && build.isNone))
      && pre.all isIdentifierList && build.all isIdentifierList
  | _ => false

/-- A module path as its cache directory is named: a capital is written `!` and the small letter. -/
def encodePath (path : String) : String :=
  String.ofList (path.toList.flatMap fun c => if c.isUpper then ['!', c.toLower] else [c])

end EditorAgent.Go

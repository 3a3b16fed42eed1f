import EditorAgent.Go.Version

/-!
# Module files

`go.mod` names a module, its requirements and their replacements, a directive a line or several in a
parenthesised block. `go.sum` lists the versions that were downloaded. Directives of other kinds are
skipped.
-/

namespace EditorAgent.Go

structure Require where
  path : String
  version : String
deriving DecidableEq, Repr, Inhabited

structure Replace where
  oldPath : String
  oldVersion : Option String
  newPath : String
  newVersion : Option String
deriving DecidableEq, Repr, Inhabited

structure ModFile where
  module : String := ""
  go : Option String := none
  require : List Require := []
  replace : List Replace := []
deriving DecidableEq, Repr, Inhabited

inductive ModFileError where
  /-- A directive without its arguments; lines count from one. -/
  | malformed (line : Nat) (verb : String)
  | noModule
deriving DecidableEq, Repr, Inhabited

def ModFileError.message : ModFileError → String
  | .malformed line verb => s!"go.mod:{line}: malformed {verb} directive"
  | .noModule => "go.mod: no module declaration"

/-- Whether the replacement is a directory. -/
def Replace.isLocal (r : Replace) : Bool :=
  Text.startsWith r.newPath "/" || Text.startsWith r.newPath "."

namespace ModFile

def isQuote (c : Char) : Bool := c = '"' || c.toNat = 0x60

def unquote (s : String) : String := String.ofList (Text.trimChars isQuote s.toList)

def stripComment (line : String) : String :=
  match Text.cut? line "//" with
  | some (before, _) => Text.trim before
  | none => Text.trim line

/-- The verb of a directive and the rest of its line. -/
def splitVerb (line : String) : String × String :=
  let cs := line.toList
  (String.ofList (cs.takeWhile fun c => !Text.isBlank c),
    Text.trim (String.ofList ((cs.dropWhile fun c => !Text.isBlank c).drop 1)))

/-- A replacement's sides, around the first arrow. -/
def replace? (fields : List String) : Option Replace :=
  if fields.contains "=>" then
    match fields.takeWhile (· != "=>"), (fields.dropWhile (· != "=>")).drop 1 with
    | o :: old, n :: new =>
      if old.length ≤ 1 && new.length ≤ 1 then some ⟨o, old.head?, n, new.head?⟩ else none
    | _, _ => none
  else none

/-- Takes a directive in. -/
def apply (m : ModFile) (verb args : String) (line : Nat) : Except ModFileError ModFile :=
  let fields := (Text.words args).map unquote
  match verb with
  | "module" => match fields with
    | f :: _ => .ok { m with module := f }
    | [] => .error (.malformed line verb)
  | "go" => .ok { m with go := fields.head? }
  | "require" => match fields with
    | path :: version :: _ => .ok { m with require := m.require ++ [⟨path, version⟩] }
    | _ => .error (.malformed line verb)
  | "replace" => match replace? fields with
    | some r => .ok { m with replace := m.replace ++ [r] }
    | none => .error (.malformed line verb)
  | _ => .ok m

/-- Reads lines, the first of which has number `line`; `block` is the verb of the open block. -/
def applyLines (m : ModFile) (block : Option String) (line : Nat) :
    List String → Except ModFileError ModFile
  | [] => .ok m
  | raw :: rest =>
    let text := stripComment raw
    if text = "" then applyLines m block (line + 1) rest
    else match block with
      | some verb =>
        if text = ")" then applyLines m none (line + 1) rest
        else match apply m verb text line with
          | .ok m => applyLines m block (line + 1) rest
          | .error e => .error e
      | none =>
        let (verb, args) := splitVerb text
        if args = "(" then applyLines m (some verb) (line + 1) rest
        else match apply m verb args line with
          | .ok m => applyLines m none (line + 1) rest
          | .error e => .error e

def parse (src : String) : Except ModFileError ModFile :=
  match applyLines {} none 1 (Text.lines src) with
  | .error e => .error e
  | .ok m => if m.module = "" then .error .noModule else .ok m

end ModFile

/-- The versions listed in a `go.sum` text; lines for module files alone name no version. -/
def parseSum (src : String) : List Require :=
  (Text.lines src).filterMap fun line =>
    match Text.words line with
    | [path, version, _] => if isVersion version then some ⟨path, version⟩ else none
    | _ => none

end EditorAgent.Go

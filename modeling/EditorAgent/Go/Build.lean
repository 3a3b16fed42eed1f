import EditorAgent.Go.Constraint
import EditorAgent.Path.Clean
import EditorAgent.Store.Env

/-!
# Build contexts

The roots, the platform and the tags that packages are built for, taken from the editor's environment. A
context selects files by their names and by the constraints in their headers.
-/

namespace EditorAgent.Go

def undefinedRoot : String := "GOROOT-is-not-defined"
def undefinedPath : String := "GOPATH-is-not-defined"

def hostOs : String := "linux"
def hostArch : String := "amd64"

def defaultTags : List String := ["netgo", "osusergo"]

def knownOs : List String :=
  ["aix", "android", "darwin", "dragonfly", "freebsd", "hurd", "illumos", "ios", "js", "linux",
    "nacl", "netbsd", "openbsd", "plan9", "solaris", "wasip1", "windows", "zos"]

def knownArch : List String :=
  ["386", "amd64", "amd64p32", "arm", "armbe", "arm64", "arm64be", "loong64", "mips", "mipsle",
    "mips64", "mips64le", "mips64p32", "mips64p32le", "ppc", "ppc64", "ppc64le", "riscv",
    "riscv64", "s390", "s390x", "sparc", "sparc64", "wasm"]

def unixOs : List String :=
  ["aix", "android", "darwin", "dragonfly", "freebsd", "hurd", "illumos", "ios", "linux",
    "netbsd", "openbsd", "solaris"]

structure BuildContext where
  goroot : String
  gopath : List String
  goos : String
  goarch : String
  tags : List String
  cgoEnabled : Bool
  env : Env
deriving DecidableEq, Repr, Inhabited

/-- A source directory under one choice of roots. -/
structure SourceDir where
  goroot : String
  gopath : String
  dir : String
deriving DecidableEq, Repr, Inhabited

namespace BuildContext

/-- Roots that the environment does not name become texts under which nothing is found. -/
def ofEnv (env : Env) : BuildContext :=
  let gopath := env.list "GOPATH"
  let goos := env.getD "GOOS" hostOs
  let goarch := env.getD "GOARCH" hostArch
  { goroot := env.getD "GOROOT" undefinedRoot
    gopath := if gopath.isEmpty then [undefinedPath] else gopath
    goos, goarch
    tags := defaultTags
    cgoEnabled := match env.get? "CGO_ENABLED" with
      | some "0" => false
      | some "1" => true
      | _ => goos = hostOs && goarch = hostArch
    env }

def withTarget (b : BuildContext) (goos goarch : String) : BuildContext := { b with goos, goarch }

def gopathText (b : BuildContext) : String := Text.join ":" b.gopath

def tagsText (b : BuildContext) : String :=
  Text.join " " (b.tags.mergeSort fun s t => !decide (t < s))

def gorootSrc (b : BuildContext) : String := Path.join b.goroot "src"

def sourceDir (b : BuildContext) (dir : String) : SourceDir := ⟨b.goroot, b.gopathText, Path.clean dir⟩

/-- A number of 32 bits. -/
def number32? (digits : List Char) : Option Nat :=
  if digits.isEmpty then none
  else
    let n := digits.foldl (fun n c => n * 10 + (c.toNat - 48)) 0
    if n < 0x100000000 then some n else none

/-- Major and minor version of the tools: `go1.12.3` is 1 and 12. -/
def goVersion? (b : BuildContext) : Option (Nat × Nat) := do
  let v ← Text.after? (Text.trim (← b.env.get? "GOVERSION")) "go"
  let parts := Text.splitChars (fun c => !c.isDigit) v.toList
  let major ← number32? (parts.getD 0 [])
  return (major, (number32? (parts.getD 1 [])).getD 0)

/-- Whether a tag holds. Some platforms also count as another. -/
def matchTag (b : BuildContext) (tag : String) : Bool :=
  if tag = b.goos || tag = b.goarch || tag = "gc" then true
  else match tag with
    | "unix" => unixOs.contains b.goos
    | "cgo" => b.cgoEnabled
    | "linux" => b.goos = "android"
    | "solaris" => b.goos = "illumos"
    | "darwin" => b.goos = "ios"
    | _ => match Text.after? tag "go1." with
      | some minor => minor.toList.all Char.isDigit
      | none => b.tags.contains tag

/-- Whether the platform that a file name ends with, if any, holds. -/
def matchFileName (b : BuildContext) (name : String) : Bool :=
  let stem := (Text.before? name ".go").getD name
  let stem := (Text.before? stem "_test").getD stem
  match ((Text.split (· == '_') stem).drop 1).reverse with
  | [] => true
  | last :: more =>
    let os := more.headD ""
    if knownOs.contains os && knownArch.contains last then b.matchTag os && b.matchTag last
    else if knownOs.contains last || knownArch.contains last then b.matchTag last
    else true

end BuildContext

/-! ## Headers -/

/-- The lines before the package clause; `inBlock` tells whether a block comment is open. -/
def takeHeader (inBlock : Bool) : List String → List String
  | [] => []
  | t :: rest =>
    if inBlock then t :: takeHeader (!Text.contains t "*/") rest
    else if Text.startsWith t "/*" then t :: takeHeader (!Text.contains t "*/") rest
    else if t != "" && !Text.startsWith t "//" then []
    else t :: takeHeader false rest

def splitLines : Bytes → List Bytes
  | [] => [[]]
  | b :: r =>
    if b = 0x0A then [] :: splitLines r
    else match splitLines r with
      | [] => [[b]]
      | l :: ls => (b :: l) :: ls

/-- The lines of a source's header, trimmed. -/
def headerLines (src : Bytes) : List String :=
  takeHeader false ((splitLines src).map fun l => Text.trim (Utf8.lossy l))

/-- The expression of a `//go:build` line. -/
def goBuild? (line : String) : Option String :=
  (Text.after? line "//go:build").filter fun e => e.toList.head?.all Text.isBlank

/-- The alternatives of a `+build` line. -/
def plusBuild? (line : String) : Option (List String) := do
  let rest ← Text.after? line "//"
  let words ← Text.after? (Text.trimStart rest) "+build"
  return Text.words words

namespace BuildContext

/-- A term of a `+build` line; `!` negates it. -/
def matchTerm (b : BuildContext) (term : String) : Bool :=
  match Text.after? term "!" with
  | some tag => !b.matchTag tag
  | none => b.matchTag term

/-- Any alternative, in each of which all terms hold. -/
def matchPlusBuild (b : BuildContext) (alternatives : List String) : Bool :=
  alternatives.any fun alt => (Text.split (· == ',') alt).all b.matchTerm

/-- Whether a source's header lets it be built. The first `//go:build` line decides alone, and a malformed
one excludes the file; otherwise all `+build` lines have to hold. -/
def matchConstraints (b : BuildContext) (src : Bytes) : Bool :=
  let lines := headerLines src
  match lines.findSome? goBuild? with
  | some expr => match Constraint.parse expr with
    | some c => c.eval b.matchTag
    | none => false
  | none => (lines.filterMap plusBuild?).all b.matchPlusBuild

end BuildContext
end EditorAgent.Go

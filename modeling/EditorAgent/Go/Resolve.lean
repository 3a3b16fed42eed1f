import EditorAgent.Go.ModFile
import EditorAgent.Go.Session

/-!
# Finding packages

An import path is looked up as seen from a source directory: local paths by themselves, then the standard
library, then the enclosing module, or, without modules, the module cache, vendor directories and the
workspace roots. Answers are noted at the directory that owns them.
-/

namespace EditorAgent.Go

/-- Whether a directory lists a package source. -/
def hasGoFiles (d : Disk) (dir : String) : StateM Tree Bool := do
  match ← Vfs.namesAt d dir with
  | .ok names => return names.any isPackageFileName
  | .error _ => return false

/-! ## Modules -/

/-- The nearest `go.mod` at or above a directory, if it is a file. -/
def modFile? (d : Disk) (srcDir : String) : StateM Tree (Option NodeId) := do
  let n ← Vfs.nodeAt (Path.clean srcDir)
  match ← Vfs.locate d n "go.mod" with
  | none => return none
  | some c => if ← Vfs.isFile d c then return some c else return none

/-- Reads a note that is a truth value. -/
def readFlag (n : NodeId) (k : CacheKey) (init : StateM Tree Bool) : StateM Tree Bool := do
  match ← Vfs.readNote n k (do return .flag (← init)) with
  | .flag b => return b
  | _ => init

/-- Reads a note that is a package directory. -/
def readFound (n : NodeId) (k : CacheKey) (init : StateM Tree (Except ImportError PackagePath)) :
    StateM Tree (Except ImportError PackagePath) := do
  match ← Vfs.readNote n k (do return .found (← init)) with
  | .found r => return r
  | _ => init

/-- Old tools have no modules inside the workspace. -/
def outsideModules (b : BuildContext) (dir : String) : Bool :=
  match b.goVersion? with
  | some (major, minor) =>
    major ≤ 1 && minor ≤ 12 && b.gopath.any fun gp => Path.startsWith dir (Path.join gp "src")
  | none => false

/-- Whether a directory lies in a module. -/
def inModule (d : Disk) (b : BuildContext) (dir : String) : StateM Tree Bool := do
  if outsideModules b dir then return false
  return (← modFile? d dir).isSome

/-- Whether modules are in use in a directory. -/
def modEnabled (d : Disk) (b : BuildContext) (srcDir : String) : StateM Tree Bool :=
  match b.env.get? "GO111MODULE" with
  | some "on" => return true
  | some "off" => return false
  | _ => do
    let key := b.sourceDir srcDir
    let n ← Vfs.nodeAt key.dir
    readFlag n (.modEnabled key.normal) (inModule d b key.dir)

/-- What a module provides for a path of its requirements. -/
structure Requirement where
  /-- The directory of the module itself or of a local replacement. -/
  dir : Option String := none
  path : String
  version : String := ""
deriving DecidableEq, Repr

/-- A module with all its requirements, one for each path. -/
structure ModuleRoot where
  dir : String
  module : String
  requirements : List (String × Requirement)
deriving Repr

namespace ModuleRoot

def gomod (m : ModuleRoot) : String := Path.join m.dir "go.mod"

/-- Sets the requirement of a path. -/
def set (rs : List (String × Requirement)) (path : String) (r : Requirement) : List (String × Requirement) :=
  (path, r) :: rs.filter (·.1 != path)

/-- The requirement a replacement stands for. A directory counts if it is a module. -/
def ofReplace (d : Disk) (dir : String) (r : Replace) : StateM Tree Requirement := do
  let other : Requirement := { path := r.newPath, version := r.newVersion.getD "" }
  if !r.isLocal then return other
  let target := Path.clean (Path.join dir r.newPath)
  if ← Vfs.isFileAt d (Path.join target "go.mod") then
    return { other with dir := some target, path := r.oldPath }
  return other

/-- Requirements of `go.mod`, then replacements, then the module itself; `go.sum` adds what is missing. -/
def requirementsOf (d : Disk) (dir : String) (m : ModFile) : StateM Tree (List (String × Requirement)) := do
  let rs := m.require.foldl (fun rs r => set rs r.path { path := r.path, version := r.version }) []
  let rs ← m.replace.foldlM (fun rs r => do return set rs r.oldPath (← ofReplace d dir r)) rs
  let rs := set rs m.module { dir := some dir, path := m.module }
  match ← Vfs.blobAt d (Path.join dir "go.sum") with
  | .error _ => return rs
  | .ok sum =>
    return (parseSum (Utf8.lossy sum)).foldl
      (fun rs r => if rs.any (·.1 == r.path) then rs else rs ++ [(r.path, { path := r.path, version := r.version })])
      rs

def load (d : Disk) (dir : String) : StateM Tree (Except ImportError ModuleRoot) := do
  match ← Vfs.blobAt d (Path.join dir "go.mod") with
  | .error e => return .error (.ofVfs e)
  | .ok src => match ModFile.parse (Utf8.lossy src) with
    | .error e => return .error (.other e.message)
    | .ok m => return .ok ⟨dir, m.module, ← requirementsOf d dir m⟩

/-- A path, and what it is below each path above it. -/
def prefixes : Nat → String → List String
  | 0, _ => []
  | n + 1, p => p :: match Text.cutLast? p "/" with
    | some (q, _) => prefixes n q
    | none => []

/-- The requirement that covers an import path, the path it goes by and the path inside it. -/
def covering? (m : ModuleRoot) (importPath : String) : Option (Requirement × String × String) :=
  (prefixes (importPath.length + 1) importPath).findSome? fun p =>
    (m.requirements.find? (·.1 == p)).map fun r =>
      (r.2, p, String.ofList ((importPath.toList.drop p.length).dropWhile (· == '/')))

/-- The first of several directories that holds a package. -/
def firstPackage (d : Disk) : List String → StateM Tree (Option String)
  | [] => return none
  | dir :: rest => do
    if ← hasGoFiles d dir then return some dir else firstPackage d rest

/-- The vendor directories above the module, up to a root. -/
def outerVendors (m : ModuleRoot) (roots : List String) : List String :=
  ((Path.ancestors m.dir).takeWhile fun p =>
    !(roots.any (Path.same p)) && (Path.parent? p).isSome).map (Path.join · "vendor")

/-- The directories in which a required package may be, in the order in which they are tried. Paths without
a dot in the first element belong to the standard library. -/
def candidates (b : BuildContext) (m : ModuleRoot) (r : Requirement) (importPath sub : String) : List String :=
  let place (base sub : String) : String := Path.clean (Path.join base sub)
  let roots := b.gorootSrc :: b.gopath.map (Path.join · "src")
  let own := [place (Path.join m.dir "vendor") importPath]
  let cached := b.gopath.map fun gp =>
    place (Path.join gp s!"pkg/mod/{encodePath r.path}@{r.version}") sub
  let outer := (m.outerVendors roots).map (place · importPath)
  let std := [place (Path.join b.gorootSrc "vendor") importPath]
  let first := importPath.toList.takeWhile (· != '/')
  if first.contains '.' then own ++ cached ++ outer ++ std else std ++ own ++ cached ++ outer

def find (d : Disk) (b : BuildContext) (m : ModuleRoot) (importPath : String) :
    StateM Tree (Except ImportError PackagePath) :=
  match m.covering? importPath with
  | none => return .error (.notFound s!"require({importPath}) not found in {m.gomod}")
  | some (r, matched, sub) =>
    if matched = m.module && sub = "" then
      return .error (.notFound s!"cannot import main module `{importPath}`")
    else match r.dir with
      | some dir => do
        match ← firstPackage d [Path.clean (Path.join dir sub)] with
        | some p => return .ok ⟨p, importPath, false, some matched⟩
        | none =>
          return .error (.notFound
            s!"cannot find local/replacement package `{importPath}` in `{dir}`")
      | none => do
        match ← firstPackage d (candidates b m r importPath sub) with
        | some p => return .ok ⟨p, importPath, false, some matched⟩
        | none => return .error (.notFound s!"cannot find `{importPath}` using `{m.gomod}`")

end ModuleRoot

/-! ## The places of a package -/

def isLocalImport (path : String) : Bool :=
  path = "." || path = ".." || Text.startsWith path "./" || Text.startsWith path "../"

/-- A local package has no import path of its own; it goes by its directory. -/
def findLocal (d : Disk) (importPath srcDir : String) : StateM Tree (Except ImportError PackagePath) := do
  let dir := Path.clean (Path.join srcDir importPath)
  if ← hasGoFiles d dir then return .ok { dir, importPath := "_" ++ dir }
  return .error (.notFound s!"cannot find package `{importPath}` in `{dir}`")

/-- Looks a package up with the module in a directory. -/
def searchModule (d : Disk) (b : BuildContext) (dir importPath : String) :
    StateM Tree (Except ImportError PackagePath) := do
  match ← ModuleRoot.load d dir with
  | .error e => return .error e
  | .ok m => m.find d b importPath

def findInModule (d : Disk) (b : BuildContext) (importPath srcDir : String) :
    StateM Tree (Except ImportError PackagePath) := do
  match ← modFile? d srcDir with
  | none => return .error (.notFound s!"cannot find go.mod for `{srcDir}`")
  | some gomod =>
    let t ← get
    match (t.node gomod).parent with
    | none => return .error (.notFound "go.mod has no parent directory")
    | some n =>
      readFound n (.find (b.sourceDir srcDir).normal importPath) (searchModule d b (t.path n) importPath)

/-- The module in the cache that a directory belongs to: its directory, path and version. -/
def cachedModule? (dir : String) : Option (String × String × String) := do
  let (before, rest) ← Text.cut? dir "/pkg/mod/"
  let (module, versioned) ← Text.cut? rest "@v"
  let version := "v" ++ String.ofList (versioned.toList.takeWhile (· != '/'))
  return (before ++ "/pkg/mod/" ++ module ++ "@" ++ version, module, version)

/-- A package of the module cache sees its siblings. -/
def findInModCache (d : Disk) (importPath srcDir : String) : StateM Tree (Option PackagePath) :=
  match cachedModule? (Path.clean srcDir) with
  | none => return none
  | some (dir, module, version) =>
    match Text.after? importPath module with
    | none => return none
    | some sub =>
      if (sub != "" && !Text.startsWith sub "/") || !isVersion version then return none
      else do
        let p := Path.join dir (String.ofList (sub.toList.dropWhile (· == '/')))
        if ← hasGoFiles d p then
          return some { dir := Path.clean p, importPath, module := some module }
        return none

/-- The first of several directories. -/
def firstDir (d : Disk) : List (String × PackagePath) → StateM Tree (Option PackagePath)
  | [] => return none
  | (dir, p) :: rest => do
    if ← Vfs.isDirAt d dir then return some p else firstDir d rest

/-- Vendor directories from a source directory up to its root, each with the package it would hold. -/
def vendored (roots : List String) (importPath srcDir : String) : List (String × PackagePath) :=
  match roots.find? (Path.startsWith srcDir) with
  | none => []
  | some root =>
    ((srcDir :: Path.ancestors srcDir).takeWhile (Path.startsWith · root)).map fun dir =>
      let p := Path.join (Path.join dir "vendor") importPath
      (p, { dir := p, importPath := (Path.strip? p root).getD importPath })

/-- Packages in the standard library and in the workspaces. -/
def rooted (roots : List String) (importPath : String) : List (String × PackagePath) :=
  let below (goroot : Bool) (root : String) : String × PackagePath :=
    (Path.join root importPath, { dir := Path.join root importPath, importPath, goroot })
  match roots with
  | [] => []
  | std :: others => below true std :: others.map (below false)

/-- Looks a package up in the vendor directories and the roots. Only the existence of a directory is asked. -/
def searchRoots (d : Disk) (b : BuildContext) (importPath dir : String) :
    StateM Tree (Except ImportError PackagePath) := do
  let roots := b.gorootSrc :: b.gopath.map (Path.join · "src")
  match ← firstDir d (vendored roots importPath dir ++ rooted roots importPath) with
  | some p => return .ok p
  | none =>
    let tried := (rooted roots importPath).map fun p =>
      "\t" ++ p.1 ++ (if p.2.goroot then " (from $GOROOT)" else " (from $GOPATH)")
    return .error (.notFound
      ("cannot find package " ++ Text.quote importPath ++ " in any of:\n" ++ Text.join "\n" tried))

def findInGopath (d : Disk) (b : BuildContext) (importPath srcDir : String) :
    StateM Tree (Except ImportError PackagePath) := do
  let key := b.sourceDir srcDir
  let n ← Vfs.nodeAt key.dir
  readFound n (.find key.normal importPath) (searchRoots d b importPath key.dir)

/-- The directory of an import path as seen from a source directory. -/
def findPackage (d : Disk) (b : BuildContext) (importPath srcDir : String) :
    StateM Tree (Except ImportError PackagePath) :=
  if isLocalImport importPath then findLocal d importPath srcDir
  else do
    let std := Path.join b.gorootSrc importPath
    if ← hasGoFiles d std then return .ok { dir := std, importPath, goroot := true }
    if ← modEnabled d b srcDir then findInModule d b importPath srcDir
    else match ← findInModCache d importPath srcDir with
      | some p => return .ok p
      | none => findInGopath d b importPath srcDir

/-! ## Packages in a directory -/

/-- A directory's import path, by the standard library, a workspace or the enclosing module; `.` if there
is none. The flag tells the standard library. -/
def importPathOf (d : Disk) (b : BuildContext) (dir : String) : StateM Tree (String × Bool) := do
  match Path.relative? dir b.gorootSrc with
  | some rel => return (rel, true)
  | none =>
    let inWorkspace := b.gopath.findSome? fun gp =>
      (Path.relative? dir (Path.join gp "src")).filter (· != "")
    match inWorkspace with
    | some rel => return (rel, false)
    | none => match ← modFile? d dir with
      | none => return (".", false)
      | some gomod =>
        let src ← Vfs.blob d gomod
        let t ← get
        match src, (t.node gomod).parent with
        | .ok src, some root => match ModFile.parse (Utf8.lossy src), Path.relative? dir (t.path root) with
          | .ok m, some rel => return (if rel = "" then m.module else s!"{m.module}/{rel}", false)
          | _, _ => return (".", false)
        | _, _ => return (".", false)

/-- The package of the first of several files that has one. -/
def readClauses (d : Disk) (b : BuildContext) (dir : String) (failure : ImportError) :
    List String → StateM Tree (Except ImportError PackageInfo)
  | [] => return .error failure
  | name :: rest => do
    match ← Vfs.blobAt d (Path.join dir name) with
    | .error e => readClauses d b dir (.ofVfs e) rest
    | .ok src =>
      let f := if b.matchConstraints src then SourceFile.parse .skipBodies src else {}
      if f.package = "" then readClauses d b dir failure rest
      else do
        let (importPath, goroot) ← importPathOf d b dir
        return .ok (PackageInfo.finalize { dir, name := f.package, importPath, goroot })

/-- Reads a directory's package off its files. -/
def readPackage (d : Disk) (b : BuildContext) (dir : String) :
    StateM Tree (Except ImportError PackageInfo) := do
  match ← Vfs.namesAt d dir with
  | .error e => return .error (.ofVfs e)
  | .ok names =>
    let sources := names.filter fun n => isPackageFileName n && b.matchFileName n
    readClauses d b dir (.noGo dir) (sources.mergeSort fun s t => !decide (t < s))

/-- The package in a directory, noted there. -/
def importDir (d : Disk) (b : BuildContext) (dir : String) : StateM Tree (Except ImportError PackageInfo) := do
  let dir := Path.clean dir
  let n ← Vfs.nodeAt dir
  let key := CacheKey.importDir (Path.normal b.goroot) b.gopathText
  match ← Vfs.readNote n key (do return .info (← readPackage d b dir)) with
  | .info r => return r
  | _ => readPackage d b dir

end EditorAgent.Go

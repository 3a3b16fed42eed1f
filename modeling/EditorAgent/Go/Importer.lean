import EditorAgent.Go.Archive
import EditorAgent.Go.Resolve

/-!
# Importing packages

A package is found, its sources are parsed, its dependencies are imported, and the checker turns all of it
into a package. The outcome is recorded at the package's directory and serves until the directory, a source
in it, or a dependency changes. Outcomes that are cycles depend on where the import began and do not serve.
-/

namespace EditorAgent.Go

/-- Sources that replace those on disk, one for each path. -/
abbrev Overrides := List (String × Bytes)

namespace Overrides

/-- Sets the source of a path; a path that is there keeps its spelling. -/
def insert (o : Overrides) (path : String) (src : Bytes) : Overrides :=
  if o.any fun e => Path.same e.1 path then
    o.map fun e => if Path.same e.1 path then (e.1, src) else e
  else o ++ [(path, src)]

def get? (o : Overrides) (path : String) : Option Bytes :=
  (o.find? fun e => Path.same e.1 path).map (·.2)

/-- The sources in the order of their paths. -/
def sorted (o : Overrides) : Overrides := o.mergeSort fun x y => Path.precedes x.1 y.1

/-- The sources one after another, each path and each source closed by a zero byte. -/
def serial (o : Overrides) : Bytes := o.sorted.flatMap fun e => Utf8.encode e.1 ++ [0] ++ e.2 ++ [0]

/-- Identifies the sources; nothing if there are none. -/
def hash (o : Overrides) : String :=
  if o.isEmpty then "" else Base64.encodeUnpadded Base64.urlSafe (Digest.sha256 o.serial)

end Overrides

structure ImportConfig where
  overrides : Overrides := []
  flags : CheckFlags := {}
  /-- Import one dependency at a time. -/
  sequential : Bool := false
  /-- How many dependencies are imported at a time; zero is the default of the process. -/
  workers : Nat := 0

/-- A package that is being imported. -/
structure Link where
  cell : CellId
  importPath : String
  dir : String
deriving DecidableEq, Repr

def Link.label (l : Link) : String := s!"{l.importPath}({l.dir})"

structure Importer where
  build : BuildContext
  overrides : Overrides := []
  flags : CheckFlags := {}
  view : Option View := none
  checker : Checker := .shallow
  /-- Whether parsed sources are shared. -/
  sharing : Bool := false
  cancelled : Bool := false
  /-- The packages being imported, the innermost first. -/
  chain : List Link := []

abbrev Import := StateM Session (Except ImportError Package)

namespace Importer

def make (b : BuildContext) (c : ImportConfig) : Importer :=
  { build := b, overrides := c.overrides, flags := c.flags }

/-- Reads a view's file from its buffer. A buffer that is loaded counts as a replaced source. -/
def withView (i : Importer) (v : View) : Importer :=
  { i with
    view := some v
    overrides := if v.src.isEmpty then i.overrides else i.overrides.insert v.filename v.src }

/-! ## Sources -/

/-- A source as the checker sees it: the view's buffer, a replacement, the tree, or the disk. -/
def readSource (d : Disk) (view : Option View) (o : Overrides) (path : String) :
    StateM Tree (Except ImportError Bytes) :=
  let buffer := view.bind fun v => if Path.same v.path path && !v.src.isEmpty then some v.src else none
  match buffer <|> o.get? path with
  | some src => return .ok src
  | none => do
    match ← Vfs.blobAt d path with
    | .ok src => return .ok src
    | .error _ => match d.read path with
      | .ok src => return .ok src
      | .error e => return .error (.ofDisk e)

/-- Whether a name is that of a source that is built. -/
def isSourceName (i : Importer) (name : String) : Bool :=
  Text.endsWith name ".go" && !Text.startsWith name "." && !Text.startsWith name "_"
    && (i.flags.tests || !Text.endsWith name "_test.go") && i.build.matchFileName name

/-- The names of replaced sources in a directory. -/
def overriddenNames (i : Importer) (dir : String) : List String :=
  i.overrides.filterMap fun e =>
    if (Path.parent? e.1).any fun p => Path.same p dir then Path.fileName? e.1 else none

/-- The names of a directory's sources, sorted. -/
def sourceNames (d : Disk) (i : Importer) (dir : String) : StateM Tree (Except ImportError (List String)) := do
  match ← Vfs.namesAt d dir with
  | .error e => return .error (.ofVfs e)
  | .ok names =>
    return .ok ((SourceFile.nameSet (names ++ i.overriddenNames dir)).filter i.isSourceName)

def parse (i : Importer) (src : Bytes) : StateM Session SourceFile := fun s =>
  let mode := if i.flags.checkFuncs then ParseMode.full else .skipBodies
  if i.sharing then
    let (f, shared) := SourceFile.parseShared s.shared mode src
    (f, { s with shared })
  else (SourceFile.parse mode src, s)

/-- Parses a source; `none` if it is not to be built. -/
def parseFile (d : Disk) (i : Importer) (path : String) :
    StateM Session (Except ImportError (Option PackageFile)) := do
  match ← Session.onTree (readSource d i.view i.overrides path) with
  | .error e => return .error e
  | .ok src =>
    if !i.build.matchConstraints src then return .ok none
    let f ← i.parse src
    match f.error with
    | some e => return .error (.parse ⟨path, e.row, e.col⟩ e.message)
    | none => return .ok (some ⟨path, f⟩)

/-- Works through a list up to the first failure. -/
def untilFailure {α β : Type} (f : α → StateM Session (Except ImportError β)) :
    List α → StateM Session (Except ImportError (List β))
  | [] => return .ok []
  | a :: rest => do
    match ← f a with
    | .error e => return .error e
    | .ok b => match ← untilFailure f rest with
      | .error e => return .error e
      | .ok bs => return .ok (b :: bs)

/-- Orders a package's files: plain ones, those that import C names, tests. Files of a separate test
package are left out. -/
def arrange (files : List PackageFile) : List PackageFile :=
  let files := files.filter fun f => !Text.endsWith f.parsed.package "_test"
  let isTest (f : PackageFile) : Bool := Text.endsWith f.path "_test.go"
  files.filter (fun f => !isTest f && !f.parsed.isCgo)
    ++ files.filter (fun f => !isTest f && f.parsed.isCgo) ++ files.filter isTest

/-- The files of a package. -/
def parseDir (d : Disk) (i : Importer) (p : PackagePath) :
    StateM Session (Except ImportError (List PackageFile)) := Session.framed "parseDir" do
  match ← Session.onTree (i.sourceNames d p.dir) with
  | .error e => return .error e
  | .ok names => match ← untilFailure (fun n => i.parseFile d (Path.join p.dir n)) names with
    | .error e => return .error e
    | .ok files => match arrange (files.filterMap id) with
      | [] => return .error (.noGo p.dir)
      | files => return .ok files

/-! ## Export data -/

/-- The program that stands for the tools: the one of the root, or the first in the search path. -/
def goTool? (d : Disk) (b : BuildContext) : Option Tool :=
  let own := Path.join (Path.join b.goroot "bin") "go"
  let program (path : String) : Option Tool :=
    match d.entry path with
    | .ok ⟨.file _ tool, _⟩ => tool
    | _ => none
  if Path.isAbsolute b.goroot && d.isFile own then program own
  else ((b.env.get? "PATH").getD "/bin:/usr/bin" |> Text.split (· == ':')).findSome? fun dir =>
    program (Path.join dir "go")

/-- The archive that the tools name for a package. -/
def exportArchive? (d : Disk) (i : Importer) (dir : String) : Option String := do
  let tool ← goTool? d i.build
  if i.cancelled || tool.code != 0 then none
  match d.entry dir with
  | .ok ⟨.dir, _⟩ => (Utf8.decode? tool.stdout).map Text.trim |>.filter (· != "")
  | _ => none

def readExport (d : Disk) (i : Importer) (p : PackagePath) (imports : List (String × Package)) :
    StateM Session (Option Package) := Session.framed "importCgoPkg" do
  match i.exportArchive? d p.dir with
  | none => return none
  | some path => match Archive.read d p.importPath path (imports.map (·.2)) with
    | .ok pkg => return some pkg
    | .error _ => return none

/-! ## Records -/

/-- Fails if a package is being imported already. -/
def detectCycle (i : Importer) (p : PackagePath) : Except ImportError Unit :=
  if i.chain.any fun l => Path.same l.dir p.dir then
    let inner := i.chain.takeWhile fun l => !Path.same l.dir p.dir
    let outer := (i.chain.dropWhile fun l => !Path.same l.dir p.dir).take 1
    let names := s!"{p.importPath}({p.dir})" :: (inner ++ outer).map Link.label
    .error (.cycle (Text.join " <~ " names))
  else .ok ()

def key (i : Importer) (p : PackagePath) : PackageKey :=
  { importPath := p.importPath, dir := Path.normal p.dir, flags := i.flags, tags := i.build.tagsText
    goarch := i.build.goarch, goos := i.build.goos, goroot := Path.normal i.build.goroot
    gopath := i.build.gopathText, overrides := i.overrides.hash }

/-- Looks at the sources of a directory, so that changes reach the record before it is used. -/
def refresh (d : Disk) (n : NodeId) : StateM Tree Unit := do
  match ← Vfs.readDir d n with
  | .error _ => return ()
  | .ok cs =>
    let t ← get
    (cs.filter fun c => Text.endsWith (t.node c).name ".go").forM fun c => do
      let _ ← Vfs.stat d c

/-- The record of a package. -/
def record (d : Disk) (i : Importer) (p : PackagePath) : StateM Tree CellId := do
  let n ← Vfs.nodeAt p.dir
  refresh d n
  modifyGet fun t => t.readCell n (.package (i.key p)) { importPath := p.importPath, dir := p.dir }

/-- The outcome a record serves: one of a check that began after the last invalidation. -/
def served? (t : Tree) (c : CellId) : Option (Except ImportError Package) :=
  match t.cell? c with
  | some x =>
    if x.content.checkedAt != 0 && x.invalidatedAt < x.content.checkedAt then x.content.result else none
  | none => none

/-- An incomplete package is handed out as an error. -/
def outcome (importPath : String) : Except ImportError Package → Except ImportError Package
  | .ok pkg => if pkg.complete then .ok pkg else .error (.incomplete importPath)
  | .error e => .error e

def isCycle : Except ImportError Package → Bool
  | .error e => e.isCycle
  | .ok _ => false

/-- Records the outcome of a check that began at `began`; a cycle does not count as a check. -/
def store (c : CellId) (began : Nat) (r : Except ImportError Package) (t : Tree) : Tree :=
  t.modifyCell c fun x =>
    { x with content := { x.content with
        result := some r
        checkedAt := if isCycle r then x.content.checkedAt else began } }

/-- The importer for a package's dependencies. -/
def branch (i : Importer) (c : CellId) (t : Tree) : Importer :=
  let label := match t.cell? c with
    | some x => (x.content.importPath, x.content.dir)
    | none => ("", "")
  { i with flags := {}, chain := ⟨c, label.1, label.2⟩ :: i.chain }

/-! ## Imports -/

/-- The imports of several files, each path once, with the file that names it first. -/
def specs (files : List PackageFile) : List (String × ImportSpec) :=
  (files.flatMap fun f => f.parsed.imports.map (f.path, ·)).foldl
    (fun acc s => if acc.any fun t => t.2.path == s.2.path then acc else acc ++ [s]) []

/-- Imports everything that files name; `deps` imports one path. -/
def importDeps (deps : String → Import) (files : List PackageFile) :
    StateM Session (Except ImportError (List (String × Package))) :=
  untilFailure (fun (path, spec) => do
    match ← deps spec.path with
    | .ok pkg => return .ok (spec.path, pkg)
    | .error e => return .error (.dependency ⟨path, spec.row, spec.col⟩ e)) (specs files)

/-- Hands a package to the checker. -/
def runChecker (i : Importer) (p : PackagePath) (files : List PackageFile) (imports : List (String × Package)) :
    Import := Session.framed "typeCheck" do
  let (pkg, errors) := i.checker.check
    { importPath := p.importPath, dir := p.dir, files, imports
      config := ⟨true, !i.flags.checkFuncs, !i.flags.checkImports⟩ }
  modify fun s => { s with checks := s.checks ++ [⟨p.importPath, errors⟩] }
  match errors.find? fun e => !e.soft with
  | some e => return .error (.check e.place e.message)
  | none => return pkg

/-- The package of files whose imports are at hand; one with C names comes from its export data, if any. -/
def conclude (d : Disk) (i : Importer) (p : PackagePath) (files : List PackageFile)
    (imports : List (String × Package)) : Import := do
  if files.any (·.parsed.isCgo) then
    match ← i.readExport d p imports with
    | some pkg => return .ok pkg
    | none => i.runChecker p files imports
  else i.runChecker p files imports

/-- Checks a package; `deps` imports a path for it. -/
def check (d : Disk) (deps : Importer → String → String → Import) (i : Importer) (c : CellId) (p : PackagePath) :
    Import := do
  match ← i.parseDir d p with
  | .error e => return .error e
  | .ok files =>
    let inner := i.branch c (← get).tree
    match ← importDeps (fun path => deps inner path p.dir) files with
    | .error e => return .error e
    | .ok imports => i.conclude d p files imports

/-- Runs a check with its record in use. -/
def whileActive (c : CellId) (act : Import) : Import := do
  modify fun s => { s with tree := { s.tree with active := c :: s.tree.active } }
  let r ← act
  modify fun s => { s with tree := { s.tree with active := s.tree.active.drop 1 } }
  return r

/-- The package for the browser's own interface is built for the browser. -/
def retarget (i : Importer) (p : PackagePath) : Importer :=
  let js := Path.join (Path.join i.build.gorootSrc "syscall") "js"
  if p.goroot && i.build.goos != "js" && Path.same p.dir js then
    { i with build := i.build.withTarget "js" "wasm" }
  else i

/-- Checks a package and records the outcome. -/
def renew (d : Disk) (deps : Importer → String → String → Import) (i : Importer) (c : CellId) (p : PackagePath) :
    Import := do
  let began ← Session.onTree (modifyGet Vfs.tick)
  let r ← whileActive c (i.check d deps c p)
  modify fun s => { s with tree := store c began r s.tree }
  return r

/-- Notes that a record is used by the package being imported. -/
def depend (i : Importer) (c : CellId) (t : Tree) : Tree :=
  match i.chain with
  | l :: _ => t.addDependent c l.cell
  | [] => t

/-- The outcome that a package's record serves, made anew if it serves none. -/
def consult (d : Disk) (deps : Importer → String → String → Import) (i : Importer) (p : PackagePath) : Import := do
  let c ← Session.onTree (i.record d p)
  modify fun s => { s with tree := i.depend c s.tree }
  match served? (← get).tree c with
  | some r => return outcome p.importPath r
  | none => return outcome p.importPath (← i.renew d deps c p)

/-- Imports a package that was found. -/
def importPackage (d : Disk) (deps : Importer → String → String → Import) (i : Importer) (p : PackagePath) :
    Import :=
  let i := i.retarget p
  Session.framed s!"import({p.importPath})" do
    match i.detectCycle p with
    | .error e => return .error e
    | .ok () => i.consult d deps p

/-- Imports a path as seen from a directory; `deps` imports what the package depends on. -/
def importStep (d : Disk) (deps : Importer → String → String → Import) (i : Importer) (path srcDir : String) :
    Import :=
  if path = "C" then return .ok .ofC
  else if path = "unsafe" then return .ok .ofUnsafe
  else if srcDir = "" then return .error (.io "cannot make an empty path absolute")
  else do
    let srcDir := Path.clean (Path.join "/" srcDir)
    match ← Session.framed "findPkg" (Session.onTree (findPackage d i.build path srcDir)) with
    | .error e => return .error e
    | .ok p => i.importPackage d deps p

/-- Imports with dependencies no deeper than `fuel`. -/
def importTo (d : Disk) : Nat → Importer → String → String → Import
  | 0, _, _, _ => return .error (.other "import chain too long")
  | fuel + 1, i, path, srcDir => importStep d (importTo d fuel) i path srcDir

/-- Every package on a chain has its own directory, whose path is spelled by the disk and the sources. The
root is on no list, and the import that closes a chain has no directory of its own. -/
def depthBound (d : Disk) (i : Importer) : Nat :=
  let size (e : Location × DiskEntry) : Nat := match e.2.item with
    | .file data _ => data.length
    | _ => 1
  let onDisk := d.entries.foldl (fun n e => n + size e + Disk.maxLinks) 0
  i.overrides.foldl (fun n o => n + o.2.length) onDisk + 2

/-- Imports a path as seen from a directory. Only mode zero is known. -/
def importFrom (d : Disk) (i : Importer) (path srcDir : String) (mode : Nat) : Import :=
  if mode != 0 then return .error (.mode mode) else importTo d (depthBound d i) i path srcDir

end Importer
end EditorAgent.Go

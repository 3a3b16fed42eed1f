import EditorAgent.Proofs.Go.Agreement
import EditorAgent.Proofs.Go.Clauses
import EditorAgent.Proofs.Go.Naming
import Mathlib

/-!
# The two readers of a directory

The package in a directory can be imported from there, for which all its sources are parsed and checked, or it can be
told from the first clause that has a name. Both start from a new tree here, and the sources are those on disk.
-/

namespace EditorAgent.Go

open Vfs Importer

variable {d : Disk} {b : BuildContext} {flags : CheckFlags} {dir : String} {s : Session}
  {ok : List String → CacheKey → CacheValue → Prop} {pkg : Package}

/-! ## Importing the package in a directory -/

/-- The package in a directory, as it is found from there. -/
def here (dir : String) : PackagePath := { dir, importPath := "_" ++ dir }

theorem clean_join_here (p : String) : Path.clean (Path.join p ".") = Path.clean p := by
  have htail : Path.tailComponents "." = [] := by decide
  rw [Path.clean, Path.cleanComponents_join p (by decide), htail, List.append_nil]
  rfl

theorem searchable_inside (d : Disk) (dir : String) : Searchable (inside dir) d dir :=
  ⟨askable_inside d dir, fun _ _ => rfl⟩

theorem settled_findPackage_here (hp : d.Named) (hclean : Path.clean dir = dir) :
    Settled (inside dir) d ok (findPackage d b "." dir) fun r =>
      (holdsPackage d dir = true → r = .ok (here dir)) ∧ (holdsPackage d dir = false → ∃ e, r = .error e) := by
  have hlocal : findPackage d b "." dir = findLocal d "." dir := rfl
  rw [hlocal, findLocal, clean_join_here, hclean]
  refine (settled_hasGoFiles hp (searchable_inside d dir)).bind fun x hx => ?_
  cases x with
  | true => exact .pure ⟨fun _ => rfl, fun hnone => by simp [hnone] at hx⟩
  | false => exact .pure ⟨fun hholds => by simp [hholds] at hx, fun _ => ⟨_, rfl⟩⟩

/-- A tree without notes and without records. -/
structure Untouched (d : Disk) (dir : String) (v : Tree) : Prop where
  coherent : Coherent (inside dir) d (fun _ _ _ => False) v
  cells : v.cells = #[]

namespace Untouched

variable {v v' : Tree}

theorem make (d : Disk) (dir : String) (e : Expiry) : Untouched d dir (Vfs.make e) := ⟨coherent_make .., rfl⟩

theorem of_frame (h : Untouched d dir v) (hv : Coherent (inside dir) d (fun _ _ _ => False) v') (hf : Frame v v') :
    Untouched d dir v' :=
  ⟨hv, hf.cells.trans h.cells⟩

/-- A record that is looked up is new, and serves nothing. -/
theorem readCell {n : NodeId} {ns : List String} (h : Untouched d dir v) (hn : Stands v n ns) (key : CacheKey)
    {content : PackageRecord} (hcontent : content.checkedAt = 0) :
    served? (v.readCell n key content).2 (v.readCell n key content).1 = none ∧
      Coherent (inside dir) d (fun _ _ _ => False) (v.readCell n key content).2 := by
  have hnone : ∀ c, served? v c = none := fun c => by simp [served?, cell?, h.cells]
  rw [readCell_eq]
  cases hstart : ((v.node n).memo.start (.user key) Note.isCell).2 with
  | found x =>
    cases x with
    | cell c => exact ⟨hnone c, h.coherent⟩
    | _ => exact ⟨hnone _, h.coherent⟩
  | missing serial =>
    refine ⟨?_, coherent_cellMade h.coherent hn hstart (fun _ _ => id) content⟩
    simp [served?, cell?, cellMade, hcontent]

theorem record (h : Untouched d dir v) (hp : d.Named) (i : Importer) :
    served? (i.record d (here dir) v).2 (i.record d (here dir) v).1 = none ∧
      Coherent (inside dir) d (fun _ _ _ => False) (i.record d (here dir) v).2 := by
  obtain ⟨hcoherent, hframe, hn⟩ := gives_look hp (askable_inside d dir) h.coherent
  rw [record_eq]
  exact (h.of_frame hcoherent hframe).readCell hn _ rfl

end Untouched

/-- Where there are no records, the package is checked. -/
theorem exists_consult_eq_check {i : Importer} (deps : Importer → String → String → Import) (hp : d.Named)
    (hchain : i.chain = []) (hs : Untouched d dir s.tree) :
    ∃ c s', Coherent (inside dir) d (fun _ _ _ => False) s'.tree ∧ s'.shared = s.shared ∧
      (i.consult d deps (here dir) s).1 = outcome ("_" ++ dir) (i.check d deps c (here dir) s').1 := by
  obtain ⟨hserved, hrecord⟩ := hs.record hp i
  rw [consult_run]
  generalize i.record d (here dir) s.tree = recorded at hserved hrecord ⊢
  obtain ⟨c, v⟩ := recorded
  have hdepend : i.depend c v = v := by rw [Importer.depend, hchain]
  dsimp only at hserved hrecord ⊢
  rw [hdepend, hserved]
  dsimp only
  rw [renew_run]
  exact ⟨c, { s with tree := { v.tick.2 with active := c :: v.active } }, hrecord.of_nodes rfl, rfl, rfl⟩

/-- What a package comes to, whose dependencies are imported by `find`. -/
def verdictOn (d : Disk) (b : BuildContext) (flags : CheckFlags) (dir : String) (find : String → Import) (s : Session) :
    Except ImportError Package :=
  match sources d b flags {} dir with
  | .error e => .error e
  | .ok files => match importAll find (specs files) s with
    | (.error e, _) => .error e
    | (.ok imports, s') => ((Importer.under b flags {} []).conclude d (here dir) files imports s').1

section Runs

variable (deps : Importer → String → String → Import) (hp : d.Named) (h : Spelled d b dir) (his : IsDir d dir)
  (htests : flags.tests = false)
include hp h his htests

theorem exists_check_eq (hs : Coherent (inside dir) d ok s.tree) (c : CellId) :
    ∃ find s', ((Importer.under b flags {} []).check d deps c (here dir) s).1 = verdictOn d b flags dir find s' := by
  have hgives : Session.Gives (inside dir) d ok ((Importer.under b flags {} []).parseDir d (here dir)) s
      (sources d b flags {} dir) :=
    gives_parseDir_of_askable hp (askable_inside d dir) (fun _ => rfl) his
      (fun n hn _ => h.askable_source ((mem_sourceNames_iff h htests).mp hn)) hs
  obtain ⟨-, -, hparse⟩ := hgives
  rw [check_run]
  rcases hrun : (Importer.under b flags {} []).parseDir d (here dir) s with ⟨x, s₁⟩
  rw [hrun] at hparse
  obtain rfl : x = sources d b flags {} dir := hparse
  refine ⟨fun path => deps ((Importer.under b flags {} []).branch c s₁.tree) path (here dir).dir, s₁, ?_⟩
  rw [verdictOn]
  cases sources d b flags {} dir with
  | error e => rfl
  | ok files =>
    dsimp only
    rcases importAll (fun path => deps ((Importer.under b flags {} []).branch c s₁.tree) path (here dir).dir)
      (specs files) s₁ with ⟨_ | imports, s₂⟩ <;> rfl

theorem exists_consult_eq (hs : Untouched d dir s.tree) :
    ∃ find s', ((Importer.under b flags {} []).consult d deps (here dir) s).1 =
      outcome ("_" ++ dir) (verdictOn d b flags dir find s') := by
  obtain ⟨c, s₁, hs₁, -, hconsult⟩ := exists_consult_eq_check (i := Importer.under b flags {} []) deps hp rfl hs
  obtain ⟨find, s', hcheck⟩ := exists_check_eq deps hp h his htests hs₁ c
  exact ⟨find, s', hconsult.trans (congrArg (outcome ("_" ++ dir)) hcheck)⟩

theorem exists_importPackage_eq (hs : Untouched d dir s.tree) :
    ∃ find s', ((Importer.under b flags {} []).importPackage d deps (here dir) s).1 =
      outcome ("_" ++ dir) (verdictOn d b flags dir find s') := by
  have hretarget : (Importer.under b flags {} []).retarget (here dir) = Importer.under b flags {} [] := rfl
  have hcycle : (Importer.under b flags {} []).detectCycle (here dir) = .ok () := rfl
  rw [importPackage, hretarget, framed_run, hcycle]
  dsimp only
  exact exists_consult_eq deps hp h his htests hs

end Runs

/-- What comes of importing the package in a directory, over a new tree. -/
theorem exists_importFrom_eq {e : Expiry} (hp : d.Named) (habs : Path.isAbsolute dir = true)
    (h : Spelled d b (Path.clean dir)) (htests : flags.tests = false) (hs : s.tree = Vfs.make e) :
    (holdsPackage d (Path.clean dir) = true → ∃ find s',
      ((Importer.under b flags {} []).importFrom d "." dir 0 s).1 =
        outcome ("_" ++ Path.clean dir) (verdictOn d b flags (Path.clean dir) find s')) ∧
      (holdsPackage d (Path.clean dir) = false →
        ∃ e, ((Importer.under b flags {} []).importFrom d "." dir 0 s).1 = .error e) := by
  have hsrc : Path.clean (Path.join "/" dir) = Path.clean dir := by rw [Path.join, if_pos habs]
  have hne : dir ≠ "" := by
    rintro rfl
    cases habs
  have huntouched : Untouched d (Path.clean dir) s.tree := hs ▸ .make d _ e
  obtain ⟨⟨hfound, hnone⟩, hgives⟩ := (settled_findPackage_here (b := b) hp (Path.clean_clean dir)).answer
  obtain ⟨hv, hframe, hvalue⟩ := hgives s.tree huntouched.coherent
  obtain ⟨fuel, hfuel⟩ : ∃ fuel, depthBound d (Importer.under b flags {} []) = fuel + 1 := ⟨_, rfl⟩
  have hbuild : (Importer.under b flags {} []).build = b := rfl
  rw [importFrom, if_neg (by decide), hfuel, importTo, importStep, if_neg (by decide), if_neg (by decide), if_neg hne,
    hsrc, hbuild]
  generalize findPackage d b "." (Path.clean dir) = act at hfound hnone hv hframe hvalue ⊢
  obtain ⟨s₁, hfind, htree⟩ : ∃ s₁ : Session, Session.framed "findPkg" (Session.onTree act) s =
      ((act blankTree).1, s₁) ∧ s₁.tree = (act s.tree).2 :=
    ⟨(Session.framed "findPkg" (Session.onTree act) s).2, by rw [← hvalue]; rfl, rfl⟩
  rw [← htree] at hv hframe
  rw [bind_run, hfind]
  dsimp only
  constructor
  · intro hholds
    rw [hfound hholds]
    exact exists_importPackage_eq _ hp h (isDir_of_holdsPackage hholds) htests (huntouched.of_frame hv hframe)
  · intro hholds
    obtain ⟨e, he⟩ := hnone hholds
    rw [he]
    exact ⟨e, rfl⟩

/-! ## The name of what is imported -/

theorem ok_of_outcome {importPath : String} {x : Except ImportError Package} (h : outcome importPath x = .ok pkg) :
    x = .ok pkg := by
  cases x with
  | error e => cases h
  | ok q =>
    rw [outcome] at h
    split at h
    · exact h
    · cases h

theorem Archive.name_of_read {importPath path : String} {imports : List Package}
    (h : Archive.read d importPath path imports = .ok pkg) : pkg.name = Text.afterLast importPath "/" := by
  rw [Archive.read] at h
  split at h
  · cases h
  · cases h
  · split at h
    · cases h
    · split at h <;> cases h
      rfl

section Conclusions

variable {i : Importer} {p : PackagePath} {files : List PackageFile} {imports : List (String × Package)}

/-- What the checker is asked about a package. -/
def Importer.request (i : Importer) (p : PackagePath) (files : List PackageFile) (imports : List (String × Package)) :
    CheckRequest :=
  { importPath := p.importPath, dir := p.dir, files, imports
    config := ⟨true, !i.flags.checkFuncs, !i.flags.checkImports⟩ }

theorem runChecker_fst (i : Importer) (p : PackagePath) (files : List PackageFile) (imports : List (String × Package))
    (s : Session) :
    (i.runChecker p files imports s).1 =
      match (i.checker.check (i.request p files imports)).2.find? fun e => !e.soft with
      | some e => .error (.check e.place e.message)
      | none => (i.checker.check (i.request p files imports)).1 := by
  rw [runChecker, framed_run, Importer.request]
  generalize i.checker.check _ = r
  obtain ⟨pkg, errors⟩ := r
  dsimp only
  cases errors.find? fun e => !e.soft <;> rfl

/-- A package that the checker lets pass goes by the name of its files. -/
theorem namedBy_of_runChecker (hi : i.checker = .shallow) (h : (i.runChecker p files imports s).1 = .ok pkg) :
    Shallow.NamedBy pkg.name files := by
  let checked := Id.run (Shallow.check (i.request p files imports) fun path => pure (.error (.notFound path)))
  have hchecker : i.checker.check (i.request p files imports) = (.ok checked.1, checked.2) := by rw [hi]; rfl
  rw [runChecker_fst, hchecker] at h
  split at h
  · cases h
  · next hsoft =>
    obtain rfl : checked.1 = pkg := Except.ok.inj h
    exact Shallow.namedBy_check fun e he => by simpa using List.find?_eq_none.mp hsoft e he

/-- A package is concluded from export data, which it needs C names for, or the checker lets it pass. -/
theorem conclude_cases (h : (i.conclude d p files imports s).1 = .ok pkg) :
    (files.any (·.parsed.isCgo) = true ∧ ∃ path, i.exportArchive? d p.dir = some path ∧
        Archive.read d p.importPath path (imports.map (·.2)) = .ok pkg) ∨
      ∃ s', (i.runChecker p files imports s').1 = .ok pkg := by
  rw [conclude] at h
  split at h
  · next hcgo =>
    rw [bind_run, readExport, framed_run] at h
    cases harchive : i.exportArchive? d p.dir with
    | none =>
      rw [harchive] at h
      exact .inr ⟨_, h⟩
    | some path =>
      cases hread : Archive.read d p.importPath path (imports.map (·.2)) with
      | error e =>
        rw [harchive] at h
        dsimp only at h
        rw [hread] at h
        exact .inr ⟨_, h⟩
      | ok q =>
        rw [harchive] at h
        dsimp only at h
        rw [hread] at h
        obtain rfl : q = pkg := Except.ok.inj h
        exact .inl ⟨hcgo, path, rfl, hread⟩
  · exact .inr ⟨s, h⟩

end Conclusions

/-- A package that export data stands for, because one of its sources uses C names. It goes by its import path. -/
structure Exported (d : Disk) (b : BuildContext) (flags : CheckFlags) (dir : String) (pkg : Package) : Prop where
  cgo : ∃ n src, Built d b dir n src ∧ (SourceFile.parse flags.mode src).isCgo = true
  archive : ∃ path imports, (Importer.under b flags {} []).exportArchive? d dir = some path ∧
    Archive.read d ("_" ++ dir) path imports = .ok pkg
  name : pkg.name = Text.afterLast ("_" ++ dir) "/"

/-- An imported package goes by the name of its files or stands for export data. -/
theorem namedBy_or_exported {find : String → Import} (h : Spelled d b dir) (htests : flags.tests = false)
    (hv : verdictOn d b flags dir find s = .ok pkg) :
    ∃ files, Sourced d b flags dir files ∧ (Shallow.NamedBy pkg.name files ∨ Exported d b flags dir pkg) := by
  rw [verdictOn] at hv
  split at hv
  · cases hv
  · next files hfiles =>
    have hsourced := sourced_of_sources h htests hfiles
    refine ⟨files, hsourced, ?_⟩
    split at hv
    · cases hv
    · rcases conclude_cases hv with ⟨hcgo, path, harchive, hread⟩ | ⟨s', hchecked⟩
      · obtain ⟨f, hf, hcgo⟩ := List.any_eq_true.mp hcgo
        obtain ⟨n, src, hbuilt, hparsed⟩ := hsourced.sound f hf
        exact .inr ⟨⟨n, src, hbuilt, hparsed ▸ hcgo⟩, ⟨path, _, harchive, hread⟩, Archive.name_of_read hread⟩
      · exact .inl (namedBy_of_runChecker rfl hchecked)

/-! ## Agreement -/

/-- Clauses of files that go by a name say that name. -/
theorem clause_eq_of_namedBy {files : List PackageFile} {name n : String} {src : Bytes}
    (hfiles : Sourced d b flags dir files) (hname : Shallow.NamedBy name files) (hbuilt : Built d b dir n src)
    (hclause : clauseOf src ≠ "") : clauseOf src = name ∨ Text.endsWith (clauseOf src) "_test" = true := by
  cases htest : Text.endsWith (clauseOf src) "_test" with
  | true => exact .inr rfl
  | false =>
    obtain ⟨f, hf, hparsed⟩ := hfiles.complete n src hbuilt htest
    have hpackage : f.parsed.package = clauseOf src := by rw [hparsed, package_parse]
    have hstub : f.parsed.stub = false := by
      rw [hparsed]
      by_contra hstub
      exact hclause (clauseOf_of_stub (by simpa using hstub))
    rw [← hpackage] at hclause ⊢
    exact .inl ((hname.agree f hf hstub).resolve_left hclause)

/-- Files without clauses have no name to go by. -/
theorem eq_empty_of_namedBy {files : List PackageFile} {name : String} (hfiles : Sourced d b flags dir files)
    (hname : Shallow.NamedBy name files) (hclauses : ∀ n src, Built d b dir n src → clauseOf src = "") : name = "" := by
  rcases hname.given with hempty | ⟨f, hf, hpackage⟩
  · exact hempty
  · obtain ⟨n, src, hbuilt, hparsed⟩ := hfiles.sound f hf
    rw [← hpackage, hparsed, package_parse, hclauses n src hbuilt]

namespace EmptySource

def disk : Disk := ⟨[(["a.go"], ⟨.file [] none, 1⟩)]⟩

def build : BuildContext := ⟨"", [], "linux", "amd64", [], false, ⟨[]⟩⟩

def nameless : Package := { path := "_/", name := "", complete := true, files := ["/a.go"] }

def file : PackageFile := ⟨"/a.go", { stub := true }⟩

theorem clean_root : Path.clean "/" = "/" := by decide

theorem join_root : Path.join "/" "a.go" = "/a.go" := by decide

theorem names_disk : disk.names "/" = ["a.go"] := by cbv

theorem read_disk : disk.read "/a.go" = .ok [] := by
  have hsteps : Disk.steps "/a.go" = ["a.go"] := by decide
  have hlocate : disk.locate "/a.go" true = .ok ["a.go"] := by
    rw [Disk.locate, if_neg (by decide), if_neg (by decide), if_neg (by decide), hsteps, Disk.follow]
    simp [Disk.get?, disk, Disk.maxName, Disk.follow]
    decide
  rw [Disk.read, Disk.entry, hlocate]
  rfl

theorem eq_of_selected {n : String} (h : Selected disk build "/" n) : n = "a.go" := by
  have hmem := h.1
  rw [names_disk] at hmem
  exact List.mem_singleton.mp hmem

theorem spelled_disk : Spelled disk build (Path.clean "/") := by
  rw [clean_root]
  exact ⟨by decide, fun n hn => by rw [eq_of_selected hn]; decide⟩

theorem sources_disk : sources disk build {} {} "/" = .ok [file] := by
  have hset : SourceFile.nameSet ["a.go"] = ["a.go"] := by cbv
  have hfilter : ["a.go"].filter (Importer.under build {} {} []).isSourceName = ["a.go"] := by decide
  have hroot : pathOf (splitPath "/") = "/" := by decide
  have hnames : sourceNames disk build {} {} "/" = ["a.go"] := by
    have hnone : (Importer.under build {} {} []).overriddenNames "/" = [] := rfl
    rw [sourceNames, hroot, names_disk, hnone, List.append_nil, hset, hfilter]
  have hspelled : pathOf (splitPath "/a.go") = "/a.go" := by decide
  have hsource : Overlay.source? {} "/a.go" = none := rfl
  have hparse : SourceFile.parse (CheckFlags.mode {}) [] = { stub := true } := by
    rw [SourceFile.parse, List.isEmpty_nil, if_pos rfl]
  have hread : readFile disk build {} {} "/a.go" = .ok (some file) := by
    rw [readFile, contents, hsource, hspelled, read_disk]
    dsimp only
    rw [matchConstraints_nil, hparse]
    rfl
  rw [sources, hnames, List.mapM_cons, join_root, hread]
  rfl

theorem check_file :
    Checker.shallow.check ((Importer.under build {} {} []).request (here "/") [file] []) = (.ok nameless, []) := by
  have hset : SourceFile.nameSet [] = [] := by cbv
  have hdraft : Shallow.check ((Importer.under build {} {} []).request (here "/") [file] [])
      (fun path => (pure (.error (.notFound path)) : Id (Except ImportError Package))) =
        ({ nameless with scope := SourceFile.nameSet [] }, []) := rfl
  dsimp only [Checker.shallow]
  rw [hdraft, hset]
  rfl

theorem verdictOn_disk (find : String → Import) (s : Session) : verdictOn disk build {} "/" find s = .ok nameless := by
  have hspecs : specs [file] = [] := rfl
  have hcgo : [file].any (·.parsed.isCgo) = false := rfl
  have hchecker : (Importer.under build {} {} []).checker = .shallow := rfl
  rw [verdictOn, sources_disk]
  dsimp only
  rw [hspecs, importAll_nil]
  dsimp only
  rw [conclude, hcgo, if_neg (by decide), runChecker_fst, hchecker, check_file]
  rfl

theorem importFrom_disk {s : Session} {e : Expiry} (hs : s.tree = Vfs.make e) :
    ((Importer.make build {}).importFrom disk "." "/" 0 s).1 = .ok nameless := by
  have hholds : holdsPackage disk (Path.clean "/") = true := by cbv
  have htests : CheckFlags.tests {} = false := rfl
  have habs : Path.isAbsolute "/" = true := by decide
  obtain ⟨hheld, -⟩ := exists_importFrom_eq (by decide) habs spelled_disk htests hs
  obtain ⟨find, s', heq⟩ := hheld hholds
  have hmake : Importer.make build {} = Importer.under build {} {} [] := rfl
  rw [hmake, heq, clean_root, verdictOn_disk]
  rfl

theorem importDir_disk (e : Expiry) : (importDir disk build "/" (Vfs.make e)).1 = .error (.noGo "/") := by
  obtain ⟨ns, hns, hreading⟩ := reading_importDir (by decide) spelled_disk (by cbv) e
  generalize (importDir disk build "/" (Vfs.make e)).1 = r at hreading ⊢
  rw [clean_root] at hns hreading
  have hread : ∀ n ∈ ns, disk.read (Path.join "/" n) = .ok [] := fun n hn => by
    rw [eq_of_selected ((hns n).mp hn), join_root, read_disk]
  cases hreading with
  | named listed built clause name =>
    obtain rfl : [] = _ := Except.ok.inj ((hread _ listed).symm.trans built.read)
    exact absurd rfl clause
  | nameless clauses cause => exact congrArg _ (cause fun n hn => ⟨[], hread n hn⟩)

end EmptySource

end EditorAgent.Go

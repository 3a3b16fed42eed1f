import EditorAgent.Proofs.Agent.Diagnostics
import EditorAgent.Proofs.Disk.Following
import EditorAgent.Proofs.Go.Directories
import EditorAgent.Proofs.Go.Provenance
import EditorAgent.Proofs.Path.Parents

/-!
# The package of a view's file

A check imports the package in the directory that a view tells, which is that of its file unless another one was sent. If
it is that of its file, a source that is to be built is a file of any package that the import comes to, in every session:
the buffer replaces what is on the disk, and packages that were made of other buffers are recorded under other keys.
-/

namespace EditorAgent

open Go Go.Importer Vfs

variable {d : Disk} {v : View} {dir name : String} {src : Bytes} {i : Importer}

/-! ## The directory of a view -/

/-- A view of the file of a name in a directory. -/
structure View.Sits (v : View) (dir name : String) : Prop where
  absolute : Path.isAbsolute v.path = true
  noUp : ".." ∉ Path.elements v.path
  name : Path.fileName? v.path = some name
  parent : (Path.parent? v.path).map Path.clean = some dir

/-- The directory that a view tells: the one that was sent, or else that of its file. -/
def View.told (v : View) (dir : String) : String := if v.wd = "" then dir else Path.clean (Path.join "/" v.wd)

/-- The contents of a view: its buffer, or those of its file if it is not loaded. -/
def View.Holds (d : Disk) (v : View) (src : Bytes) : Prop :=
  if v.src.isEmpty then '\\' ∉ v.path.toList ∧ d.read v.path = .ok src else src = v.src

/-- What stands in front of the disk for a view: its buffer, if it is loaded. -/
def View.replaced (v : View) : Overrides := if v.src.isEmpty then [] else [(v.path, v.src)]

namespace View

theorem dir_finalize (h : v.path ≠ "") :
    v.finalize.dir = if v.wd = "" then (Path.parent? v.path).getD "" else v.wd := by
  have hpath : v.finalize.path = v.path := rfl
  have hwd : v.finalize.wd = if v.wd = "" then (Path.parent? v.path).getD v.wd else v.wd := by simp [finalize, h]
  rw [dir, hwd, hpath]
  by_cases hempty : v.wd = ""
  · simp only [hempty, if_true]
    split <;> simp_all
  · simp [hempty]

theorem filename_finalize (h : v.path ≠ "") : v.finalize.filename = v.path := by
  have hpath : v.finalize.path = v.path := rfl
  rw [filename, hpath, if_pos (by simpa using h)]

namespace Sits

variable (h : v.Sits dir name)
include h

theorem path_ne : v.path ≠ "" := by
  intro hpath
  have habs := h.absolute
  rw [hpath] at habs
  exact absurd habs (by decide)

theorem exists_parent : ∃ q, Path.parent? v.path = some q ∧ Path.clean q = dir ∧ Path.Lies v.path q name ∧
    Path.Lies v.path dir name := by
  obtain ⟨q, hq, rfl⟩ := Option.map_eq_some_iff.mp h.parent
  obtain ⟨hlies, hclean⟩ := Path.lies_of_fileName? h.absolute h.noUp h.name hq
  exact ⟨q, hq, rfl, hlies, hclean⟩

theorem lies : Path.Lies v.path dir name :=
  let ⟨_, _, _, _, hlies⟩ := h.exists_parent
  hlies

theorem dir_ne : v.finalize.dir ≠ "" := by
  obtain ⟨q, hq, -, hlies, -⟩ := h.exists_parent
  rw [dir_finalize h.path_ne, hq]
  split
  · rintro rfl
    exact absurd hlies.absolute (by decide)
  · assumption

theorem clean_dir_finalize : Path.clean (Path.join "/" v.finalize.dir) = v.told dir := by
  obtain ⟨q, hq, hclean, hlies, -⟩ := h.exists_parent
  rw [dir_finalize h.path_ne, hq, told]
  split
  · rw [Option.getD_some, Path.join, if_pos hlies.absolute, hclean]
  · rfl

/-! ## The source of a view -/

theorem same_join : Path.same v.path (Path.join dir name) = true := by
  rw [Path.same, h.lies.components_join, beq_self_eq_true]

/-- The name of a loaded view is among those of its directory. -/
theorem mem_overriddenNames (hi : i.overrides = [(v.path, src)]) : name ∈ i.overriddenNames dir := by
  obtain ⟨q, hq, -, hlies, hclean⟩ := h.exists_parent
  have hsame : Path.same q dir = true := by
    have hcomponents := (List.append_inj' (hlies.components.symm.trans hclean.components) rfl).1
    rw [Path.same, hcomponents, beq_self_eq_true]
  rw [overriddenNames, hi, List.filterMap_cons, hq, Option.any_some, hsame, if_pos rfl, h.name]
  exact List.mem_cons_self

/-- A loaded view's buffer is read. -/
theorem contents_of_replaced (hi : i.overrides = [(v.path, src)])
    (hview : ∀ w, i.view = some w → w.src = src) : contents d i.overlay (Path.join dir name) = .ok src := by
  have hget : i.overlay.overrides.get? (Path.join dir name) = some src := by
    simp [Importer.overlay, hi, Overrides.get?, h.same_join]
  have hsource : i.overlay.source? (Path.join dir name) = some src := by
    rw [Overlay.source?, hget]
    cases hw : i.overlay.view with
    | none => rfl
    | some w =>
      rw [Option.bind_some, hview w hw]
      split <;> rfl
  rw [contents, hsource]

/-- The file of a view that is not loaded is listed and read. -/
theorem listed_and_contents (hback : '\\' ∉ v.path.toList) (hread : d.read v.path = .ok src) (hi : i.overrides = [])
    (hview : ∀ w, i.view = some w → w.src = []) :
    name ∈ d.names (pathOf (splitPath dir)) ∧ contents d i.overlay (Path.join dir name) = .ok src := by
  have hsplit : splitPath v.path = splitPath dir ++ [name] := h.lies.splitPath_eq hback
  obtain ⟨e, he⟩ : ∃ e, d.entry v.path = .ok e := by
    rw [Disk.read] at hread
    split at hread
    · cases hread
    all_goals exact ⟨_, by assumption⟩
  have hentry : d.entry (pathOf (splitPath v.path)) = .ok e := (Disk.spelled_of_entry h.absolute hback he).1
  have hup : name ≠ ".." := by
    rintro rfl
    exact absurd h.lies.isElement.1 (by decide)
  refine ⟨?_, ?_⟩
  · rw [hsplit] at hentry
    exact Disk.mem_names_of_entry (fun s hs => isName_of_mem_splitPath (hsplit ▸ hs)) hup hentry
  · have hsource : i.overlay.source? (Path.join dir name) = none := by
      have hget : i.overlay.overrides.get? (Path.join dir name) = none := by
        simp [Importer.overlay, hi, Overrides.get?]
      rw [Overlay.source?, hget]
      cases hw : i.overlay.view with
      | none => rfl
      | some w => simp [hview w hw]
    have hspelled : d.read (pathOf (splitPath (Path.join dir name))) = .ok src := by
      rw [Path.splitPath_congr h.lies.components_join, ← hread, Disk.read, Disk.read, hentry, he]
    rw [contents, hsource, hspelled]

/-- The source of a view is taken in by each importer with the same sources before the disk. -/
theorem takes (hsrc : v.Holds d src) (hi : i.overrides = v.replaced)
    (hview : ∀ w, i.view = some w → w.src = v.src) (hname : i.isSourceName name = true)
    (hmatch : i.build.matchConstraints src = true) : Go.Takes d i dir name src := by
  rw [Holds] at hsrc
  rw [replaced] at hi
  split at hsrc
  · next hnone =>
    rw [if_pos hnone] at hi
    obtain ⟨hlisted, hcontents⟩ := h.listed_and_contents hsrc.1 hsrc.2 hi fun w hw => by simpa [hview w hw] using hnone
    exact ⟨hname, .inl hlisted, hcontents, hmatch⟩
  · next hloaded =>
    rw [if_neg hloaded] at hi
    subst hsrc
    exact ⟨hname, .inr (h.mem_overriddenNames hi), h.contents_of_replaced hi hview, hmatch⟩

end Sits

end View

namespace Go.TypeCheck

/-! ## Checks one after another -/

/-- A check that is to be made. -/
structure CheckJob where
  env : Env
  view : View
  saved : Bool
  cancelled : Bool

namespace CheckJob

def importer (j : CheckJob) : Importer := TypeCheck.importer j.env j.view j.cancelled

/-- The directory of the package that is imported. -/
def packageDir (j : CheckJob) : String := Path.clean (Path.join "/" j.view.dir)

def run (d : Disk) (j : CheckJob) : Import := verdict d j.env j.view j.saved j.cancelled

/-- The session after several checks. -/
def runAll (d : Disk) (jobs : List CheckJob) (s : Session) : Session := jobs.foldl (fun s j => (j.run d s).2) s

/-- What the key of a record does not tell is the same: whether C names are built, and the sources with one digest. -/
structure Alike (j j' : CheckJob) : Prop where
  cgoEnabled : j'.importer.build.cgoEnabled = j.importer.build.cgoEnabled
  overrides : j'.importer.overrides.hash = j.importer.overrides.hash → j'.importer.overrides = j.importer.overrides

variable {j j' : CheckJob} {jobs : List CheckJob} {s : Session} {good : PackageKey → Package → Prop} {keys : List PackageKey}

theorem overrides_importer (j : CheckJob) :
    j.importer.overrides = if j.view.src.isEmpty then [] else [(j.view.filename, j.view.src)] := by
  show (if j.view.src.isEmpty then [] else Overrides.insert [] j.view.filename j.view.src) = _
  simp [Overrides.insert]

/-- Checks with one key read the same sources of the same directory. -/
theorem alike_of_key_eq (h : j.Alike j') (hkey : j'.importer.key (here j'.packageDir) = j.importer.key (here j.packageDir)) :
    j'.packageDir = j.packageDir ∧ j'.importer.overrides = j.importer.overrides ∧
      j'.importer.isSourceName = j.importer.isSourceName ∧
      j'.importer.build.matchConstraints = j.importer.build.matchConstraints := by
  simp only [Importer.key, here, PackageKey.mk.injEq] at hkey
  obtain ⟨hpath, -, -, -, harch, hos, -, -, hhash⟩ := hkey
  have hbuild : j.importer.build.BuildsAlike j'.importer.build := ⟨hos, harch, rfl, h.cgoEnabled⟩
  refine ⟨by simpa [String.ext_iff] using hpath, h.overrides hhash, ?_, hbuild.matchConstraints_eq⟩
  have hflags : j'.importer.flags = j.importer.flags := rfl
  funext n
  rw [isSourceName, isSourceName, hbuild.matchFileName_eq, hflags]

/-- A check looks at a saved file again and imports the package in its view's directory. -/
theorem run_eq (d : Disk) (hdir : j.view.dir ≠ "") :
    j.run d = (do
      if j.saved then Session.onTree (refresh d j.view.filename)
      j.importer.importHere d (depthBound d j.importer - 1) j.packageDir) := by
  rw [run, verdict, importFrom_here d _ hdir]
  rfl

theorem traces_run (hp : d.Named) (hdeps : ∀ i p, ForDependencies i → MakesGood d good i p) (h : Sane d good keys s)
    (hmakes : MakesGood d good j.importer (here j.packageDir)) :
    Traces d good keys (j.run d) s fun r => ∀ pkg, r = .ok pkg → good (j.importer.key (here j.packageDir)) pkg := by
  have himport : ∀ keys' s', Sane d good keys' s' → Traces d good keys' (j.importer.importFrom d "." j.view.dir 0) s'
      fun r => ∀ pkg, r = .ok pkg → good (j.importer.key (here j.packageDir)) pkg := by
    intro keys' s' hs'
    by_cases hdir : j.view.dir = ""
    · have hnone : j.importer.importFrom d "." "" 0 = pure (.error (.io "cannot make an empty path absolute")) := rfl
      rw [hdir, hnone]
      exact .pure hs' fun _ hr => by cases hr
    · rw [importFrom_here d _ hdir]
      exact traces_importHere hp hdeps hs' rfl hmakes _
  rw [run, verdict]
  split
  · refine (Traces.onTree h ((gives_typeCheckRefresh hp _ h.tree.shows).mono fun _ _ _ _ _ => trivial)).bind
      (Q := fun _ => True) fun _ keys₁ s₁ _ hs₁ _ => ?_
    exact himport keys₁ s₁ hs₁
  · exact himport keys s h

theorem sane_runAll (hp : d.Named) (hdeps : ∀ i p, ForDependencies i → MakesGood d good i p) (h : Sane d good keys s)
    (hjobs : ∀ j ∈ jobs, MakesGood d good j.importer (here j.packageDir)) : ∃ keys', Sane d good keys' (runAll d jobs s) := by
  induction jobs generalizing keys s with
  | nil => exact ⟨keys, h⟩
  | cons j jobs ih =>
    obtain ⟨keys₁, -, hs₁, -⟩ := traces_run hp hdeps h (hjobs j List.mem_cons_self)
    exact ih hs₁ fun j' hj' => hjobs j' (List.mem_cons_of_mem _ hj')

/-! ## The file of the view -/

/-- What a package that was imported from a directory has of a source there: the file of the path, unless the package was
read from export data or the source is of a separate test package. -/
structure HasSource (d : Disk) (dir path : String) (src : Bytes) (pkg : Package) : Prop where
  importPath : pkg.path = "_" ++ dir
  file : (∃ f ∈ pkg.files, Path.same f path = true) ∨
    (∃ archive imports, Archive.read d ("_" ++ dir) archive imports = .ok pkg) ∨ TestClause src

theorem hasSource_of_madeBy {path : String} {pkg : Package} (hmade : MadeBy d i (here dir) pkg)
    (htakes : Go.Takes d i dir name src) (hsame : Path.same (Path.join dir name) path = true) :
    HasSource d dir path src pkg where
  importPath := hmade.path
  file := by
    rcases hmade.files with hexport | hall
    · exact .inr (.inl hexport)
    · rcases hall name src htakes with hmem | htest
      · exact .inl ⟨_, hmem, hsame⟩
      · exact .inr (.inr htest)

/-- The check of a view. -/
def ofView (env : Env) (v : View) (saved cancelled : Bool) : CheckJob := ⟨env, v.finalize, saved, cancelled⟩

theorem alike_refl (j : CheckJob) : j.Alike j := ⟨rfl, fun _ => rfl⟩

theorem overrides_ofView (hv : v.Sits dir name) (env : Env) (saved cancelled : Bool) :
    (ofView env v saved cancelled).importer.overrides = v.replaced := by
  rw [overrides_importer, View.replaced]
  show (if v.src.isEmpty then [] else [(v.finalize.filename, v.src)]) = _
  rw [View.filename_finalize hv.path_ne]

/-- The sources that stand before the disk tell the buffer. -/
theorem src_eq_of_overrides (h : j.importer.overrides = v.replaced) : j.view.src = v.src := by
  rw [overrides_importer, View.replaced] at h
  split at h <;> split at h
  · simp_all
  · cases h
  · cases h
  · simp_all

/-- A check under the key of that of a view takes the source of the view in. -/
theorem makesGood_hasSource (hv : v.Sits dir name) {env : Env} {saved cancelled : Bool} (htold : v.told dir = dir)
    (hj : (ofView env v saved cancelled).Alike j) (hsrc : v.Holds d src)
    (hname : (ofView env v saved cancelled).importer.isSourceName name = true)
    (hmatch : (ofView env v saved cancelled).importer.build.matchConstraints src = true) :
    MakesGood d (fun key pkg => key = (ofView env v saved cancelled).importer.key (here dir) → HasSource d dir v.path src pkg)
      j.importer (here j.packageDir) := by
  intro pkg hmade hkey
  have hown : (ofView env v saved cancelled).packageDir = dir := hv.clean_dir_finalize.trans htold
  rw [← hown] at hkey
  obtain ⟨hdir, hover, hnames, hconstraints⟩ := alike_of_key_eq hj hkey
  rw [hdir, hown] at hmade
  rw [overrides_ofView hv] at hover
  have htakes : Go.Takes d j.importer dir name src := by
    rw [← hnames] at hname
    rw [← hconstraints] at hmatch
    refine hv.takes hsrc hover (fun w hw => ?_) hname hmatch
    obtain rfl : j.view = w := Option.some.inj hw
    exact src_eq_of_overrides hover
  refine hasSource_of_madeBy hmade htakes ?_
  rw [Path.same, hv.lies.components_join, beq_self_eq_true]

/-- What the reducer keeps of a check. -/
theorem check_ofView (d : Disk) (hv : v.Sits dir name) (c : TypeCheck) (env : Env) (saved cancelled : Bool) (s : Session) :
    c.check d env v.finalize saved cancelled s =
      let r := (ofView env v saved cancelled).run d s
      ({ c with path := v.path, issues := issuesOf v.path r.1 }, r.2) := by
  rw [check_eq, View.filename_finalize hv.path_ne]
  rfl

/-- The check of a view imports the package in the directory that the view tells. -/
theorem run_ofView (d : Disk) (hv : v.Sits dir name) (env : Env) (saved cancelled : Bool) :
    (ofView env v saved cancelled).run d = (do
      if saved then Session.onTree (refresh d v.path)
      let i := (ofView env v saved cancelled).importer
      i.importHere d (depthBound d i - 1) (v.told dir)) := by
  have hdir : (ofView env v saved cancelled).packageDir = v.told dir := hv.clean_dir_finalize
  have hfile : (ofView env v saved cancelled).view.filename = v.path := View.filename_finalize hv.path_ne
  have hsaved : (ofView env v saved cancelled).saved = saved := rfl
  rw [run_eq d hv.dir_ne, hdir, hfile, hsaved]

/-- In a session that began without records, a package that the check of a view comes to has the view's source. -/
theorem hasSource_of_run (hd : d.Named) (hv : v.Sits dir name) {env : Env} {saved cancelled : Bool}
    (htold : v.told dir = dir) {e : Expiry} (htree : s.tree = Vfs.make e) (hshared : s.shared = {})
    (hjobs : ∀ j ∈ jobs, (ofView env v saved cancelled).Alike j) (hsrc : v.Holds d src)
    (hname : (ofView env v saved cancelled).importer.isSourceName name = true)
    (hmatch : (ofView env v saved cancelled).importer.build.matchConstraints src = true) {pkg : Package}
    (hok : ((ofView env v saved cancelled).run d (runAll d jobs s)).1 = .ok pkg) : HasSource d dir v.path src pkg := by
  have hown : (ofView env v saved cancelled).packageDir = dir := hv.clean_dir_finalize.trans htold
  let good : PackageKey → Package → Prop := fun key pkg =>
    key = (ofView env v saved cancelled).importer.key (here dir) → HasSource d dir v.path src pkg
  have hmakes : ∀ j, (ofView env v saved cancelled).Alike j → MakesGood d good j.importer (here j.packageDir) :=
    fun j hj => makesGood_hasSource hv htold hj hsrc hname hmatch
  -- what is imported for a dependency stands under other flags
  have hdeps : ∀ i p, ForDependencies i → MakesGood d good i p := by
    intro i p hi pkg _ hkey
    have hflags : i.flags = ⟨true, true, true⟩ := congrArg PackageKey.flags hkey
    rw [hi.1] at hflags
    cases hflags
  have hsane : Sane d good [] s := ⟨htree ▸ .make e, hshared ▸ faithful_empty⟩
  obtain ⟨keys, hs⟩ := sane_runAll hd hdeps hsane fun j hj => hmakes j (hjobs j hj)
  obtain ⟨-, -, -, hgood⟩ := traces_run hd hdeps hs (hmakes _ (alike_refl _))
  exact hgood pkg hok (by rw [hown])

end CheckJob

open CheckJob

namespace EmptyFile

def disk : Disk := ⟨[(["a.go"], ⟨.file [] none, 1⟩), (["q"], ⟨.dir, 1⟩)]⟩

def view : View := { path := "/a.go" }

/-- The view with another directory. -/
def moved : View := { view with wd := "/q" }

def nameless : Package := { path := "_/", name := "", complete := true, files := ["/a.go"] }

def file : PackageFile := ⟨"/a.go", { stub := true }⟩

/-- The importer for a view that is not loaded. -/
def unloaded (w : View) : Importer :=
  { build := .ofEnv ⟨[]⟩, flags := ⟨true, true, true⟩, view := some w, sharing := true }

theorem names_disk : disk.names "/" = ["a.go", "q"] := by cbv

theorem read_disk : disk.read "/a.go" = .ok [] := by
  have hsteps : Disk.steps "/a.go" = ["a.go"] := by decide
  have hlocate : disk.locate "/a.go" true = .ok ["a.go"] := by
    rw [Disk.locate, if_neg (by decide), if_neg (by decide), if_neg (by decide), hsteps, Disk.follow]
    simp [Disk.get?, disk, Disk.maxName, Disk.follow]
    decide
  rw [Disk.read, Disk.entry, hlocate]
  rfl

theorem pathOf_root : pathOf (splitPath "/") = "/" := by decide

theorem holdsPackage_root : holdsPackage disk "/" = true := by cbv

section Runs

variable {s : Session} {ok : List String → CacheKey → CacheValue → Prop} {w : View}

theorem sourceNames_disk (w : View) :
    sourceNames disk (unloaded w).build (unloaded w).flags (unloaded w).overlay "/" = ["a.go"] := by
  have hset : SourceFile.nameSet ["a.go", "q"] = ["a.go", "q"] := by cbv
  have hfilter : ["a.go", "q"].filter (unloaded {}).isSourceName = ["a.go"] := by decide
  have hnone : (Importer.under (unloaded w).build (unloaded w).flags (unloaded w).overlay []).overriddenNames "/" = [] := rfl
  rw [sourceNames, pathOf_root, names_disk, hnone, List.append_nil, hset]
  exact hfilter

theorem contents_disk (hw : w.src = []) : contents disk (unloaded w).overlay "/a.go" = .ok [] := by
  have hspelled : pathOf (splitPath "/a.go") = "/a.go" := by decide
  have hnone : (unloaded w).overlay.source? "/a.go" = none := by
    simp [Overlay.source?, Importer.overlay, unloaded, Overrides.get?, hw]
  rw [contents, hnone, hspelled, read_disk]

theorem parse_empty (hs : s.shared = {}) : ((unloaded w).parse [] s).1 = { stub := true } := by
  have hsharing : (unloaded w).sharing = true := rfl
  rw [parse, hsharing, if_pos rfl, hs]
  dsimp only
  rw [SourceFile.parseShared_fresh, SourceFile.parse, List.isEmpty_nil, if_pos rfl]

theorem parseFile_disk (hw : w.src = []) (hcoherent : Coherent (inside "/") disk ok s.tree) (hs : s.shared = {}) :
    ((unloaded w).parseFile disk "/a.go" s).1 = .ok (some file) := by
  have hask : AskablePath (inside "/") disk (splitPath "/a.go") := by
    have hsplit : splitPath "/a.go" = splitPath "/" ++ ["a.go"] := by decide
    have hmem : "a.go" ∈ disk.names (pathOf (splitPath "/")) := by
      rw [pathOf_root, names_disk]
      decide
    exact hsplit ▸ (askable_inside disk "/").concat (by decide) fun _ _ _ => hmem
  have hread := (gives_readSource (o := (unloaded w).overlay) (by decide) (fun _ => hask) hcoherent).2.2
  rw [contents_disk hw] at hread
  obtain ⟨s₁, hrun, hshared⟩ : ∃ s₁ : Session,
      Session.onTree (readSource disk (unloaded w).view (unloaded w).overrides "/a.go") s = (.ok [], s₁) ∧ s₁.shared = {} :=
    ⟨_, Prod.ext hread rfl, hs⟩
  have hmatch : (unloaded w).build.matchConstraints [] = true := matchConstraints_nil _
  rw [parseFile, bind_run, hrun]
  dsimp only
  rw [hmatch, Bool.not_true, if_neg (by decide), bind_run, parse_empty hshared]
  rfl

theorem parseDir_disk (hw : w.src = []) (hcoherent : Coherent (inside "/") disk ok s.tree) (hs : s.shared = {}) :
    ((unloaded w).parseDir disk (here "/") s).1 = .ok [file] := by
  have hunder : (unloaded w).sourceNames disk "/" =
      (Importer.under (unloaded w).build (unloaded w).flags (unloaded w).overlay []).sourceNames disk "/" := rfl
  obtain ⟨hcoherent', -, hnames⟩ : Vfs.Gives (inside "/") disk ok ((unloaded w).sourceNames disk "/") s.tree fun x _ =>
      x = .ok (sourceNames disk (unloaded w).build (unloaded w).flags (unloaded w).overlay "/") :=
    hunder ▸ gives_sourceNames (by decide) (askable_inside disk "/") (fun _ => rfl)
      (isDir_of_holdsPackage holdsPackage_root) hcoherent
  rw [sourceNames_disk] at hnames
  obtain ⟨s₁, hrun, htree, hshared⟩ : ∃ s₁ : Session,
      Session.onTree ((unloaded w).sourceNames disk "/") { s with profile := s.profile.push "parseDir" } =
        (.ok ["a.go"], s₁) ∧ s₁.tree = ((unloaded w).sourceNames disk "/" s.tree).2 ∧ s₁.shared = {} :=
    ⟨_, Prod.ext hnames rfl, rfl, hs⟩
  rw [← htree] at hcoherent'
  have hfile := parseFile_disk hw hcoherent' hshared
  have hdir : (here "/").dir = "/" := rfl
  have hjoin : Path.join "/" "a.go" = "/a.go" := by decide
  rw [parseDir, framed_run, hdir, bind_run, hrun]
  dsimp only
  rw [bind_run, untilFailure, bind_run, hjoin]
  generalize (unloaded w).parseFile disk "/a.go" s₁ = parsed at hfile ⊢
  rw [hfile]
  rfl

theorem check_disk (deps : Importer → String → String → Import) (c : CellId) (hw : w.src = [])
    (hcoherent : Coherent (inside "/") disk ok s.tree) (hs : s.shared = {}) :
    ((unloaded w).check disk deps c (here "/") s).1 = .ok nameless := by
  have hfiles := parseDir_disk hw hcoherent hs
  rw [check_run]
  rcases hrun : (unloaded w).parseDir disk (here "/") s with ⟨x, s₁⟩
  rw [hrun] at hfiles
  obtain rfl : x = .ok [file] := hfiles
  have hspecs : specs [file] = [] := rfl
  have hcgo : [file].any (·.parsed.isCgo) = false := rfl
  have hchecker : (unloaded w).checker = .shallow := rfl
  have hset : SourceFile.nameSet [] = [] := by cbv
  have hdraft : Shallow.check ((unloaded w).request (here "/") [file] [])
      (fun path => (pure (.error (.notFound path)) : Id (Except ImportError Package))) =
        ({ nameless with scope := SourceFile.nameSet [] }, []) := rfl
  have hcheck : Checker.shallow.check ((unloaded w).request (here "/") [file] []) = (.ok nameless, []) := by
    dsimp only [Checker.shallow]
    rw [hdraft, hset]
    rfl
  dsimp only
  rw [hspecs, importAll_nil]
  dsimp only
  rw [conclude, hcgo, if_neg (by decide), runChecker_fst, hchecker, hcheck]
  rfl

theorem importHere_disk (hw : w.src = []) (fuel : Nat) {e : Expiry} (htree : s.tree = Vfs.make e) (hs : s.shared = {}) :
    ((unloaded w).importHere disk fuel "/" s).1 = .ok nameless := by
  have huntouched : Untouched disk "/" s.tree := htree ▸ .make disk "/" e
  have hchain : (unloaded w).chain = [] := rfl
  obtain ⟨c, s', hs', hshared, hcheck⟩ := exists_importHere_eq_check (by decide) huntouched fuel hchain holdsPackage_root
  rw [hcheck, check_disk _ c hw hs' (hshared.trans hs)]
  rfl

end Runs

theorem sits_view : view.Sits "/" "a.go" := ⟨by decide, by decide, by decide, by decide⟩

theorem sits_moved : moved.Sits "/" "a.go" := ⟨by decide, by decide, by decide, by decide⟩

/-- The check of a view that is not loaded. -/
def own : CheckJob := .ofView ⟨[]⟩ view false false

/-- A check without a view. -/
def blank : CheckJob := ⟨⟨[]⟩, {}, false, false⟩

theorem runAll_blank (s : Session) : CheckJob.runAll disk [blank] s = s := by
  have hdir : blank.view.dir = "" := by decide
  have hrun : blank.run disk s = (.error (.io "cannot make an empty path absolute"), s) :=
    verdict_of_no_dir disk ⟨[]⟩ hdir false s
  rw [CheckJob.runAll, List.foldl_cons, List.foldl_nil, hrun]

theorem told_view : view.told "/" = "/" := by decide

theorem run_own {s : Session} {e : Expiry} (htree : s.tree = Vfs.make e) (hs : s.shared = {}) :
    (own.run disk s).1 = .ok nameless := by
  have hrun := CheckJob.run_ofView disk sits_view ⟨[]⟩ false false
  rw [told_view] at hrun
  rw [own, hrun]
  exact importHere_disk rfl _ htree hs

/-- The check of the view with another directory. -/
def stray : CheckJob := .ofView ⟨[]⟩ moved false false

theorem run_stray : (stray.run disk default).1 = .error (.notFound "cannot find package `.` in `/q`") := by
  have hrun := CheckJob.run_ofView disk sits_moved ⟨[]⟩ false false
  have htold : moved.told "/" = "/q" := by decide
  have hnone : holdsPackage disk "/q" = false := by cbv
  obtain ⟨s₁, -, -, himport⟩ := exists_importHere_eq (s := default) (by decide) (.make disk "/q" .never)
    (depthBound disk stray.importer - 1) stray.importer
  rw [hnone] at himport
  rw [htold] at hrun
  rw [stray, hrun]
  exact congrArg Prod.fst himport

end EmptyFile

end Go.TypeCheck

end EditorAgent

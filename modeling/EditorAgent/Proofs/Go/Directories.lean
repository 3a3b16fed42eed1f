import EditorAgent.Proofs.Go.Clauses
import EditorAgent.Proofs.Go.ImportPaths

/-!
# Directories read in several contexts

What package a directory holds is noted at the directory, under the roots of the context in which it was read. On a
disk that does not change a note serves as if the directory were read on a tree of its own, as long as reads that share
a note are of one spelling and for one platform, no directory is reached through a source that another one lacks, and
the disk refuses nothing but what is not there.
-/

namespace EditorAgent

/-- The disk refuses a path only because nothing is there. -/
def Disk.Forthright (d : Disk) (path : String) : Prop := ∀ e, d.entry path = .error e → e = .notFound

/-- The bytes that a path leads to, or why there are none. -/
def Disk.blobOf (d : Disk) (path : String) : Except VfsError Bytes :=
  match d.entry path with
  | .error _ => .error (.notExist path)
  | .ok e =>
    if e.item.kind = .dir then .error (.other s!"`{path}` is a directory")
    else match d.read path with
      | .error e => .error (.disk e)
      | .ok data => .ok data

/-- Why the names in a path that is no directory are not told. -/
def Disk.unlisted (d : Disk) (path : String) : VfsError :=
  if (d.kindAt path).isSome then .notDir path else .notExist path

namespace Go

open Vfs

variable {τ : Trust} {d : Disk} {b b' : BuildContext} {ok : List String → CacheKey → CacheValue → Prop}
  {dir path : String} {t : Tree} {n : NodeId} {ns : List String}

/-! ## Refusals -/

section Refusals

variable {cause : VfsError}

theorem get_bind_run {σ α : Type} (f : σ → StateM σ α) (s : σ) : (get >>= f) s = f s s := rfl

theorem forthright_of_locate {l : Location} (hloc : d.locate path true = .ok l) (hget : (d.get? l).isSome = true) :
    d.Forthright path := by
  obtain ⟨e, he⟩ := Option.isSome_iff_exists.mp hget
  intro cause hcause
  simp only [Disk.entry, hloc, he] at hcause
  cases hcause

/-- A missing entry is told the same way whether or not it was looked for before. -/
theorem stat_error_eq (hn : Stands t n ns) (hplain : d.Forthright (pathOf ns))
    (h : (Vfs.stat d n t).1 = .error cause) : cause = .notExist (pathOf ns) := by
  have hsync : (Vfs.sync d n t).1 = .error cause → cause = .notExist (pathOf ns) := by
    intro h
    rw [Vfs.sync, hn.path_eq] at h
    split at h
    · next e he =>
      rw [if_pos (hplain e he)] at h
      exact (Except.error.inj h).symm
    · cases h
  rw [Vfs.stat] at h
  split at h
  · cases h
  · rw [hn.path_eq] at h
    exact (Except.error.inj h).symm
  · exact hsync h

/-- What a stat answers on a disk that refuses only what is not there. -/
theorem stat_cases (hp : d.Named) (ht : Coherent τ d ok t) (hn : Stands t n ns) (hplain : d.Forthright (pathOf ns)) :
    (∃ e info, d.entry (pathOf ns) = .ok e ∧ (Vfs.stat d n t).1 = .ok info ∧ info.kind = e.item.kind) ∨
      (∃ e, d.entry (pathOf ns) = .error e) ∧ (Vfs.stat d n t).1 = .error (.notExist (pathOf ns)) := by
  have htells := (gives_stat hp ht hn).2.2
  unfold Tells at htells
  cases he : d.entry (pathOf ns) with
  | ok e =>
    rw [he] at htells
    obtain ⟨name, hr, -⟩ := htells
    exact .inl ⟨e, _, rfl, hr, rfl⟩
  | error e =>
    rw [he] at htells
    obtain ⟨cause, hr⟩ := htells
    exact .inr ⟨⟨e, rfl⟩, by rw [hr, stat_error_eq hn hplain hr]⟩

theorem blob_error_eq (hp : d.Named) (ht : Coherent τ d ok t) (hn : Stands t n ns) (hplain : d.Forthright (pathOf ns))
    (h : (Vfs.blob d n t).1 = .error cause) : d.blobOf (pathOf ns) = .error cause := by
  have hpath := (hn.shape (gives_stat hp ht hn).2.1.toShape).path_eq
  obtain ⟨e, info, he, hr, hkind⟩ | ⟨⟨e, he⟩, hr⟩ := stat_cases hp ht hn hplain
  all_goals
    rw [Vfs.blob, bind_apply hr] at h
    simp only [Disk.blobOf, he]
  · dsimp only at h
    rw [get_bind_run, hpath, hkind] at h
    by_cases hdir : e.item.kind = .dir
    · rw [if_pos hdir] at h ⊢
      exact h
    · rw [if_neg hdir] at h ⊢
      generalize ((Vfs.stat d n t).2.node n).memo.peek? .blob (fun _ => true) = note at h
      cases hread : d.read (pathOf ns) with
      | error e =>
        rw [hread] at h
        rcases note with _ | (_ | _ | _) <;> first | exact h | cases h
      | ok data =>
        rw [hread] at h
        rcases note with _ | (_ | _ | _) <;> cases h
  · exact h

theorem namesAt_error_eq (hp : d.Named) (hask : AskablePath τ d (splitPath path))
    (hplain : d.Forthright (pathOf (splitPath path))) (hdir : ¬ IsDir d path) (ht : Coherent τ d ok t) :
    (Vfs.namesAt d path t).1 = .error (d.unlisted (pathOf (splitPath path))) := by
  obtain ⟨ht₁, -, hn⟩ := gives_nodeAt ht hask
  have hpath := (hn.shape (gives_stat hp ht₁ hn).2.1.toShape).path_eq
  rw [Vfs.namesAt, Vfs.readDirAt, bind_run, bind_run, Vfs.readDir]
  obtain ⟨e, info, he, hr, hkind⟩ | ⟨⟨e, he⟩, hr⟩ := stat_cases hp ht₁ hn hplain
  all_goals
    rw [bind_apply hr, Disk.unlisted, Disk.kindAt, he]
  · have hother : info.kind ≠ .dir := fun hdir' => hdir (by rw [IsDir, Disk.kindAt, he, ← hdir', hkind])
    dsimp only
    rw [get_bind_run, if_neg hother, hpath]
    rfl
  · rfl

theorem blobOf_eq_ok {data : Bytes} (h : d.read path = .ok data) : d.blobOf path = .ok data := by
  rw [Disk.blobOf]
  cases he : d.entry path with
  | error e =>
    rw [Disk.read, he] at h
    cases h
  | ok e =>
    have hdir : e.item.kind ≠ .dir := by
      obtain ⟨item, modified⟩ := e
      rintro hdir
      cases item <;> cases hdir
      rw [Disk.read, he] at h
      cases h
    simp only [h, if_neg hdir]

/-- The bytes of a file are told the same way whatever was asked before. -/
theorem settled_blobAt (hp : d.Named) (hask : AskablePath τ d (splitPath path))
    (hplain : d.Forthright (pathOf (splitPath path))) :
    Settled τ d ok (Vfs.blobAt d path) (· = d.blobOf (pathOf (splitPath path))) := by
  refine ⟨_, rfl, fun t ht => (gives_nodeAt ht hask).bind fun n t₁ ht₁ _ hn => ?_⟩
  obtain ⟨ht₂, hframe, hread⟩ := gives_blob hp ht₁ hn
  refine ⟨ht₂, hframe, ?_⟩
  cases hr : (Vfs.blob d n t₁).1 with
  | error cause => exact (blob_error_eq hp ht₁ hn hplain hr).symm
  | ok data => exact (blobOf_eq_ok ((hread data).mp hr)).symm

end Refusals

/-! ## Contexts -/

namespace BuildContext

/-- Contexts for which the same sources are built. -/
structure BuildsAlike (b b' : BuildContext) : Prop where
  goos : b'.goos = b.goos
  goarch : b'.goarch = b.goarch
  tags : b'.tags = b.tags
  cgoEnabled : b'.cgoEnabled = b.cgoEnabled

namespace BuildsAlike

theorem matchTag_eq (h : b.BuildsAlike b') : b'.matchTag = b.matchTag := by
  funext tag
  unfold matchTag
  rw [h.goos, h.goarch, h.tags, h.cgoEnabled]

theorem matchFileName_eq (h : b.BuildsAlike b') : b'.matchFileName = b.matchFileName := by
  funext n
  unfold matchFileName
  rw [h.matchTag_eq]

theorem matchConstraints_eq (h : b.BuildsAlike b') : b'.matchConstraints = b.matchConstraints := by
  have hterm : b'.matchTerm = b.matchTerm := by
    funext term
    unfold matchTerm
    rw [h.matchTag_eq]
  have hplus : b'.matchPlusBuild = b.matchPlusBuild := by
    funext alternatives
    rw [matchPlusBuild, matchPlusBuild, hterm]
  funext src
  unfold matchConstraints
  rw [h.matchTag_eq, hplus]

end BuildsAlike

/-- Contexts in which directories are read alike: their standard libraries may be spelled in two ways. -/
structure ReadsAlike (b b' : BuildContext) : Prop where
  goroot : Path.normal b'.goroot = Path.normal b.goroot
  gopath : b'.gopath = b.gopath
  goos : b'.goos = b.goos
  goarch : b'.goarch = b.goarch
  tags : b'.tags = b.tags
  cgoEnabled : b'.cgoEnabled = b.cgoEnabled

namespace ReadsAlike

theorem refl (b : BuildContext) : b.ReadsAlike b := ⟨rfl, rfl, rfl, rfl, rfl, rfl⟩

theorem buildsAlike (h : b.ReadsAlike b') : b.BuildsAlike b' := ⟨h.goos, h.goarch, h.tags, h.cgoEnabled⟩

theorem importPathOf_eq (h : b.ReadsAlike b') (dir : String) : importPathOf d b' dir = importPathOf d b dir := by
  have hroot : Path.components b'.goroot = Path.components b.goroot := by
    rw [← Path.components_normal, h.goroot, Path.components_normal]
  have hstd : Path.relative? dir b'.gorootSrc = Path.relative? dir b.gorootSrc := by
    rw [Path.relative?, Path.relative?, Path.below?, Path.below?, gorootSrc, gorootSrc,
      Path.components_join_congr hroot (by decide)]
  rw [importPathOf, importPathOf, hstd, h.gopath]

end ReadsAlike

end BuildContext

/-! ## Clauses in order -/

/-- The name in the clause of a source in a place, empty if the source is not built, or why it cannot be read. -/
def nameIn (d : Disk) (b : BuildContext) (place : List String) (n : String) : Except ImportError String :=
  match d.blobOf (pathOf (place ++ [n])) with
  | .error e => .error (.ofVfs e)
  | .ok src => .ok (if b.matchConstraints src then clauseOf src else "")

/-- What sources that are read one after another tell: the first name, or the last failure. -/
def firstClause (names : String → Except ImportError String) :
    ImportError → List String → Except ImportError String
  | failure, [] => .error failure
  | failure, n :: rest => match names n with
    | .error e => firstClause names e rest
    | .ok name => if name = "" then firstClause names failure rest else .ok name

theorem firstClause_cons_cons (names : String → Except ImportError String) (failure : ImportError) (n : String)
    (rest : List String) :
    firstClause names failure (n :: n :: rest) = firstClause names failure (n :: rest) := by
  cases h : names n with
  | error e => simp only [firstClause, h]
  | ok name =>
    by_cases hname : name = ""
    · simp only [firstClause, h, hname, if_true]
    · simp only [firstClause, h, if_neg hname]

/-- A source that is listed again changes nothing. -/
theorem firstClause_dedup {names : String → Except ImportError String} (hsorted : ns.Pairwise (· ≤ ·))
    (failure : ImportError) : firstClause names failure ns.dedup = firstClause names failure ns := by
  induction ns generalizing failure with
  | nil => rfl
  | cons n ns ih =>
    obtain ⟨hle, hrest⟩ := List.pairwise_cons.mp hsorted
    by_cases hn : n ∈ ns
    · rw [List.dedup_cons_of_mem hn, ih hrest]
      cases ns with
      | nil => cases hn
      | cons m ms =>
        have hmn : m ≤ n := by
          rcases List.mem_cons.mp hn with rfl | hn
          · exact le_refl n
          · exact (List.pairwise_cons.mp hrest).1 n hn
        obtain rfl : n = m := le_antisymm (hle m List.mem_cons_self) hmn
        exact (firstClause_cons_cons names failure n ms).symm
    · rw [List.dedup_cons_of_notMem hn, firstClause, firstClause]
      simp only [ih hrest]

/-- Which sources there are decides what they tell. -/
theorem firstClause_eq {names : String → Except ImportError String} {ms : List String} (hns : ns.Pairwise (· ≤ ·))
    (hms : ms.Pairwise (· ≤ ·)) (hmem : ∀ n, n ∈ ns ↔ n ∈ ms) (failure : ImportError) :
    firstClause names failure ns = firstClause names failure ms := by
  have hstrict : ∀ {ks : List String}, ks.Pairwise (· ≤ ·) → ks.dedup.Pairwise (· < ·) := fun hks =>
    ((hks.sublist (List.dedup_sublist _)).and (List.nodup_dedup _)).imp fun h => lt_of_le_of_ne h.1 h.2
  rw [← firstClause_dedup hns, ← firstClause_dedup hms,
    (hstrict hns).eq_of_mem_iff (hstrict hms) fun n => by rw [List.mem_dedup, List.mem_dedup, hmem]]

/-! ## Packages -/

/-- A name is that of a source which the platform selects. -/
def BuildContext.Reads (b : BuildContext) (n : String) : Prop := isPackageFileName n = true ∧ b.matchFileName n = true

instance (n : String) : Decidable (b.Reads n) := inferInstanceAs (Decidable (_ ∧ _))

/-- The sources among the names in a directory, in the order in which they are read. -/
def BuildContext.sourcesAmong (b : BuildContext) (names : List String) : List String :=
  (names.filter fun n => isPackageFileName n && b.matchFileName n).mergeSort fun s t => !decide (t < s)

theorem mem_sourcesAmong {names : List String} {n : String} : n ∈ b.sourcesAmong names ↔ n ∈ names ∧ b.Reads n := by
  rw [BuildContext.sourcesAmong, List.mem_mergeSort, List.mem_filter, Bool.and_eq_true, BuildContext.Reads]

theorem pairwise_sourcesAmong (b : BuildContext) (names : List String) : (b.sourcesAmong names).Pairwise (· ≤ ·) := by
  have hle : (fun s t : String => !decide (t < s)) = fun s t => decide (s ≤ t) := by
    funext s t
    rw [← decide_not, decide_eq_decide]
    exact not_lt
  rw [BuildContext.sourcesAmong, hle]
  exact List.pairwise_mergeSort' (· ≤ ·) _

/-- A directory that the disk refuses only if it is not there, and so with the sources that are read in it. -/
structure Forthcoming (d : Disk) (b : BuildContext) (dir : String) : Prop where
  place : d.Forthright (pathOf (splitPath dir))
  names : ∀ n ∈ d.names (pathOf (splitPath dir)), b.Reads n → IsName n
  sources : ∀ n ∈ d.names (pathOf (splitPath dir)), b.Reads n → d.Forthright (pathOf (splitPath dir ++ [n]))

/-- What is told of the package in a directory, given the name in a clause. -/
def describe (d : Disk) (b : BuildContext) (dir name : String) : PackageInfo :=
  let (importPath, goroot) := (importPathOf d b dir blankTree).1
  PackageInfo.finalize { dir, name, importPath, goroot }

/-- What package the disk has in a directory. -/
def packageIn (d : Disk) (b : BuildContext) (dir : String) : Except ImportError PackageInfo :=
  let place := splitPath dir
  if IsDir d dir then
    (firstClause (nameIn d b place) (.noGo dir) (b.sourcesAmong (d.names (pathOf place)))).map (describe d b dir)
  else .error (.ofVfs (d.unlisted (pathOf place)))

section Package

variable (hp : d.Named) (hforth : Forthcoming d b dir) (hdir : AskablePath τ d (splitPath dir))
  (hclean : AskablePath τ d (splitPath (Path.clean dir)))

include hp hforth hdir hclean

theorem settled_readClauses {names : List String}
    (hnames : ∀ n ∈ names, n ∈ d.names (pathOf (splitPath dir)) ∧ b.Reads n) (failure : ImportError) :
    Settled τ d ok (readClauses d b dir failure names)
      (· = (firstClause (nameIn d b (splitPath dir)) failure names).map (describe d b dir)) := by
  induction names generalizing failure with
  | nil => exact .pure rfl
  | cons n names ih =>
    obtain ⟨⟨hlisted, hreads⟩, hnames⟩ := List.forall_mem_cons.mp hnames
    have hname := hforth.names n hlisted hreads
    have hsplit : splitPath (Path.join dir n) = splitPath dir ++ [n] := by
      rw [splitPath_join (Path.isAbsolute_of_isName hname), splitPath_of_isName hname]
    have hask : AskablePath τ d (splitPath (Path.join dir n)) :=
      hsplit ▸ hdir.concat hname.1 fun _ _ _ => hlisted
    have hread : Settled τ d ok (Vfs.blobAt d (Path.join dir n)) (· = d.blobOf (pathOf (splitPath dir ++ [n]))) := by
      rw [← hsplit]
      exact settled_blobAt hp hask (hsplit ▸ hforth.sources n hlisted hreads)
    rw [readClauses]
    refine hread.bind fun r hr => ?_
    subst hr
    rw [firstClause, nameIn]
    cases d.blobOf (pathOf (splitPath dir ++ [n])) with
    | error e =>
      dsimp only
      exact ih hnames _
    | ok src =>
      dsimp only
      have hpackage : (if b.matchConstraints src then SourceFile.parse .skipBodies src else {}).package =
          if b.matchConstraints src then clauseOf src else "" := by
        rw [clauseOf]
        split <;> rfl
      rw [hpackage]
      generalize (if b.matchConstraints src then clauseOf src else "") = name
      by_cases hempty : name = ""
      · rw [if_pos hempty, if_pos hempty]
        exact ih hnames _
      · rw [if_neg hempty, if_neg hempty]
        have himport : Settled τ d ok (importPathOf d b dir) (· = (importPathOf d b dir blankTree).1) :=
          ⟨_, rfl, (settled_importPathOf hp b hclean).answer.2⟩
        refine himport.bind fun x hx => .pure ?_
        rw [hx]
        rfl

/-- On every tree that is trusted with the sources of a directory, the directory is read as the disk has it. -/
theorem settled_readPackage (htrusted : ∀ n, b.Reads n → τ (splitPath dir) n) :
    Settled τ d ok (readPackage d b dir) (· = packageIn d b dir) := by
  refine ⟨_, rfl, fun t ht => ?_⟩
  have hnames := gives_namesAt hp ht hdir
  by_cases his : IsDir d dir
  · rw [packageIn, if_pos his]
    refine hnames.bind fun r t' ht' _ hr => ?_
    have hkind : d.kindAt (pathOf (splitPath dir)) = some .dir := his
    rw [Vfs.Lists, if_pos hkind] at hr
    obtain ⟨names, rfl, hlisted⟩ := hr
    have hsame : ∀ n, n ∈ b.sourcesAmong names ↔ n ∈ b.sourcesAmong (d.names (pathOf (splitPath dir))) := by
      intro n
      rw [mem_sourcesAmong, mem_sourcesAmong]
      exact and_congr_left fun hn => hlisted n (isSourceFile_of_isPackageFileName hn.1) (htrusted n hn)
    have hread : ∀ n ∈ b.sourcesAmong names, n ∈ d.names (pathOf (splitPath dir)) ∧ b.Reads n := fun n hn =>
      mem_sourcesAmong.mp ((hsame n).mp hn)
    obtain ⟨a, rfl, ha⟩ := settled_readClauses hp hforth hdir hclean hread (.noGo dir)
    rw [firstClause_eq (pairwise_sourcesAmong _ _) (pairwise_sourcesAmong _ _) hsame] at ha
    exact ha t' ht'
  · rw [packageIn, if_neg his]
    have hnone := namesAt_error_eq hp hdir hforth.place his ht
    refine (show Gives τ d ok (Vfs.namesAt d dir) t fun r _ => r = _ from ⟨hnames.1, hnames.2.1, hnone⟩).bind
      fun r t' ht' _ hr => ?_
    subst hr
    exact .pure ht' rfl

end Package

/-- Contexts in which directories are read alike find the same packages. -/
theorem BuildContext.ReadsAlike.packageIn_eq (h : b.ReadsAlike b') (dir : String) :
    packageIn d b' dir = packageIn d b dir := by
  have hnames : nameIn d b' = nameIn d b := by
    funext place n
    rw [nameIn, nameIn, h.buildsAlike.matchConstraints_eq]
  have hsources : b'.sourcesAmong = b.sourcesAmong := by
    funext names
    rw [BuildContext.sourcesAmong, BuildContext.sourcesAmong, h.buildsAlike.matchFileName_eq]
  have hdescribe : describe d b' dir = describe d b dir := by
    funext name
    rw [describe, describe, h.importPathOf_eq]
  rw [packageIn, packageIn, hnames, hsources, hdescribe]

/-! ## Inspections -/

/-- A question about the package in a directory, asked in a context. -/
structure Inspection where
  build : BuildContext
  dir : String

namespace Inspection

variable {i j : Inspection} {is : List Inspection}

/-- The directory as its package spells it. -/
def cleanDir (i : Inspection) : String := Path.clean i.dir

def place (i : Inspection) : List String := splitPath i.cleanDir

/-- What the answer is noted under. -/
def key (i : Inspection) : CacheKey := .importDir (Path.normal i.build.goroot) i.build.gopathText

def run (d : Disk) (i : Inspection) : StateM Tree (Except ImportError PackageInfo) := importDir d i.build i.dir

/-- Answers one inspection after another. -/
def runAll (d : Disk) (is : List Inspection) (t : Tree) : Tree := is.foldl (fun t i => (i.run d t).2) t

/-- Inspections that do not disturb each other. Those that share a note spell the directory alike and read it alike,
none goes through a source that another one looks for in vain, and no directory is refused but for not being there. -/
structure Independent (d : Disk) (is : List Inspection) : Prop where
  shared : ∀ i ∈ is, ∀ j ∈ is, i.place = j.place → i.key = j.key →
    j.cleanDir = i.cleanDir ∧ i.build.ReadsAlike j.build
  through : ∀ i ∈ is, ∀ j ∈ is, ∀ n, j.place ++ [n] <+: i.place → j.build.Reads n → IsDir d j.cleanDir →
    n ∈ d.names (pathOf j.place)
  openly : ∀ i ∈ is, Forthcoming d i.build i.cleanDir

/-- A tree is trusted with the sources that inspections read. -/
def reading (is : List Inspection) : Trust := fun ns n => ∃ i ∈ is, ns = i.place ∧ i.build.Reads n

/-- What is noted by inspections: what the disk has for each that makes notes under the key. -/
def NotedBy (d : Disk) (is : List Inspection) (ns : List String) (k : CacheKey) (x : CacheValue) : Prop :=
  ∀ i ∈ is, i.place = ns → i.key = k → x = .info (packageIn d i.build i.cleanDir)

namespace Independent

theorem askable (h : Independent d is) (hi : i ∈ is) : AskablePath (reading is) d i.place := by
  intro pre s hpre
  refine ⟨(isName_of_mem_splitPath (hpre.subset (by simp))).1, ?_⟩
  rintro - ⟨j, hj, rfl, hreads⟩ ⟨e, he, hdir⟩
  have hkind : d.kindAt (pathOf j.place) = some .dir := by rw [Disk.kindAt, he, ← hdir]
  exact h.through i hi j hj s hpre hreads hkind

theorem settled_readPackage (hp : d.Named) (h : Independent d is) (hi : i ∈ is) :
    Settled (reading is) d ok (readPackage d i.build i.cleanDir) (· = packageIn d i.build i.cleanDir) :=
  Go.settled_readPackage hp (h.openly i hi) (h.askable hi) (by rw [cleanDir, Path.clean_clean]; exact h.askable hi)
    fun n hn => ⟨i, hi, rfl, hn⟩

theorem gives_run (hp : d.Named) (h : Independent d is) (hi : i ∈ is) (ht : Coherent (reading is) d (NotedBy d is) t) :
    Gives (reading is) d (NotedBy d is) (i.run d) t fun r _ => r = packageIn d i.build i.cleanDir := by
  refine (gives_nodeAt ht (h.askable hi)).bind fun n t₁ ht₁ _ hn => ?_
  refine (gives_readNote (k := i.key) ht₁ hn fun t₂ ht₂ => ?_).bind fun x t₂ ht₂ _ hx => ?_
  · refine ((h.settled_readPackage hp hi).gives ht₂).bind fun r t₃ ht₃ _ hr => .pure ht₃ fun j hj hplace hkey => ?_
    -- Whoever shares the note would have read the same.
    obtain ⟨hdir, halike⟩ := h.shared i hi j hj hplace.symm hkey.symm
    rw [hr, hdir, halike.packageIn_eq]
  · rw [hx i hi rfl rfl]
    exact .pure ht₂ rfl

theorem coherent_runAll (hp : d.Named) (h : Independent d is) {js : List Inspection} (hjs : js ⊆ is)
    (ht : Coherent (reading is) d (NotedBy d is) t) :
    Coherent (reading is) d (NotedBy d is) (runAll d js t) := by
  induction js generalizing t with
  | nil => exact ht
  | cons j js ih =>
    obtain ⟨hj, hjs⟩ := List.cons_subset.mp hjs
    rw [runAll, List.foldl_cons]
    exact ih hjs (h.gives_run hp hj ht).1

end Independent

/-- Whatever was inspected before, in whichever contexts, a directory is told as it is read on a tree of its own. -/
theorem answer_eq_readPackage (hp : d.Named) (h : Independent d (i :: is)) (e e' : Expiry) :
    (i.run d (runAll d is (Vfs.make e))).1 = (readPackage d i.build i.cleanDir (Vfs.make e')).1 := by
  have hi : i ∈ i :: is := List.mem_cons_self
  have hshared := h.gives_run hp hi (h.coherent_runAll hp (List.subset_cons_self i is) (coherent_make _ d _ e))
  have hown := (h.settled_readPackage hp hi).gives (coherent_make _ d (NotedBy d (i :: is)) e')
  exact hshared.2.2.trans hown.2.2.symm

end Inspection

/-! ## Two platforms

A directory with a source for each of two platforms, read for each with roots of its own. -/

namespace TwoPlatforms

def disk : Disk := ⟨[
  (["p"], ⟨.dir, 0⟩), (["p", "a_linux.go"], ⟨.file (Utf8.encode "package l") none, 0⟩),
  (["p", "a_windows.go"], ⟨.file (Utf8.encode "package w") none, 0⟩)]⟩

def inspection (goos : String) : Inspection := ⟨⟨"/" ++ goos, [], goos, "amd64", [], false, ⟨[]⟩⟩, "/p"⟩

theorem locate_eq {ns : List String} (hns : ns ∈ [["p"], ["p", "a_linux.go"], ["p", "a_windows.go"]]) :
    disk.locate (pathOf ns) true = .ok ns := by
  simp only [List.mem_cons, List.not_mem_nil, or_false] at hns
  rcases hns with rfl | rfl | rfl
  all_goals
    rw [Disk.locate_pathOf (by decide) (by decide) (by decide) (by decide)]
    cbv

theorem names_eq : disk.names (pathOf ["p"]) = ["a_linux.go", "a_windows.go"] := by
  rw [Disk.names, Disk.list, locate_eq (by decide)]
  cbv

theorem place_eq (goos : String) : (inspection goos).place = ["p"] := by
  change splitPath (Path.clean "/p") = ["p"]
  decide

theorem opened (goos : String) : Forthcoming disk (inspection goos).build (inspection goos).cleanDir := by
  have hplace : splitPath (inspection goos).cleanDir = ["p"] := place_eq goos
  have hnames : ∀ n ∈ disk.names (pathOf ["p"]), n = "a_linux.go" ∨ n = "a_windows.go" := by simp [names_eq]
  refine ⟨?_, ?_, ?_⟩
  all_goals rw [hplace]
  · exact forthright_of_locate (locate_eq (by decide)) (by decide)
  · rintro n hn -
    rcases hnames n hn with rfl | rfl <;> decide
  · rintro n hn -
    rcases hnames n hn with rfl | rfl
    · exact forthright_of_locate (locate_eq (by decide)) (by decide)
    · exact forthright_of_locate (locate_eq (by decide)) (by decide)

theorem independent : Inspection.Independent disk [inspection "linux", inspection "windows"] := by
  have hone : ∀ i ∈ [inspection "linux", inspection "windows"], ∃ goos, i = inspection goos := by simp
  have hkeys : (inspection "linux").key ≠ (inspection "windows").key := by decide
  refine ⟨fun i hi j hj _ hkey => ?_, fun i hi j hj n hpre => ?_, fun i hi => ?_⟩
  · simp only [List.mem_cons, List.not_mem_nil, or_false] at hi hj
    rcases hi with rfl | rfl <;> rcases hj with rfl | rfl
    · exact ⟨rfl, .refl _⟩
    · exact absurd hkey hkeys
    · exact absurd hkey.symm hkeys
    · exact ⟨rfl, .refl _⟩
  · obtain ⟨goos, rfl⟩ := hone i hi
    obtain ⟨goos', rfl⟩ := hone j hj
    rw [place_eq, place_eq] at hpre
    exact absurd hpre.length_le (by simp)
  · obtain ⟨goos, rfl⟩ := hone i hi
    exact opened goos

end TwoPlatforms

open TwoPlatforms in
theorem Inspection.answer_eq_readPackage_platforms :
    disk.Named ∧ Independent disk [inspection "linux", inspection "windows"] ∧
      ((inspection "linux").run disk (runAll disk [inspection "windows"] (Vfs.make .never))).1 =
        (readPackage disk (inspection "linux").build (inspection "linux").cleanDir (Vfs.make .never)).1 :=
  ⟨by decide, independent, answer_eq_readPackage (by decide) independent .never .never⟩

end Go
end EditorAgent

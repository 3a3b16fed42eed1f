import EditorAgent.Proofs.Go.Sources

/-!
# Reading a directory's package off its sources

Which package a directory holds is told by the clauses of the sources that are built, whether they are read for a
package's information or for an import. Both are described over a tree that may be asked for the sources of this
directory, on a disk whose links and names may be any.
-/

namespace EditorAgent.Go

open Vfs

variable {d : Disk} {b : BuildContext} {flags : CheckFlags} {ok : List String → CacheKey → CacheValue → Prop}
  {dir n : String} {src : Bytes} {mode : ParseMode}

/-! ## Clauses -/

/-- The name in the package clause of a source; empty if there is none. -/
def clauseOf (src : Bytes) : String := (SourceFile.parse .skipBodies src).package

/-- The clause is read whether or not the bodies are. -/
theorem package_parse (mode : ParseMode) (src : Bytes) : (SourceFile.parse mode src).package = clauseOf src := by
  rw [clauseOf, SourceFile.parse, SourceFile.parse]
  split
  · rfl
  · cases Syntax.Language.parse language src <;> rfl

theorem stub_foldl_addPart (src : Syntax.Source) (ns : List Syntax.Node) (f : SourceFile) :
    (ns.foldl (SourceFile.addPart src) f).stub = f.stub := by
  induction ns generalizing f with
  | nil => rfl
  | cons n ns ih =>
    rw [List.foldl_cons, ih, SourceFile.addPart]
    split_ifs <;> rfl

/-- A source that stands for an empty file has no clause. -/
theorem clauseOf_of_stub (h : (SourceFile.parse mode src).stub = true) : clauseOf src = "" := by
  rw [← package_parse mode]
  rw [SourceFile.parse] at h ⊢
  split
  · rfl
  · next hne =>
    rw [if_neg hne] at h
    cases hroot : Syntax.Language.parse language src with
    | none => rfl
    | some root =>
      rw [hroot] at h
      have hstub := stub_foldl_addPart (Syntax.Source.ofBytes src) root.namedChildren {}
      cases hstub.symm.trans h

/-! ## Sources that are built -/

theorem headerLines_nil : headerLines [] = [""] := by
  have htrim : Text.trim "" = "" := by decide
  have hheader : takeHeader false [""] = [""] := by decide
  rw [headerLines, splitLines, List.map_singleton, lossy_nil, htrim, hheader]

/-- An empty source is built everywhere. -/
theorem matchConstraints_nil (b : BuildContext) : b.matchConstraints [] = true := by
  have hbuild : [""].findSome? goBuild? = none := by decide
  have hplus : [""].filterMap plusBuild? = [] := by decide
  simp only [BuildContext.matchConstraints, headerLines_nil, hbuild, hplus, List.all_nil]

/-- A name is that of a source which the platform selects. -/
def Selected (d : Disk) (b : BuildContext) (dir n : String) : Prop :=
  n ∈ d.names dir ∧ isPackageFileName n = true ∧ b.matchFileName n = true

/-- A source of a directory that is built, with its bytes. -/
structure Built (d : Disk) (b : BuildContext) (dir n : String) (src : Bytes) : Prop where
  selected : Selected d b dir n
  read : d.read (Path.join dir n) = .ok src
  constraints : b.matchConstraints src = true

/-- A directory is spelled as a tree spells it, and so are the sources that are selected in it. -/
structure Spelled (d : Disk) (b : BuildContext) (dir : String) : Prop where
  path : dir = pathOf (splitPath dir)
  names : ∀ n, Selected d b dir n → IsName n

/-- A tree is trusted with the names right below a directory. -/
def inside (dir : String) : Trust := fun ns _ => ns = splitPath dir

theorem askable_inside (d : Disk) (dir : String) : AskablePath (inside dir) d (splitPath dir) := by
  intro pre s hpre
  refine ⟨(isName_of_mem_splitPath (hpre.subset (by simp))).1, fun _ heq _ => ?_⟩
  obtain rfl : pre = splitPath dir := heq
  have hlength := hpre.length_le
  rw [List.length_append, List.length_singleton] at hlength
  omega

namespace Spelled

theorem splitPath_source (h : Spelled d b dir) (hn : Selected d b dir n) :
    splitPath (Path.join dir n) = splitPath dir ++ [n] := by
  have hname := h.names n hn
  rw [splitPath_join (Path.isAbsolute_of_isName hname), splitPath_of_isName hname]

theorem pathOf_source (h : Spelled d b dir) (hn : Selected d b dir n) :
    pathOf (splitPath (Path.join dir n)) = Path.join dir n := by
  have hjoin := Path.join_pathOf (fun s hs => isName_of_mem_splitPath (p := dir) hs) (h.names n hn)
  rw [h.splitPath_source hn, ← hjoin, ← h.path]

theorem askable_source (h : Spelled d b dir) (hn : Selected d b dir n) :
    AskablePath (inside dir) d (splitPath (Path.join dir n)) := by
  rw [h.splitPath_source hn]
  refine (askable_inside d dir).concat (h.names n hn).1 fun _ _ _ => ?_
  rw [← h.path]
  exact hn.1

end Spelled

/-! ## Sources of an import -/

theorem isSourceName_under (htests : flags.tests = false) :
    (Importer.under b flags {} []).isSourceName n = (isPackageFileName n && b.matchFileName n) := by
  simp only [Importer.isSourceName, Importer.under, isPackageFileName, htests, Bool.false_or]
  congr 1
  generalize Text.endsWith n ".go" = x
  generalize Text.startsWith n "." = y
  generalize Text.startsWith n "_" = z
  cases x <;> cases y <;> cases z <;> rfl

theorem mem_sourceNames_iff (h : Spelled d b dir) (htests : flags.tests = false) :
    n ∈ sourceNames d b flags {} dir ↔ Selected d b dir n := by
  have hnone : (Importer.under b flags {} []).overriddenNames dir = [] := rfl
  rw [sourceNames, List.mem_filter, (SourceFile.nameSet_spec _).2, hnone, List.append_nil, ← h.path,
    isSourceName_under htests, Bool.and_eq_true, Selected]

/-- No source stands in front of the disk, and the tree's spelling is the disk's. -/
theorem contents_eq_ok_iff (h : Spelled d b dir) (hn : Selected d b dir n) :
    contents d {} (Path.join dir n) = .ok src ↔ d.read (Path.join dir n) = .ok src := by
  have hnone : Overlay.source? {} (Path.join dir n) = none := rfl
  rw [contents, hnone, h.pathOf_source hn]
  cases d.read (Path.join dir n) <;> simp

theorem mem_arrange_iff {files : List PackageFile} {f : PackageFile} :
    f ∈ Importer.arrange files ↔ f ∈ files ∧ Text.endsWith f.parsed.package "_test" = false := by
  simp only [Importer.arrange, List.mem_append, List.mem_filter]
  cases Text.endsWith f.path "_test.go" <;> cases f.parsed.isCgo <;> simp

theorem mem_of_mapM_ok {α β ε : Type} {f : α → Except ε β} {xs : List α} {ys : List β} (h : xs.mapM f = .ok ys) :
    (∀ x ∈ xs, ∃ y ∈ ys, f x = .ok y) ∧ ∀ y ∈ ys, ∃ x ∈ xs, f x = .ok y := by
  induction xs generalizing ys with
  | nil =>
    cases h
    simp
  | cons x xs ih =>
    rw [List.mapM_cons] at h
    cases hx : f x with
    | error e =>
      rw [hx] at h
      cases h
    | ok y =>
      rw [hx] at h
      cases hrest : xs.mapM f with
      | error e =>
        rw [hrest] at h
        cases h
      | ok rest =>
        rw [hrest] at h
        cases h
        obtain ⟨hto, hfrom⟩ := ih hrest
        constructor
        · intro z hz
          rcases List.mem_cons.mp hz with rfl | hz
          · exact ⟨y, List.mem_cons_self, hx⟩
          · obtain ⟨w, hw, hfw⟩ := hto z hz
            exact ⟨w, List.mem_cons_of_mem _ hw, hfw⟩
        · intro w hw
          rcases List.mem_cons.mp hw with rfl | hw
          · exact ⟨x, List.mem_cons_self, hx⟩
          · obtain ⟨z, hz, hfz⟩ := hfrom w hw
            exact ⟨z, List.mem_cons_of_mem _ hz, hfz⟩

/-- A source that can be read as a file is one, if it is built. -/
theorem exists_of_readFile (h : Spelled d b dir) (hn : Selected d b dir n) {f : Option PackageFile}
    (hf : readFile d b flags {} (Path.join dir n) = .ok f) :
    ∃ src, d.read (Path.join dir n) = .ok src ∧
      f = if b.matchConstraints src then some ⟨Path.join dir n, SourceFile.parse flags.mode src⟩ else none := by
  rw [readFile] at hf
  split at hf
  · cases hf
  · next src hsrc =>
    refine ⟨src, (contents_eq_ok_iff h hn).mp hsrc, ?_⟩
    cases hconstraints : b.matchConstraints src with
    | false =>
      rw [hconstraints] at hf
      exact (Except.ok.inj hf).symm
    | true =>
      simp only [hconstraints, Bool.not_true, Bool.false_eq_true, if_false] at hf
      split at hf
      · cases hf
      · exact (Except.ok.inj hf).symm

/-- The files of a package are the sources that are built, but for those of a separate test package. -/
structure Sourced (d : Disk) (b : BuildContext) (flags : CheckFlags) (dir : String) (files : List PackageFile) :
    Prop where
  readable : ∀ n, Selected d b dir n → ∃ src, d.read (Path.join dir n) = .ok src
  sound : ∀ f ∈ files, ∃ n src, Built d b dir n src ∧ f.parsed = SourceFile.parse flags.mode src
  complete : ∀ n src, Built d b dir n src → Text.endsWith (clauseOf src) "_test" = false →
    ∃ f ∈ files, f.parsed = SourceFile.parse flags.mode src

theorem sourced_of_sources (h : Spelled d b dir) (htests : flags.tests = false) {files : List PackageFile}
    (hs : sources d b flags {} dir = .ok files) : Sourced d b flags dir files := by
  rw [sources] at hs
  cases hread : (sourceNames d b flags {} dir).mapM fun n => readFile d b flags {} (Path.join dir n) with
  | error e =>
    rw [hread] at hs
    cases hs
  | ok found =>
    obtain ⟨hto, hfrom⟩ := mem_of_mapM_ok hread
    have hfiles : Importer.arrange (found.filterMap id) = files := by
      rw [hread] at hs
      simp only at hs
      split at hs
      · cases hs
      · exact Except.ok.inj hs
    have hmem : ∀ f, f ∈ files ↔ some f ∈ found ∧ Text.endsWith f.parsed.package "_test" = false := by
      intro f
      rw [← hfiles, mem_arrange_iff]
      simp
    refine ⟨fun n hn => ?_, fun f hf => ?_, fun n src hbuilt htest => ?_⟩
    · obtain ⟨o, -, ho⟩ := hto n ((mem_sourceNames_iff h htests).mpr hn)
      exact (exists_of_readFile h hn ho).imp fun _ hsrc => hsrc.1
    · obtain ⟨n, hn, ho⟩ := hfrom (some f) ((hmem f).mp hf).1
      have hn : Selected d b dir n := (mem_sourceNames_iff h htests).mp hn
      obtain ⟨src, hsrc, hfile⟩ := exists_of_readFile h hn ho
      split at hfile
      · next hconstraints =>
        cases hfile
        exact ⟨n, src, ⟨hn, hsrc, hconstraints⟩, rfl⟩
      · cases hfile
    · obtain ⟨o, hmemo, ho⟩ := hto n ((mem_sourceNames_iff h htests).mpr hbuilt.selected)
      obtain ⟨src', hsrc, rfl⟩ := exists_of_readFile h hbuilt.selected ho
      obtain rfl : src' = src := Except.ok.inj (hsrc.symm.trans hbuilt.read)
      rw [if_pos hbuilt.constraints] at hmemo
      exact ⟨_, (hmem _).mpr ⟨hmemo, (package_parse flags.mode src').symm ▸ htest⟩, rfl⟩

/-! ## Sources of a package's information -/

/-- What is told of a directory's package, read off some of its sources: the name in a clause, or that there is none. -/
inductive Reading (d : Disk) (b : BuildContext) (dir : String) (failure : ImportError) (ns : List String) :
    Except ImportError PackageInfo → Prop
  | named {n : String} {src : Bytes} {info : PackageInfo} (listed : n ∈ ns) (built : Built d b dir n src)
    (clause : clauseOf src ≠ "") (name : info.name = clauseOf src) : Reading d b dir failure ns (.ok info)
  | nameless {e : ImportError} (clauses : ∀ n ∈ ns, ∀ src, Built d b dir n src → clauseOf src = "")
    (cause : (∀ n ∈ ns, ∃ src, d.read (Path.join dir n) = .ok src) → e = failure) :
    Reading d b dir failure ns (.error e)

namespace Reading

variable {failure failure' : ImportError} {ns : List String} {r : Except ImportError PackageInfo}

/-- A source without a clause is passed over. -/
theorem cons (h : Reading d b dir failure' ns r) (hn : ∀ src, Built d b dir n src → clauseOf src = "")
    (hfailure : (∃ src, d.read (Path.join dir n) = .ok src) → failure' = failure) :
    Reading d b dir failure (n :: ns) r := by
  cases h with
  | named listed built clause name => exact .named (List.mem_cons_of_mem _ listed) built clause name
  | nameless clauses cause =>
    refine .nameless (List.forall_mem_cons.mpr ⟨hn, clauses⟩) fun hread => ?_
    obtain ⟨hhead, hrest⟩ := List.forall_mem_cons.mp hread
    exact (cause hrest).trans (hfailure hhead)

end Reading

/-- The clauses of sources, read through a tree that may be asked for them. -/
theorem reading_readClauses (hp : d.Named) (h : Spelled d b dir) {ns : List String} (hns : ∀ n ∈ ns, Selected d b dir n)
    (failure : ImportError) {v : Tree} (hv : Coherent (inside dir) d ok v) :
    Reading d b dir failure ns (readClauses d b dir failure ns v).1 := by
  induction ns generalizing failure v with
  | nil => exact .nameless (by simp) fun _ => rfl
  | cons n ns ih =>
    obtain ⟨hn, hns⟩ := List.forall_mem_cons.mp hns
    obtain ⟨hv', -, hblob⟩ := gives_blobAt hp hv (h.askable_source hn)
    rw [h.pathOf_source hn] at hblob
    rw [readClauses, bind_run]
    generalize Vfs.blobAt d (Path.join dir n) v = looked at hv' hblob
    obtain ⟨r, v'⟩ := looked
    cases r with
    | error e =>
      have hunread : ¬ ∃ src, d.read (Path.join dir n) = .ok src := by
        rintro ⟨src, hsrc⟩
        cases (hblob src).mpr hsrc
      exact (ih hns (.ofVfs e) hv').cons (fun src hbuilt => absurd ⟨src, hbuilt.read⟩ hunread) fun hread =>
        absurd hread hunread
    | ok src =>
      have hread := (hblob src).mp rfl
      have hsame : ∀ src', Built d b dir n src' → src' = src := fun src' hbuilt =>
        Except.ok.inj (hbuilt.read.symm.trans hread)
      dsimp only
      by_cases hconstraints : b.matchConstraints src = true
      · rw [if_pos hconstraints]
        split
        · next hempty =>
          exact (ih hns failure hv').cons (fun src' hbuilt => (hsame src' hbuilt) ▸ hempty) fun _ => rfl
        · next hclause => exact .named List.mem_cons_self ⟨hn, hread, hconstraints⟩ hclause rfl
      · rw [if_neg hconstraints, if_pos rfl]
        have hunbuilt : ∀ src', ¬ Built d b dir n src' := fun src' hbuilt =>
          hconstraints (hsame src' hbuilt ▸ hbuilt.constraints)
        exact (ih hns failure hv').cons (fun src' hbuilt => absurd hbuilt (hunbuilt src')) fun _ => rfl

theorem reading_readPackage (hp : d.Named) (h : Spelled d b dir) (his : IsDir d dir) {v : Tree}
    (hv : Coherent (inside dir) d ok v) :
    ∃ ns, (∀ n, n ∈ ns ↔ Selected d b dir n) ∧ Reading d b dir (.noGo dir) ns (readPackage d b dir v).1 := by
  obtain ⟨hv', -, hlists⟩ := gives_namesAt hp hv (askable_inside d dir)
  have hkind : d.kindAt (pathOf (splitPath dir)) = some .dir := his
  rw [Vfs.Lists, if_pos hkind, ← h.path] at hlists
  obtain ⟨names, hr, hnames⟩ := hlists
  have hselected : ∀ n, n ∈ (names.filter fun n => isPackageFileName n && b.matchFileName n).mergeSort
      (fun s t => !decide (t < s)) ↔ Selected d b dir n := by
    intro n
    rw [List.mem_mergeSort, List.mem_filter, Bool.and_eq_true, Selected]
    exact and_congr_left fun hn => hnames n (isSourceFile_of_isPackageFileName hn.1) rfl
  refine ⟨_, hselected, ?_⟩
  rw [readPackage, bind_run, hr]
  exact reading_readClauses hp h (fun n hn => (hselected n).mp hn) (.noGo dir) hv'

/-- Nothing is noted in a tree that allows no notes, so a note is computed. -/
theorem exists_readNote_eq {n : NodeId} {ns : List String} {v : Tree} {allowed : Trust} (k : CacheKey)
    (init : StateM Tree CacheValue) (hv : Coherent allowed d (fun _ _ _ => False) v) (hn : Stands v n ns) :
    ∃ v', Coherent allowed d (fun _ _ _ => False) v' ∧ (Vfs.readNote n k init v).1 = (init v').1 := by
  refine ⟨v.noteStarted n k, (hv.noteStarted hn k).1, ?_⟩
  rw [readNote_eq]
  split
  · next x hfound =>
    obtain ⟨hkept, -⟩ := Memo.start_found hfound
    exact absurd ((hv.sound n hn.lt).notes _ _ hkept) id
  · rfl
  · rfl

/-- What a directory's package is, asked of a new tree. -/
theorem reading_importDir (hp : d.Named) (h : Spelled d b (Path.clean dir)) (his : IsDir d (Path.clean dir))
    (e : Expiry) :
    ∃ ns, (∀ n, n ∈ ns ↔ Selected d b (Path.clean dir) n) ∧
      Reading d b (Path.clean dir) (.noGo (Path.clean dir)) ns (importDir d b dir (Vfs.make e)).1 := by
  have hfresh : Coherent (inside (Path.clean dir)) d (fun _ _ _ => False) (Vfs.make e : Tree) := coherent_make ..
  have hnode : Gives (inside (Path.clean dir)) d (fun _ _ _ => False) (Vfs.nodeAt (Path.clean dir)) (Vfs.make e : Tree)
      fun n v => Stands v n (splitPath (Path.clean dir)) := gives_nodeAt hfresh (askable_inside d _)
  obtain ⟨hv, -, hn⟩ := hnode
  obtain ⟨v', hv', hnote⟩ := exists_readNote_eq (.importDir (Path.normal b.goroot) b.gopathText)
    (do return .info (← readPackage d b (Path.clean dir))) hv hn
  have hvalue : (importDir d b dir (Vfs.make e)).1 = (readPackage d b (Path.clean dir) v').1 := by
    rw [bind_run] at hnote
    generalize (readPackage d b (Path.clean dir) v').1 = r at hnote ⊢
    rw [importDir, bind_run, bind_run, hnote]
    rfl
  rw [hvalue]
  exact reading_readPackage hp h his hv'

end EditorAgent.Go

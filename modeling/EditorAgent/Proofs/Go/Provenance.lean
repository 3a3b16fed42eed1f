import EditorAgent.Proofs.Go.Crowded
import EditorAgent.Proofs.Go.Roster
import EditorAgent.Proofs.Go.Standing

/-!
# Where records come from

Importers of many contexts share one session. Each record in it stands under a key, and whatever package it holds was
made by a check of an importer that had that key. So a promise that all checks under a key keep is kept by what the
record serves, however many imports there were in between.
-/

namespace EditorAgent.Go

open Vfs Importer

variable {α β : Type} {d : Disk} {good : PackageKey → Package → Prop} {keys keys' : List PackageKey} {t t' : Tree}
  {s s' : Session} {i : Importer} {p : PackagePath} {c : CellId} {n : NodeId} {ns : List String} {src : Bytes}
  {mode : ParseMode} {f : SourceFile}

/-! ## Shared parses -/

/-- A parse of a source, or of another one with its digest. -/
def ParseOf (mode : ParseMode) (src : Bytes) (f : SourceFile) : Prop :=
  ∃ src', Digest.sha256 src' = Digest.sha256 src ∧ f = SourceFile.parse mode src'

/-- What is shared is a parse of a source with the digest of its key. -/
structure Faithful (m : Memo SharedKey SharedValue) : Prop where
  numbered : m.Numbered
  kept : ∀ digest mode f, m.Kept (.source digest mode) (.source f) →
    ∃ src, Digest.sha256 src = digest ∧ f = SourceFile.parse mode src

theorem faithful_empty : Faithful {} := ⟨Memo.numbered_empty, fun _ _ _ h => absurd h Memo.not_kept_empty⟩

theorem Faithful.parseShared {m : Memo SharedKey SharedValue} (h : Faithful m) (mode : ParseMode) (src : Bytes) :
    ParseOf mode src (SourceFile.parseShared m mode src).1 ∧ Faithful (SourceFile.parseShared m mode src).2 := by
  have hself : ParseOf mode src (SourceFile.parse mode src) := ⟨src, rfl, rfl⟩
  have hstarted : Faithful (m.start (.source (Digest.sha256 src) mode) SourceFile.isSource).1 :=
    ⟨h.numbered.start _, fun digest mode' f hk => h.kept digest mode' f ((Memo.kept_start _).mp hk)⟩
  cases hstart : m.start (.source (Digest.sha256 src) mode) SourceFile.isSource with
  | mk m' found =>
    have hfst : (m.start (.source (Digest.sha256 src) mode) SourceFile.isSource).1 = m' := by rw [hstart]
    have hsnd : (m.start (.source (Digest.sha256 src) mode) SourceFile.isSource).2 = found := by rw [hstart]
    rw [hfst] at hstarted
    rw [SourceFile.parseShared, hstart]
    cases found with
    | found x =>
      cases x with
      | source f => exact ⟨h.kept _ _ f (Memo.start_found hsnd).1, hstarted⟩
      | text _ => exact ⟨hself, hstarted⟩
    | missing serial =>
      refine ⟨hself, hstarted.numbered.finish _ _, fun digest mode' f hk => ?_⟩
      have howns := hfst ▸ (Memo.start_missing h.numbered hsnd).1
      rcases Memo.Kept.of_write (fun _ => rfl) (fun _ ho => hstarted.numbered.owns_unique ho howns) hk with
        ⟨hkey, hvalue⟩ | hk
      · cases hkey
        cases hvalue
        exact hself
      · exact hstarted.kept digest mode' f hk

/-- What is not shared yet is parsed. -/
theorem SourceFile.parseShared_fresh (mode : ParseMode) (src : Bytes) :
    (SourceFile.parseShared {} mode src).1 = SourceFile.parse mode src := by
  cases hstart : ({} : Memo SharedKey SharedValue).start (.source (Digest.sha256 src) mode) SourceFile.isSource with
  | mk m found =>
    rw [SourceFile.parseShared, hstart]
    cases found with
    | found x =>
      have hkept := (Memo.start_found (congrArg Prod.snd hstart)).1
      exact absurd hkept Memo.not_kept_empty
    | missing serial => rfl

/-! ## Records and their keys -/

/-- A tree whose records hold what is promised under their keys. The keys of the records are given in the order in which
the records were made. -/
structure Vouched (d : Disk) (good : PackageKey → Package → Prop) (keys : List PackageKey) (t : Tree) : Prop where
  shows : Shows d t
  size : t.cells.size = keys.length
  filed : ∀ n k c, (t.node n).memo.Kept (.user k) (.cell c) → ∃ key, keys[c]? = some key ∧ k = .package key
  kept : ∀ c x key pkg, t.cell? c = some x → keys[c]? = some key → x.content.result = some (.ok pkg) → good key pkg

namespace Vouched

theorem make (e : Expiry) : Vouched d good [] (Vfs.make e) where
  shows := coherent_make ..
  size := rfl
  filed n k c hk := by
    have hmemo : ((Vfs.make e : Tree).node n).memo = Memo.empty := memo_make e n
    exact absurd (hmemo ▸ hk) Memo.not_kept_empty
  kept c x key pkg hx := by cases hx

theorem of_frame (h : Vouched d good keys t) (hshows : Shows d t') (hframe : Frame t t') : Vouched d good keys t' where
  shows := hshows
  size := by rw [hframe.cells, h.size]
  filed n k c hk := h.filed n k c ((hframe.files n k c).mp hk)
  kept c x key pkg hx := h.kept c x key pkg (by rwa [cell?, hframe.cells] at hx)

/-- Only the nodes and the cells matter. -/
theorem of_eq (h : Vouched d good keys t) (hnodes : t'.nodes = t.nodes) (hcells : t'.cells = t.cells) :
    Vouched d good keys t' where
  shows := h.shows.of_nodes hnodes
  size := by rw [hcells, h.size]
  filed n k c hk := h.filed n k c (by rwa [node, hnodes] at hk)
  kept c x key pkg hx := h.kept c x key pkg (by rwa [cell?, hcells] at hx)

theorem modifyCell {f : Cell PackageRecord → Cell PackageRecord} (h : Vouched d good keys t)
    (hf : ∀ x key pkg, t.cell? c = some x → keys[c]? = some key → (f x).content.result = some (.ok pkg) →
      good key pkg) : Vouched d good keys (t.modifyCell c f) where
  shows := h.shows.of_nodes rfl
  size := by rw [Vfs.modifyCell, Array.size_modify, h.size]
  filed := h.filed
  kept c' x key pkg hx := by
    rw [cell?_modifyCell] at hx
    split at hx
    · next heq =>
      subst heq
      obtain ⟨y, hy, rfl⟩ := Option.map_eq_some_iff.mp hx
      exact hf y key pkg hy
    · exact h.kept c' x key pkg hx

theorem depend (h : Vouched d good keys t) (i : Importer) (c : CellId) : Vouched d good keys (i.depend c t) := by
  unfold Importer.depend
  split
  · exact h.modifyCell fun x key pkg hx => h.kept c x key pkg hx
  · exact h

/-- A package may be recorded if it is what is promised under the key. -/
theorem store {began : Nat} {r : Except ImportError Package} {key : PackageKey} (h : Vouched d good keys t)
    (hc : keys[c]? = some key) (hr : ∀ pkg, r = .ok pkg → good key pkg) :
    Vouched d good keys (Importer.store c began r t) := by
  refine h.modifyCell fun x key' pkg _ hc' hresult => ?_
  obtain rfl : key = key' := Option.some.inj (hc.symm.trans hc')
  exact hr pkg (Option.some.inj hresult)

/-- What a record serves is what is promised under its key. -/
theorem served {key : PackageKey} {pkg : Package} (h : Vouched d good keys t) (hc : keys[c]? = some key)
    (hserved : served? t c = some (.ok pkg)) : good key pkg := by
  rw [served?] at hserved
  split at hserved
  · next x hx =>
    split at hserved
    · exact h.kept c x key pkg hx hc hserved
    · cases hserved
  · cases hserved

theorem cellMade {serial : Nat} {key : PackageKey} {content : PackageRecord} (h : Vouched d good keys t)
    (hn : Stands t n ns) (hcontent : content.result = none)
    (hstart : ((t.node n).memo.start (.user (.package key)) Note.isCell).2 = .missing serial) :
    Vouched d good (keys ++ [key]) (Go.cellMade t n (.package key) serial content) := by
  have hlast : (keys ++ [key])[t.cells.size]? = some key := by simp [h.size]
  have hold : keys <+: keys ++ [key] := List.prefix_append _ _
  refine ⟨coherent_cellMade h.shows hn hstart (not_typed_package key) _, by simp [Go.cellMade, h.size],
    fun m k c hk => ?_, fun c x key' pkg hx hc hresult => ?_⟩
  · rcases memo_cellMade t n (.package key) serial content m with hm | ⟨rfl, hm⟩ <;> rw [hm] at hk
    · obtain ⟨key', hc, hkey⟩ := h.filed m k c hk
      exact ⟨key', getElem?_mono hold hc, hkey⟩
    · rcases kept_cellMade h.shows hn hstart hk with ⟨hkey, hc⟩ | hk
      · cases hkey
        cases hc
        exact ⟨key, hlast, rfl⟩
      · obtain ⟨key', hc, hkey⟩ := h.filed m k c hk
        exact ⟨key', getElem?_mono hold hc, hkey⟩
  · rw [cell?_cellMade] at hx
    split at hx
    · cases hx
      rw [hcontent] at hresult
      cases hresult
    · have hlt : c < keys.length := h.size ▸ (Array.getElem?_eq_some_iff.mp hx).1
      rw [List.getElem?_append_left hlt] at hc
      exact h.kept c x key' pkg hx hc hresult

/-- A package's record, found or made, is that of its key. -/
theorem record (hp : d.Named) (h : Vouched d good keys t) (i : Importer) (p : PackagePath) :
    ∃ keys', keys <+: keys' ∧ Vouched d good keys' (i.record d p t).2 ∧
      keys'[(i.record d p t).1]? = some (i.key p) := by
  obtain ⟨hshows, hframe, hn⟩ := gives_look hp (askable_shown p.dir) h.shows
  have h := h.of_frame hshows hframe
  rw [record_eq, readCell_eq]
  generalize look d p.dir t = looked at h hn ⊢
  cases hstart : ((looked.2.node looked.1).memo.start (.user (.package (i.key p))) Note.isCell).2 with
  | found x =>
    obtain ⟨hkept, hcell⟩ := Memo.start_found hstart
    cases x with
    | cell c =>
      obtain ⟨key, hc, hkey⟩ := h.filed _ _ c hkept
      cases hkey
      exact ⟨keys, List.prefix_refl _, h, hc⟩
    | _ => cases hcell
  | missing serial =>
    exact ⟨keys ++ [i.key p], List.prefix_append _ _, h.cellMade hn rfl hstart, by simp [h.size]⟩

end Vouched

/-! ## Runs -/

/-- A session whose records hold what is promised under their keys, and which shares true parses. -/
structure Sane (d : Disk) (good : PackageKey → Package → Prop) (keys : List PackageKey) (s : Session) : Prop where
  tree : Vouched d good keys s.tree
  shared : Faithful s.shared

/-- A run that leaves such a session, in which there may be more records, and ends as told. -/
def Traces (d : Disk) (good : PackageKey → Package → Prop) (keys : List PackageKey) (act : StateM Session α) (s : Session)
    (Q : α → Prop) : Prop :=
  ∃ keys', keys <+: keys' ∧ Sane d good keys' (act s).2 ∧ Q (act s).1

namespace Traces

variable {act : StateM Session α} {f : α → StateM Session β} {Q Q' : α → Prop} {R : β → Prop} {a : α}

theorem pure (h : Sane d good keys s) (ha : Q a) : Traces d good keys (pure a) s Q := ⟨keys, List.prefix_refl _, h, ha⟩

theorem bind (h : Traces d good keys act s Q)
    (hf : ∀ a keys' s', keys <+: keys' → Sane d good keys' s' → Q a → Traces d good keys' (f a) s' R) :
    Traces d good keys (act >>= f) s R := by
  obtain ⟨keys₁, hpre, hs, hq⟩ := h
  obtain ⟨keys₂, hpre', hs', hr⟩ := hf _ keys₁ _ hpre hs hq
  exact ⟨keys₂, hpre.trans hpre', hs', hr⟩

theorem mono (h : Traces d good keys act s Q) (hq : ∀ a, Q a → Q' a) : Traces d good keys act s Q' := by
  obtain ⟨keys', hpre, hs, ha⟩ := h
  exact ⟨keys', hpre, hs, hq _ ha⟩

theorem onTree {act : StateM Tree α} (h : Sane d good keys s) (hact : Gives (shown d) d Typed act s.tree fun a _ => Q a) :
    Traces d good keys (Session.onTree act) s Q :=
  ⟨keys, List.prefix_refl _, ⟨h.tree.of_frame hact.1 hact.2.1, h.shared⟩, hact.2.2⟩

theorem get {f : Session → StateM Session α} (h : Traces d good keys (f s) s Q) :
    Traces d good keys (MonadState.get >>= f) s Q := h

theorem framed (h : Sane d good keys s) (hact : ∀ s', Sane d good keys s' → Traces d good keys act s' Q) (name : String) :
    Traces d good keys (Session.framed name act) s Q := by
  have hpushed : Sane d good keys { s with profile := s.profile.push name } := ⟨h.tree, h.shared⟩
  obtain ⟨keys', hpre, hs, hq⟩ := hact _ hpushed
  exact ⟨keys', hpre, ⟨hs.tree, hs.shared⟩, hq⟩

/-- Up to the first failure, there is an outcome for each thing in a list. -/
theorem untilFailure {f : α → StateM Session (Except ImportError β)} {P : α → β → Prop} (xs : List α)
    (h : Sane d good keys s)
    (hf : ∀ x ∈ xs, ∀ keys' s', keys <+: keys' → Sane d good keys' s' →
      Traces d good keys' (f x) s' fun r => ∀ y, r = .ok y → P x y) :
    Traces d good keys (Importer.untilFailure f xs) s fun r => ∀ ys, r = .ok ys → ∀ x ∈ xs, ∃ y ∈ ys, P x y := by
  induction xs generalizing keys s with
  | nil => exact .pure h fun _ _ x hx => by cases hx
  | cons x xs ih =>
    refine (hf x List.mem_cons_self keys s (List.prefix_refl _) h).bind fun r keys₁ s₁ hpre hs₁ hx => ?_
    cases r with
    | error e => exact .pure hs₁ fun _ hr => by cases hr
    | ok y =>
      have hrest := ih hs₁ fun z hz keys' s' hpre' => hf z (List.mem_cons_of_mem _ hz) keys' s' (hpre.trans hpre')
      refine hrest.bind fun r keys₂ s₂ _ hs₂ hxs => ?_
      cases r with
      | error e => exact .pure hs₂ fun _ hr => by cases hr
      | ok ys =>
        refine .pure hs₂ fun _ hr => ?_
        cases hr
        refine List.forall_mem_cons.mpr ⟨⟨y, List.mem_cons_self, hx y rfl⟩, fun z hz => ?_⟩
        obtain ⟨w, hw, hP⟩ := hxs ys rfl z hz
        exact ⟨w, List.mem_cons_of_mem _ hw, hP⟩

end Traces

/-! ## Checks -/

/-- The overlay that an importer reads with. -/
def Importer.overlay (i : Importer) : Overlay := ⟨i.overrides, i.view⟩

/-- Some source with the digest of this one is of a separate test package. -/
def TestClause (src : Bytes) : Prop :=
  ∃ src', Digest.sha256 src' = Digest.sha256 src ∧ Text.endsWith (clauseOf src') "_test" = true

/-- A source of a directory that an importer takes in: a name that counts, on the disk or of a replaced source, and
bytes that are to be built. -/
structure Takes (d : Disk) (i : Importer) (dir name : String) (src : Bytes) : Prop where
  counts : i.isSourceName name = true
  listed : name ∈ d.names (pathOf (splitPath dir)) ∨ name ∈ i.overriddenNames dir
  contents : contents d i.overlay (Path.join dir name) = .ok src
  constraints : i.build.matchConstraints src = true

/-- The paths of all sources that are taken in, but for those of a separate test package. -/
def TakesAll (d : Disk) (i : Importer) (dir : String) (paths : List String) : Prop :=
  ∀ name src, Takes d i dir name src → Path.join dir name ∈ paths ∨ TestClause src

theorem traces_parse (h : Sane d good keys s) (i : Importer) (src : Bytes) :
    Traces d good keys (i.parse src) s (ParseOf i.flags.mode src) := by
  obtain ⟨mode, hmode⟩ : ∃ mode, i.flags.mode = mode := ⟨_, rfl⟩
  have hparse := h.shared.parseShared mode src
  rw [hmode]
  rw [CheckFlags.mode] at hmode
  refine ⟨keys, List.prefix_refl _, ?_⟩
  rw [parse, hmode]
  generalize SourceFile.parseShared s.shared mode src = shared at hparse
  split
  · exact ⟨⟨h.tree, hparse.2⟩, hparse.1⟩
  · exact ⟨h, src, rfl, rfl⟩

/-- A source that is to be built is a file of its path. -/
theorem traces_parseFile (hp : d.Named) (h : Sane d good keys s) (i : Importer) (path : String) :
    Traces d good keys (i.parseFile d path) s fun r => ∀ o, r = .ok o → ∀ src, contents d i.overlay path = .ok src →
      i.build.matchConstraints src = true → ∃ f, o = some f ∧ f.path = path ∧ ParseOf i.flags.mode src f.parsed := by
  have hread : Gives (shown d) d Typed (readSource d i.view i.overrides path) s.tree fun x _ => x = contents d i.overlay path :=
    gives_readSource (o := i.overlay) hp (fun _ => askable_shown path) h.tree.shows
  refine (Traces.onTree h hread).bind fun r keys₁ s₁ _ hs₁ hr => ?_
  rw [← hr]
  cases r with
  | error e => exact .pure hs₁ fun _ hr => by cases hr
  | ok src =>
    dsimp only
    split
    · next hno =>
      refine .pure hs₁ fun _ _ src' hsrc hyes => ?_
      cases hsrc
      simp [hyes] at hno
    · refine (traces_parse hs₁ i src).bind fun f keys₂ s₂ _ hs₂ hf => ?_
      split
      · exact .pure hs₂ fun _ hr => by cases hr
      · refine .pure hs₂ fun o ho src' hsrc _ => ?_
        cases ho
        cases hsrc
        exact ⟨_, rfl, rfl, hf⟩

theorem testClause_of_parseOf (hf : ParseOf mode src f) (htest : Text.endsWith f.package "_test" = true) :
    TestClause src := by
  obtain ⟨src', hdigest, rfl⟩ := hf
  exact ⟨src', hdigest, package_parse mode src' ▸ htest⟩

/-- The files of a directory are those of all sources that are taken in. -/
theorem traces_parseDir (hp : d.Named) (h : Sane d good keys s) (i : Importer) (p : PackagePath) :
    Traces d good keys (i.parseDir d p) s fun r => ∀ files, r = .ok files → TakesAll d i p.dir (files.map (·.path)) := by
  refine Traces.framed h (fun s' hs' => ?_) _
  have hnames : Gives (shown d) d Typed (i.sourceNames d p.dir) s'.tree fun r _ => ∀ names, r = .ok names →
      ∀ name, i.isSourceName name = true →
        name ∈ d.names (pathOf (splitPath p.dir)) ∨ name ∈ i.overriddenNames p.dir → name ∈ names := by
    refine (gives_namesAt hp hs'.tree.shows (askable_shown p.dir)).bind fun r t₁ ht₁ _ hlists => ?_
    cases r with
    | error e => exact .pure ht₁ fun _ hr => by cases hr
    | ok seen =>
      rw [Vfs.Lists] at hlists
      split at hlists
      · obtain ⟨_, hr, hseen⟩ := hlists
        cases hr
        refine .pure ht₁ fun names hr name hcounts hlisted => ?_
        cases hr
        have hmem : name ∈ seen ++ i.overriddenNames p.dir := List.mem_append.mpr <| hlisted.imp_left fun hlisted =>
          (hseen name (isSourceFile_of_isSourceName hcounts) hlisted).mpr hlisted
        exact List.mem_filter.mpr ⟨((SourceFile.nameSet_spec _).2 name).mpr hmem, hcounts⟩
      · obtain ⟨_, hr⟩ := hlists
        cases hr
  refine (Traces.onTree hs' hnames).bind fun r keys₁ s₁ _ hs₁ hr => ?_
  cases r with
  | error e => exact .pure hs₁ fun _ hr => by cases hr
  | ok names =>
    have hfiles := Traces.untilFailure names hs₁ fun n _ keys' s' _ hs' =>
      traces_parseFile hp hs' i (Path.join p.dir n)
    refine hfiles.bind fun r keys₂ s₂ _ hs₂ hparsed => ?_
    cases r with
    | error e => exact .pure hs₂ fun _ hr => by cases hr
    | ok files =>
      have htakes : TakesAll d i p.dir ((arrange (files.filterMap id)).map (·.path)) := by
        intro name src htakes
        have hmem := hr names rfl name htakes.counts htakes.listed
        obtain ⟨o, ho, hfile⟩ := hparsed files rfl name hmem
        obtain ⟨f, rfl, hpath, hf⟩ := hfile src htakes.contents htakes.constraints
        cases htest : Text.endsWith f.parsed.package "_test" with
        | true => exact .inr (testClause_of_parseOf hf htest)
        | false =>
          have hf : f ∈ arrange (files.filterMap id) := mem_arrange_iff.mpr ⟨by simpa using ho, htest⟩
          exact .inl (hpath ▸ List.mem_map_of_mem hf)
      dsimp only
      split
      · exact .pure hs₂ fun _ hr => by cases hr
      · refine .pure hs₂ fun _ hr => ?_
        cases hr
        exact htakes

/-- A package as a check of an importer may have made it. -/
structure MadeBy (d : Disk) (i : Importer) (p : PackagePath) (pkg : Package) : Prop where
  path : pkg.path = p.importPath
  files : (∃ archive imports, Archive.read d p.importPath archive imports = .ok pkg) ∨ TakesAll d i p.dir pkg.files

/-- Whatever an importer may make of a package is good under its key. -/
def MakesGood (d : Disk) (good : PackageKey → Package → Prop) (i : Importer) (p : PackagePath) : Prop :=
  ∀ pkg, MadeBy d i p pkg → good (i.key p) pkg

section Imports

variable {deps : Importer → String → String → Import}

/-- Dependencies are imported with the default flags. -/
def ForDependencies (i : Importer) : Prop := i.flags = {} ∧ i.checker = .shallow

/-- Whatever is imported for a dependency, the records go on to hold what is promised. -/
def Faithfully (d : Disk) (good : PackageKey → Package → Prop) (deps : Importer → String → String → Import) : Prop :=
  ∀ i path srcDir keys s, ForDependencies i → Sane d good keys s →
    Traces d good keys (deps i path srcDir) s fun _ => True

theorem traces_runChecker (h : Sane d good keys s) (i : Importer) (p : PackagePath) (files : List PackageFile)
    (imports : List (String × Package)) : Traces d good keys (i.runChecker p files imports) s fun _ => True := by
  refine Traces.framed h (fun s' hs' => ?_) _
  generalize i.checker.check _ = r
  obtain ⟨pkg, errors⟩ := r
  dsimp only
  cases errors.find? fun e => !e.soft <;> exact ⟨keys, List.prefix_refl _, ⟨hs'.tree, hs'.shared⟩, trivial⟩

theorem traces_readExport (h : Sane d good keys s) (i : Importer) (p : PackagePath) (imports : List (String × Package)) :
    Traces d good keys (i.readExport d p imports) s fun _ => True := by
  refine Traces.framed h (fun s' hs' => ?_) _
  cases i.exportArchive? d p.dir with
  | none => exact .pure hs' trivial
  | some path =>
    dsimp only
    cases Archive.read d p.importPath path (imports.map (·.2)) <;> exact .pure hs' trivial

theorem traces_conclude (h : Sane d good keys s) (hchecker : i.checker = .shallow) (p : PackagePath)
    (files : List PackageFile) (imports : List (String × Package)) :
    Traces d good keys (i.conclude d p files imports) s fun r => ∀ pkg, r = .ok pkg → Made d p (files.map (·.path)) pkg := by
  have hconclude : Traces d good keys (i.conclude d p files imports) s fun _ => True := by
    rw [conclude]
    split
    · refine (traces_readExport h i p imports).bind fun r keys₁ s₁ _ hs₁ _ => ?_
      cases r with
      | some pkg => exact .pure hs₁ trivial
      | none => exact traces_runChecker hs₁ i p files imports
    · exact traces_runChecker h i p files imports
  obtain ⟨keys', hpre, hs, -⟩ := hconclude
  exact ⟨keys', hpre, hs, fun pkg hpkg => made_of_conclude hchecker hpkg⟩

theorem traces_check (hp : d.Named) (hdeps : Faithfully d good deps) (h : Sane d good keys s)
    (hchecker : i.checker = .shallow) (c : CellId) (p : PackagePath) :
    Traces d good keys (i.check d deps c p) s fun r => ∀ pkg, r = .ok pkg → MadeBy d i p pkg := by
  refine (traces_parseDir hp h i p).bind fun r keys₁ s₁ _ hs₁ hfiles => ?_
  cases r with
  | error e => exact .pure hs₁ fun _ hr => by cases hr
  | ok files =>
    have htakes := hfiles files rfl
    have hinner : ForDependencies (i.branch c s₁.tree) := ⟨rfl, hchecker⟩
    have hspecs : Traces d good keys₁ (importDeps (fun path => deps (i.branch c s₁.tree) path p.dir) files) s₁ fun _ => True := by
      refine (Traces.untilFailure (P := fun _ _ => True) _ hs₁ fun q _ keys' s' _ hs' => ?_).mono fun _ _ => trivial
      refine (hdeps _ q.2.path p.dir keys' s' hinner hs').bind fun r keys₂ s₂ _ hs₂ _ => ?_
      cases r <;> exact .pure hs₂ fun _ _ => trivial
    refine Traces.get (hspecs.bind fun r keys₂ s₂ _ hs₂ _ => ?_)
    cases r with
    | error e => exact .pure hs₂ fun _ hr => by cases hr
    | ok imports =>
      refine (traces_conclude hs₂ hchecker p files imports).mono fun r hr pkg hpkg => ?_
      obtain ⟨hpath, hmade⟩ := hr pkg hpkg
      exact ⟨hpath, hmade.imp_right fun (hpaths : pkg.files = _) => hpaths ▸ htakes⟩

/-- What is recorded is promised. -/
theorem traces_renew (hp : d.Named) (hdeps : Faithfully d good deps) (h : Sane d good keys s)
    (hchecker : i.checker = .shallow) (hc : keys[c]? = some (i.key p)) (hmakes : MakesGood d good i p) :
    Traces d good keys (i.renew d deps c p) s fun r => ∀ pkg, r = .ok pkg → good (i.key p) pkg := by
  have hbegun : Sane d good keys { s with tree := { s.tree.tick.2 with active := c :: s.tree.active } } :=
    ⟨h.tree.of_eq rfl rfl, h.shared⟩
  obtain ⟨keys', hpre, hs, hmade⟩ := traces_check hp hdeps hbegun hchecker c p
  rw [Traces, renew_run]
  dsimp only
  generalize i.check d deps c p _ = r at hs hmade ⊢
  have hgood : ∀ pkg, r.1 = .ok pkg → good (i.key p) pkg := fun pkg hpkg => hmakes pkg (hmade pkg hpkg)
  have hended : Vouched d good keys' { r.2.tree with active := r.2.tree.active.drop 1 } := hs.tree.of_eq rfl rfl
  exact ⟨keys', hpre, ⟨hended.store (getElem?_mono hpre hc) hgood, hs.shared⟩, hgood⟩

/-- What is served is promised, and so is what is recorded if nothing is served. -/
theorem traces_consult (hp : d.Named) (hdeps : Faithfully d good deps) (h : Sane d good keys s)
    (hchecker : i.checker = .shallow) (hmakes : MakesGood d good i p) :
    Traces d good keys (i.consult d deps p) s fun r => ∀ pkg, r = .ok pkg → good (i.key p) pkg := by
  obtain ⟨keys₁, hpre, hrecord, hc⟩ := h.tree.record hp i p
  have hs₁ : Sane d good keys₁ { s with tree := i.depend (i.record d p s.tree).1 (i.record d p s.tree).2 } :=
    ⟨hrecord.depend i _, h.shared⟩
  rw [Traces, consult_run]
  dsimp only
  split
  · next r hserved =>
    refine ⟨keys₁, hpre, hs₁, fun pkg hpkg => ?_⟩
    obtain rfl := ok_of_outcome hpkg
    exact hs₁.tree.served hc hserved
  · obtain ⟨keys₂, hpre', hs₂, hr⟩ := traces_renew hp hdeps hs₁ hchecker hc hmakes
    generalize i.renew d deps (i.record d p s.tree).1 p _ = made at hs₂ hr ⊢
    exact ⟨keys₂, hpre.trans hpre', hs₂, fun pkg hpkg => hr pkg (ok_of_outcome hpkg)⟩

theorem retarget_flags_checker (i : Importer) (p : PackagePath) :
    (i.retarget p).flags = i.flags ∧ (i.retarget p).checker = i.checker := by
  unfold retarget
  extract_lets
  split <;> exact ⟨rfl, rfl⟩

theorem traces_importPackage (hp : d.Named) (hdeps : Faithfully d good deps) (h : Sane d good keys s)
    (hchecker : i.checker = .shallow) (hmakes : MakesGood d good (i.retarget p) p) :
    Traces d good keys (i.importPackage d deps p) s fun r => ∀ pkg, r = .ok pkg → good ((i.retarget p).key p) pkg := by
  have hchecker' : (i.retarget p).checker = .shallow := (retarget_flags_checker i p).2.trans hchecker
  refine Traces.framed h (fun s' hs' => ?_) _
  cases (i.retarget p).detectCycle p with
  | error e => exact .pure hs' fun _ hr => by cases hr
  | ok _ => exact traces_consult hp hdeps hs' hchecker' hmakes

theorem traces_importStep (hp : d.Named) (hdeps : Faithfully d good deps)
    (hmakes : ∀ i p, ForDependencies i → MakesGood d good i p) (hi : ForDependencies i) (h : Sane d good keys s)
    (path srcDir : String) : Traces d good keys (importStep d deps i path srcDir) s fun _ => True := by
  rw [importStep]
  split_ifs
  · exact .pure h trivial
  · exact .pure h trivial
  · exact .pure h trivial
  have hfind := fun s' (hs' : Sane d good keys s') => Traces.onTree hs'
    (gives_findPackage_typed hp i.build path (Path.clean (Path.join "/" srcDir)) hs'.tree.shows)
  refine (Traces.framed h hfind _).bind fun r keys₁ s₁ _ hs₁ _ => ?_
  cases r with
  | error e => exact .pure hs₁ trivial
  | ok p =>
    obtain ⟨hflags, hchecker⟩ := retarget_flags_checker i p
    have hretarget : ForDependencies (i.retarget p) := ⟨hflags.trans hi.1, hchecker.trans hi.2⟩
    exact (traces_importPackage hp hdeps hs₁ hi.2 (hmakes _ p hretarget)).mono fun _ _ => trivial

/-- Dependencies that keep a promise are imported faithfully, however deep they are. -/
theorem faithfully_importTo (hp : d.Named) (hmakes : ∀ i p, ForDependencies i → MakesGood d good i p) (fuel : Nat) :
    Faithfully d good (importTo d fuel) := by
  induction fuel with
  | zero => exact fun _ _ _ _ _ _ h => .pure h trivial
  | succ fuel ih => exact fun _ path srcDir _ _ hi h => traces_importStep hp ih hmakes hi h path srcDir

end Imports

/-! ## The package in a directory -/

/-- Imports the package in a directory, with dependencies no deeper than `fuel`. -/
def Importer.importHere (d : Disk) (fuel : Nat) (i : Importer) (dir : String) : Import := do
  if ← Session.framed "findPkg" (Session.onTree (hasGoFiles d dir)) then i.importPackage d (importTo d fuel) (here dir)
  else return .error (.notFound s!"cannot find package `.` in `{dir}`")

/-- What a lookup of the directory's own package comes to. -/
def Importer.foundHere (dir : String) (found : Bool) : Except ImportError PackagePath :=
  if found then .ok (here dir) else .error (.notFound s!"cannot find package `.` in `{dir}`")

theorem findPackage_here (d : Disk) (b : BuildContext) (dir : String) :
    findPackage d b "." dir = do return foundHere (Path.clean dir) (← hasGoFiles d (Path.clean dir)) := by
  have hlocal : findPackage d b "." dir = findLocal d "." dir := rfl
  rw [hlocal, findLocal, clean_join_here]
  refine congrArg _ (funext fun found => ?_)
  cases found <;> rfl

theorem framed_onTree_map (name : String) (act : StateM Tree α) (f : α → β) :
    Session.framed name (Session.onTree do return f (← act)) = do return f (← Session.framed name (Session.onTree act)) :=
  rfl

/-- What stands as `.` is imported from the directory itself. -/
theorem importFrom_here (d : Disk) (i : Importer) {srcDir : String} (hne : srcDir ≠ "") :
    i.importFrom d "." srcDir 0 = i.importHere d (depthBound d i - 1) (Path.clean (Path.join "/" srcDir)) := by
  obtain ⟨fuel, hfuel⟩ : ∃ fuel, depthBound d i = fuel + 1 := ⟨_, rfl⟩
  rw [importFrom, if_neg (by decide), hfuel, importTo, importStep, if_neg (by decide), if_neg (by decide), if_neg hne]
  dsimp only
  rw [findPackage_here, Path.clean_clean, framed_onTree_map, importHere, bind_assoc]
  refine congrArg _ (funext fun found => ?_)
  cases found <;> rfl

theorem traces_importHere (hp : d.Named) (hdeps : ∀ i p, ForDependencies i → MakesGood d good i p) (h : Sane d good keys s)
    (hchecker : i.checker = .shallow) {dir : String} (hmakes : MakesGood d good i (here dir)) (fuel : Nat) :
    Traces d good keys (i.importHere d fuel dir) s fun r => ∀ pkg, r = .ok pkg → good (i.key (here dir)) pkg := by
  have hlook : ∀ s', Sane d good keys s' → Traces d good keys (Session.onTree (hasGoFiles d dir)) s' fun _ => True :=
    fun s' hs' => .onTree hs' ((gives_hasGoFiles hp (askable_shown dir) hs'.tree.shows).mono fun _ _ _ _ _ => trivial)
  refine (Traces.framed h hlook _).bind fun found keys₁ s₁ _ hs₁ _ => ?_
  cases found with
  | true => exact traces_importPackage hp (faithfully_importTo hp hdeps fuel) hs₁ hchecker hmakes
  | false => exact .pure hs₁ fun _ hr => by cases hr

/-! ## New sessions -/

theorem framed_onTree_run (name : String) (act : StateM Tree α) (s : Session) :
    (Session.framed name (Session.onTree act) s).1 = (act s.tree).1 ∧
      (Session.framed name (Session.onTree act) s).2.tree = (act s.tree).2 ∧
      (Session.framed name (Session.onTree act) s).2.shared = s.shared :=
  ⟨rfl, rfl, rfl⟩

theorem retarget_here (i : Importer) (dir : String) : i.retarget (here dir) = i := by
  unfold retarget
  simp [here]

section NewSession

variable {s : Session} (hd : d.Named) {dir : String} (hs : Untouched d dir s.tree) (fuel : Nat)
include hd hs

/-- The directory is looked at before anything else. -/
theorem exists_importHere_eq (i : Importer) : ∃ s₁, Untouched d dir s₁.tree ∧ s₁.shared = s.shared ∧
    i.importHere d fuel dir s = if holdsPackage d dir then i.importPackage d (importTo d fuel) (here dir) s₁
      else (.error (.notFound s!"cannot find package `.` in `{dir}`"), s₁) := by
  obtain ⟨hanswer, hgives⟩ := (settled_hasGoFiles (d := d) hd (searchable_inside d dir)).answer
  obtain ⟨hcoherent, hframe, hvalue⟩ := hgives s.tree hs.coherent
  obtain ⟨hfound, htree, hshared⟩ := framed_onTree_run "findPkg" (hasGoFiles d dir) s
  refine ⟨(Session.framed "findPkg" (Session.onTree (hasGoFiles d dir)) s).2, ?_, hshared, ?_⟩
  · rw [htree]
    exact hs.of_frame hcoherent hframe
  · rw [importHere, bind_run, hfound, hvalue, hanswer]
    cases holdsPackage d dir <;> rfl

/-- In a new session, the package of a directory is checked. -/
theorem exists_importHere_eq_check (hchain : i.chain = []) (hholds : holdsPackage d dir = true) :
    ∃ c s', Coherent (inside dir) d (fun _ _ _ => False) s'.tree ∧ s'.shared = s.shared ∧
      (i.importHere d fuel dir s).1 = outcome ("_" ++ dir) (i.check d (importTo d fuel) c (here dir) s').1 := by
  obtain ⟨s₁, hs₁, hshared, himport⟩ := exists_importHere_eq hd hs fuel i
  have hcycle : i.detectCycle (here dir) = .ok () := by
    rw [detectCycle, hchain]
    rfl
  rw [himport, hholds, if_pos rfl, importPackage, retarget_here, framed_run, hcycle, ← hshared]
  dsimp only
  have hpushed : Untouched d dir { s₁ with profile := s₁.profile.push s!"import({(here dir).importPath})" }.tree := hs₁
  obtain ⟨c, s', hs', hshared', hcheck⟩ := exists_consult_eq_check (importTo d fuel) hd hchain hpushed
  exact ⟨c, s', hs', hshared', hcheck⟩

end NewSession

end EditorAgent.Go

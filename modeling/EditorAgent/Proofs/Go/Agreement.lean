import EditorAgent.Proofs.Go.Records

/-!
# Importing with records

On a disk that does not change, a record never makes a difference. What one import does is described for
dependencies that are imported likewise; the description of all imports follows by induction on their depth,
for which the directories on the disk are enough.
-/

namespace EditorAgent.Go

open Vfs Relation Importer

variable {α β : Type} {d : Disk} {b : BuildContext} {o : Overlay} {t trail : Trail} {sites : List Site} {σ : Site}
  {s : Session} {c : CellId} {p : PackagePath} {i : Importer} {deps deps' : Importer → String → String → Import}

/-! ## Runs -/

theorem framed_run (name : String) (act : StateM Session α) (s : Session) :
    Session.framed name act s =
      ((act { s with profile := s.profile.push name }).1,
        { (act { s with profile := s.profile.push name }).2 with
          profile := ((act { s with profile := s.profile.push name }).2.profile.pop 0).1 }) :=
  rfl

/-- Imports a path that a file names. -/
def importOne (find : String → Import) (q : String × ImportSpec) :
    StateM Session (Except ImportError (String × Package)) := do
  match ← find q.2.path with
  | .ok pkg => return .ok (q.2.path, pkg)
  | .error e => return .error (.dependency ⟨q.1, q.2.row, q.2.col⟩ e)

/-- Imports one path after another. -/
def importAll (find : String → Import) :
    List (String × ImportSpec) → StateM Session (Except ImportError (List (String × Package))) :=
  untilFailure (importOne find)

theorem importDeps_eq (find : String → Import) (files : List PackageFile) :
    importDeps find files = importAll find (specs files) :=
  rfl

theorem importAll_nil (find : String → Import) (s : Session) : importAll find [] s = (.ok [], s) := rfl

theorem importAll_cons (find : String → Import) (q : String × ImportSpec) (l : List (String × ImportSpec))
    (s : Session) :
    importAll find (q :: l) s = match find q.2.path s with
      | (.error e, s₁) => (.error (.dependency ⟨q.1, q.2.row, q.2.col⟩ e), s₁)
      | (.ok pkg, s₁) =>
        ((importAll find l s₁).1.map ((q.2.path, pkg) :: ·), (importAll find l s₁).2) := by
  rw [importAll, untilFailure, bind_run, importOne, bind_run]
  rcases find q.2.path s with ⟨_ | pkg, s₁⟩
  · rfl
  · change (untilFailure (importOne find) l >>= fun r => _) s₁ = _
    rw [bind_run]
    dsimp only
    rcases untilFailure (importOne find) l s₁ with ⟨_ | bs, s₂⟩ <;> rfl

theorem check_run (d : Disk) (deps : Importer → String → String → Import) (i : Importer) (c : CellId)
    (p : PackagePath) (s : Session) :
    i.check d deps c p s = match i.parseDir d p s with
      | (.error e, s₁) => (.error e, s₁)
      | (.ok files, s₁) =>
        match importAll (fun path => deps (i.branch c s₁.tree) path p.dir) (specs files) s₁ with
        | (.error e, s₂) => (.error e, s₂)
        | (.ok imports, s₂) => i.conclude d p files imports s₂ := by
  rw [check]
  generalize i.parseDir d p = act
  rw [bind_run]
  rcases act s with ⟨_ | files, s₁⟩
  · rfl
  · have hget : (get : StateM Session Session) s₁ = (s₁, s₁) := rfl
    dsimp only
    rw [bind_run, hget, bind_run, importDeps_eq]
    dsimp only
    rcases importAll (fun path => deps (i.branch c s₁.tree) path p.dir) (specs files) s₁ with ⟨_ | imports, s₂⟩ <;> rfl

theorem renew_run (d : Disk) (deps : Importer → String → String → Import) (i : Importer) (c : CellId)
    (p : PackagePath) (s : Session) :
    i.renew d deps c p s =
      let s₁ := { s with tree := { s.tree.tick.2 with active := c :: s.tree.active } }
      let r := i.check d deps c p s₁
      (r.1, { r.2 with
        tree := store c s.tree.tick.1 r.1 { r.2.tree with active := r.2.tree.active.drop 1 } }) := by
  rw [renew]
  generalize i.check d deps c p = act
  rfl

theorem consult_run (d : Disk) (deps : Importer → String → String → Import) (i : Importer) (p : PackagePath)
    (s : Session) :
    i.consult d deps p s =
      let c := (i.record d p s.tree).1
      let s₁ := { s with tree := i.depend c (i.record d p s.tree).2 }
      match served? s₁.tree c with
      | some r => (outcome p.importPath r, s₁)
      | none => (outcome p.importPath (i.renew d deps c p s₁).1, (i.renew d deps c p s₁).2) := by
  rw [consult]
  generalize i.record d p = act
  change (match served? (i.depend (act s.tree).1 (act s.tree).2) (act s.tree).1 with
    | some r => pure (outcome p.importPath r)
    | none => (do return outcome p.importPath (← i.renew d deps (act s.tree).1 p)) : Import)
      { s with tree := i.depend (act s.tree).1 (act s.tree).2 } = _
  simp only
  generalize i.renew d deps (act s.tree).1 p = renewed
  cases served? (i.depend (act s.tree).1 (act s.tree).2) (act s.tree).1 <;> rfl

theorem runChecker_run (i : Importer) (p : PackagePath) (files : List PackageFile)
    (imports : List (String × Package)) (s s' : Session) :
    (i.runChecker p files imports s).1 = (i.runChecker p files imports s').1 ∧
      (i.runChecker p files imports s).2.tree = s.tree := by
  rw [runChecker, framed_run, framed_run]
  generalize i.checker.check _ = r
  obtain ⟨pkg, errors⟩ := r
  dsimp only
  cases errors.find? fun e => !e.soft <;> exact ⟨rfl, rfl⟩

theorem readExport_run (d : Disk) (i : Importer) (p : PackagePath) (imports : List (String × Package))
    (s s' : Session) :
    (i.readExport d p imports s).1 = (i.readExport d p imports s').1 ∧
      (i.readExport d p imports s).2.tree = s.tree := by
  rw [readExport, framed_run, framed_run]
  cases i.exportArchive? d p.dir with
  | none => exact ⟨rfl, rfl⟩
  | some path =>
    dsimp only
    cases Archive.read d p.importPath path (imports.map (·.2)) <;> exact ⟨rfl, rfl⟩

theorem conclude_session (d : Disk) (i : Importer) (p : PackagePath) (files : List PackageFile)
    (imports : List (String × Package)) (s s' : Session) :
    (i.conclude d p files imports s).1 = (i.conclude d p files imports s').1 ∧
      (i.conclude d p files imports s).2.tree = s.tree := by
  rw [conclude]
  split
  · rw [bind_run, bind_run]
    obtain ⟨hsame, htree⟩ := readExport_run d i p imports s s'
    rw [hsame]
    cases (i.readExport d p imports s').1 with
    | some pkg => exact ⟨rfl, htree⟩
    | none =>
      obtain ⟨hcheck, hkeep⟩ := runChecker_run i p files imports (i.readExport d p imports s).2
        (i.readExport d p imports s').2
      exact ⟨hcheck, hkeep.trans htree⟩
  · exact runChecker_run i p files imports s s'

/-- What is concluded depends on the site alone, and leaves the tree alone. -/
theorem conclude_run (hdir : p.dir = σ.dir) (hpath : p.importPath = σ.importPath) (chain : List Link)
    (files : List PackageFile) (imports : List (String × Package)) (s : Session) :
    ((Importer.under σ.build σ.flags σ.overlay chain).conclude d p files imports s).1 = σ.verdict d files imports ∧
      ((Importer.under σ.build σ.flags σ.overlay chain).conclude d p files imports s).2.tree = s.tree := by
  have hsite : (Importer.under σ.build σ.flags σ.overlay chain).conclude d p =
      (Importer.under σ.build σ.flags σ.overlay []).conclude d { dir := σ.dir, importPath := σ.importPath } := by
    funext files imports
    rw [conclude, conclude, readExport, readExport, runChecker, runChecker, hdir, hpath]
    rfl
  rw [hsite]
  exact conclude_session d _ _ files imports s default

/-! ## Agreement with importing without records -/

variable {γ : Type} {root r : Request} {g : Trail} {files : List PackageFile}

/-- A result that is no cycle. -/
def Unlooped (x : Except ImportError γ) : Prop := ∀ e, x = .error e → e.isCycle = false

theorem unlooped_iff {x : Outcome} : Unlooped x ↔ isCycle x = false := by
  cases x with
  | error e => exact ⟨fun h => h e rfl, fun h _ he => by cases he; exact h⟩
  | ok pkg => exact ⟨fun _ => rfl, fun _ _ he => by cases he⟩

/-- What is remembered below a trail that imports have led along. -/
def underway (watch : Bool) (g t : Trail) : Trail := if watch then g ++ t else t

/-- A run, and its twin that is no different, keeps the ledger, leaves the records of a trail alone, and comes
to what is evaluated without records: with nothing remembered unless it is a cycle, and with everything
remembered where imports have led along the trail. -/
structure Agrees (d : Disk) (b : BuildContext) (o : Overlay) (t : Trail) (root : Request) (sites : List Site)
    (g : Trail) (r : Request) (trail : Trail) (eval : Bool → Nat → Option (Except ImportError γ))
    (run twin : Except ImportError γ × Session) (s : Session) : Prop where
  same : twin = run
  ledger : ∃ sites', sites <+: sites' ∧ Ledger d b o t sites' run.2.tree
  spared : Spared trail s.tree run.2.tree
  settles : Unlooped run.1 → ∃ n, eval false n = some run.1
  evaluates : Consistent d root → Walked d t root g r → ∃ n, eval true n = some run.1

/-- Something that needs no import. -/
theorem Agrees.done {eval : Bool → Nat → Option (Except ImportError γ)} {x : Except ImportError γ}
    {s' : Session} (h : Ledger d b o t sites s'.tree) (hs : Spared trail s.tree s'.tree)
    (hx : ∀ w, ∃ n, eval w n = some x) : Agrees d b o t root sites g r trail eval (x, s') (x, s') s where
  same := rfl
  ledger := ⟨sites, List.prefix_refl _, h⟩
  spared := hs
  settles _ := hx false
  evaluates _ _ := hx true

theorem Agrees.framed {name : String} {act twin : StateM Session (Except ImportError γ)}
    {eval : Bool → Nat → Option (Except ImportError γ)}
    (h : ∀ s' : Session, s'.tree = s.tree → Agrees d b o t root sites g r trail eval (act s') (twin s') s') :
    Agrees d b o t root sites g r trail eval (Session.framed name act s) (Session.framed name twin s) s := by
  have hrun := h { s with profile := s.profile.push name } rfl
  refine ⟨?_, hrun.ledger, hrun.spared, hrun.settles, hrun.evaluates⟩
  rw [framed_run, framed_run, hrun.same]

theorem gather_evalTo_mono {watch : Bool} {n m : Nat} {l : List (String × ImportSpec)}
    {y : Except ImportError (List (String × Package))} (hnm : n ≤ m)
    (h : gather (fun path => evalTo d watch n trail (σ.request path)) l = some y) :
    gather (fun path => evalTo d watch m trail (σ.request path)) l = some y :=
  gather_congr h fun _ _ _ _ _ => ⟨fun _ hp => evalTo_mono hp hnm, fun _ he _ => evalTo_mono he hnm⟩

theorem gather_cons_ok {find : String → Option Outcome} {q : String × ImportSpec} {l : List (String × ImportSpec)}
    {pkg : Package} {y : Except ImportError (List (String × Package))} (hq : find q.2.path = some (.ok pkg))
    (hl : gather find l = some y) : gather find (q :: l) = some (y.map ((q.2.path, pkg) :: ·)) := by
  simp only [gather, hq, hl, Option.map_some]

theorem gather_cons_error {find : String → Option Outcome} {q : String × ImportSpec}
    {l : List (String × ImportSpec)} {e : ImportError} (hq : find q.2.path = some (.error e)) :
    gather find (q :: l) = some (.error (.dependency ⟨q.1, q.2.row, q.2.col⟩ e)) := by
  simp only [gather, hq]

/-- Importing one path after another, each of which is imported as it should be. -/
theorem agrees_importAll (find find' : String → Import) (haim : r.aim d = .site σ) (hf : σ.files d = .ok files)
    (hfind : ∀ sites s, ∀ q ∈ specs files, Ledger d b o t sites s.tree →
      Agrees d b o t root sites (σ.station :: g) (σ.request q.2.path) (σ.station :: (g ++ t))
        (fun w n => evalTo d w n (underway w (σ.station :: g) t) (σ.request q.2.path))
        (find q.2.path s) (find' q.2.path s) s)
    {pre l : List (String × ImportSpec)} (hl : specs files = pre ++ l)
    (hpre : ∀ q ∈ pre, ∃ pkg, Settles d t (σ.request q.2.path) (.ok pkg)) (h : Ledger d b o t sites s.tree) :
    Agrees d b o t root sites g r (σ.station :: (g ++ t))
      (fun w n => gather (fun path => evalTo d w n (underway w (σ.station :: g) t) (σ.request path)) l)
      (importAll find l s) (importAll find' l s) s := by
  induction l generalizing pre sites s with
  | nil => exact .done h (.of_eq rfl) fun _ => ⟨0, rfl⟩
  | cons q l ih =>
    have hq := hfind sites s q (by simp [hl]) h
    have hwalked : Walked d t root g r → Walked d t root (σ.station :: g) (σ.request q.2.path) :=
      fun hw => .call hw haim ⟨σ, files, pre, q, l, haim, hf, hl, hpre, rfl⟩
    rw [importAll_cons, importAll_cons, hq.same]
    rcases hrun : find q.2.path s with ⟨e | pkg, s₁⟩
    · rw [hrun] at hq
      refine ⟨rfl, hq.ledger, hq.spared, fun hx => ?_, fun hcons hw => ?_⟩
      · obtain ⟨n, hn⟩ := hq.settles fun e' he' => by
          cases he'
          exact hx (.dependency ⟨q.1, q.2.row, q.2.col⟩ e) rfl
        exact ⟨n, gather_cons_error hn⟩
      · obtain ⟨n, hn⟩ := hq.evaluates hcons (hwalked hw)
        exact ⟨n, gather_cons_error hn⟩
    · rw [hrun] at hq
      obtain ⟨sites₁, hsites₁, hledger₁⟩ := hq.ledger
      obtain ⟨n, hn⟩ := hq.settles fun e he => by cases he
      have hl' : specs files = (pre ++ [q]) ++ l := by simp [hl]
      have hpre' : ∀ q' ∈ pre ++ [q], ∃ pkg, Settles d t (σ.request q'.2.path) (.ok pkg) := by
        intro q' hq'
        rcases List.mem_append.mp hq' with hq' | hq'
        · exact hpre q' hq'
        · obtain rfl := List.mem_singleton.mp hq'
          exact ⟨pkg, rfl, n, hn⟩
      have hrest := ih hl' hpre' hledger₁
      obtain ⟨sites₂, hsites₂, hledger₂⟩ := hrest.ledger
      dsimp only
      refine ⟨by rw [hrest.same], ⟨sites₂, hsites₁.trans hsites₂, hledger₂⟩, hq.spared.trans hrest.spared,
        fun hx => ?_, fun hcons hw => ?_⟩
      · obtain ⟨m, hm⟩ := hrest.settles fun e he => hx e (by rw [he]; rfl)
        exact ⟨max n m, gather_cons_ok (evalTo_mono hn (Nat.le_max_left n m))
          (gather_evalTo_mono (Nat.le_max_right n m) hm)⟩
      · obtain ⟨k, hk⟩ := hq.evaluates hcons (hwalked hw)
        obtain ⟨m, hm⟩ := hrest.evaluates hcons hw
        exact ⟨max k m, gather_cons_ok (evalTo_mono hk (Nat.le_max_left k m))
          (gather_evalTo_mono (Nat.le_max_right k m) hm)⟩

/-- Checking a package, each of whose dependencies is imported as it should be. -/
theorem agrees_check (hproper : d.Proper) (haim : r.aim d = .site σ) (hdir : p.dir = σ.dir)
    (hpath : p.importPath = σ.importPath) (hover : σ.overlay.Plain) (hplain : Path.Plain σ.dir) (htame : Tame σ.dir)
    (his : IsDir d σ.dir) {chain : List Link}
    (hdeps : ∀ sites s path, Leads d r (σ.request path) → Ledger d b o t sites s.tree →
      Agrees d b o t root sites (σ.station :: g) (σ.request path) (σ.station :: (g ++ t))
        (fun w n => evalTo d w n (underway w (σ.station :: g) t) (σ.request path))
        (deps (σ.importer c chain) path σ.dir s) (deps' (σ.importer c chain) path σ.dir s) s)
    (hc : sites[c]? = some σ) (h : Ledger d b o t sites s.tree) :
    Agrees d b o t root sites g r (σ.station :: (g ++ t))
      (fun w n => σ.check d fun path => evalTo d w n (underway w (σ.station :: g) t) (σ.request path))
      ((Importer.under σ.build σ.flags σ.overlay chain).check d deps c p s)
      ((Importer.under σ.build σ.flags σ.overlay chain).check d deps' c p s) s := by
  have hgives : Session.Gives .full d (Noted d b) ((Importer.under σ.build σ.flags σ.overlay chain).parseDir d p) s
      (sources d σ.build σ.flags σ.overlay p.dir) :=
    gives_parseDir hproper hover (hdir ▸ hplain) (hdir ▸ htame) (hdir ▸ his) h.coherent
  obtain ⟨hcoherent, hframe, hparse⟩ := hgives
  rw [check_run, check_run]
  rcases hrun : (Importer.under σ.build σ.flags σ.overlay chain).parseDir d p s with ⟨x, s₁⟩
  rw [hrun] at hcoherent hframe hparse
  have hx : x = σ.files d := by
    rw [Site.files, ← hdir]
    exact hparse
  have hledger : Ledger d b o t sites s₁.tree := h.of_frame hcoherent hframe
  have hspared : Spared (σ.station :: (g ++ t)) s.tree s₁.tree := .of_eq hframe.cells
  subst hx
  cases hf : σ.files d with
  | error e => exact .done hledger hspared fun w => ⟨0, by rw [Site.check, hf]⟩
  | ok files =>
    dsimp only
    rw [hledger.branch hc, hdir]
    have hall := agrees_importAll (fun path => deps (σ.importer c chain) path σ.dir)
      (fun path => deps' (σ.importer c chain) path σ.dir) haim hf
      (fun sites s q hq => hdeps sites s q.2.path ⟨σ, files, q, haim, hf, hq, rfl⟩)
      (List.nil_append _).symm (by simp) hledger
    rw [hall.same]
    obtain ⟨sites₁, hsites₁, hledger₁⟩ := hall.ledger
    rcases hrun₁ : importAll (fun path => deps (σ.importer c chain) path σ.dir) (specs files) s₁ with
      ⟨e | imports, s₂⟩
    · rw [hrun₁] at hall
      refine ⟨rfl, hall.ledger, hspared.trans hall.spared, fun hx => ?_, fun hcons hw => ?_⟩
      · obtain ⟨n, hn⟩ := hall.settles fun e' he' => by
          cases he'
          exact hx e rfl
        exact ⟨n, Site.check_of_files hf hn⟩
      · obtain ⟨n, hn⟩ := hall.evaluates hcons hw
        exact ⟨n, Site.check_of_files hf hn⟩
    · rw [hrun₁] at hall hledger₁
      obtain ⟨hverdict, htree⟩ := conclude_run (d := d) hdir hpath chain files imports s₂
      dsimp only
      refine ⟨rfl, ⟨sites₁, hsites₁, htree ▸ hledger₁⟩, htree ▸ hspared.trans hall.spared, fun _ => ?_,
        fun hcons hw => ?_⟩
      · obtain ⟨n, hn⟩ := hall.settles fun e he => by cases he
        exact ⟨n, hverdict ▸ Site.check_of_files hf hn⟩
      · obtain ⟨n, hn⟩ := hall.evaluates hcons hw
        exact ⟨n, hverdict ▸ Site.check_of_files hf hn⟩

/-- Checking a package and recording the outcome, where nothing was recorded that counts. -/
theorem agrees_renew (hmeets : Trail.meets (g ++ t) σ.dir = false) (hc : sites[c]? = some σ)
    (hcheck : ∀ s : Session, Ledger d b o t sites s.tree → Agrees d b o t root sites g r (σ.station :: (g ++ t))
      (fun w n => σ.check d fun path => evalTo d w n (underway w (σ.station :: g) t) (σ.request path))
      (i.check d deps c p s) (i.check d deps' c p s) s)
    (hzero : ∀ y, s.tree.cell? c = some y → y.content.checkedAt = 0) (h : Ledger d b o t sites s.tree) :
    Agrees d b o t root sites g r (g ++ t)
      (fun w n => σ.check d fun path => evalTo d w n (underway w (σ.station :: g) t) (σ.request path))
      (i.renew d deps c p s) (i.renew d deps' c p s) s := by
  rw [renew_run, renew_run]
  dsimp only
  have hledger₁ : Ledger d b o t sites { s.tree.tick.2 with active := c :: s.tree.active } := h.of_eq rfl rfl
  have hrun := hcheck { s with tree := { s.tree.tick.2 with active := c :: s.tree.active } } hledger₁
  rw [hrun.same]
  generalize i.check d deps c p { s with tree := { s.tree.tick.2 with active := c :: s.tree.active } } = run at hrun
  obtain ⟨sites₂, hsites₂, hledger₂⟩ := hrun.ledger
  have hc₂ : sites₂[c]? = some σ := getElem?_mono hsites₂ hc
  have hledger₃ : Ledger d b o t sites₂ { run.2.tree with active := run.2.tree.active.drop 1 } :=
    hledger₂.of_eq rfl rfl
  -- the check of a package leaves its own record alone
  have hzero₃ : ∀ y, run.2.tree.cell? c = some y → y.content.checkedAt = 0 := by
    obtain ⟨x, hx⟩ := h.cell hc
    have hmet : Trail.meets (σ.station :: (g ++ t)) x.content.dir = true := by
      rw [(h.entered c σ x hc hx).dir, Trail.meets_cons]
      simp [Path.same, Site.station]
    obtain ⟨x', hx', hcontent⟩ := hrun.spared c x hx hmet
    intro y hy
    obtain rfl : x' = y := by simpa [hx'] using hy
    rw [hcontent, hzero x hx]
  refine ⟨rfl, ⟨sites₂, hsites₂, hledger₃.store hc₂ (fun hx => hrun.settles (unlooped_iff.mpr hx)) hzero₃⟩, ?_,
    hrun.settles, hrun.evaluates⟩
  have hbefore : Spared (g ++ t) s.tree { run.2.tree with active := run.2.tree.active.drop 1 } :=
    hrun.spared.within (Trail.within_cons _ _)
  exact hbefore.trans (hledger₃.spared_store hc₂ hmeets)

theorem Ledger.depend {v : Tree} (h : Ledger d b o t sites v) (i : Importer) (c : CellId) (trail : Trail) :
    Ledger d b o t sites (i.depend c v) ∧ Spared trail v (i.depend c v) := by
  rw [Importer.depend]
  split
  · exact ⟨h.addDependent _, spared_addDependent _ _ _⟩
  · exact ⟨h, .of_eq rfl⟩

/-- The packages that an importer is busy with. -/
def Link.station (l : Link) : String × String := (l.importPath, l.dir)

theorem evalTo_of_check {watch : Bool} {n : Nat} {x : Outcome} (haim : r.aim d = .site σ)
    (hmeets : Trail.meets (g ++ t) σ.dir = false)
    (h : (σ.check d fun path => evalTo d watch n (underway watch (σ.station :: g) t) (σ.request path)) = some x) :
    evalTo d watch (n + 1) (underway watch g t) r = some (outcome σ.importPath x) := by
  have hinner : inner watch σ (underway watch g t) = underway watch (σ.station :: g) t := by cases watch <;> rfl
  have hunder : (underway watch g t).meets σ.dir = false := by
    cases watch with
    | true => exact hmeets
    | false =>
      rw [Trail.meets_append, Bool.or_eq_false_iff] at hmeets
      exact hmeets.2
  rw [evalTo_site haim hunder, hinner, h, Option.map_some]

/-- A package is imported as its record says, or anew. -/
theorem agrees_consult (hproper : d.Proper) (hreg : Regular d root) (hr : Reaches d root r)
    (haim : r.aim d = .site σ) (hdir : p.dir = σ.dir) (hpath : p.importPath = σ.importPath)
    (hkin : b.Kin σ.build) (hover : r.overlay = o) (his : IsDir d σ.dir)
    (hmeets : Trail.meets (g ++ t) σ.dir = false) {chain : List Link}
    (hdeps : ∀ c sites s path, Leads d r (σ.request path) → Ledger d b o t sites s.tree →
      Agrees d b o t root sites (σ.station :: g) (σ.request path) (σ.station :: (g ++ t))
        (fun w n => evalTo d w n (underway w (σ.station :: g) t) (σ.request path))
        (deps (σ.importer c chain) path σ.dir s) (deps' (σ.importer c chain) path σ.dir s) s)
    (h : Ledger d b o t sites s.tree) :
    Agrees d b o t root sites g r (g ++ t) (fun w n => evalTo d w n (underway w g t) r)
      ((Importer.under σ.build σ.flags σ.overlay chain).consult d deps p s)
      ((Importer.under σ.build σ.flags σ.overlay chain).consult d deps' p s) s := by
  obtain ⟨hplain, htame⟩ := hreg.dirs r σ hr haim
  have hoverlay : σ.overlay = r.overlay := overlay_eq_of_aim haim
  have hspelled : σ.overlay.Plain := by
    rw [hoverlay, overlay_eq_of_reaches hr]
    exact hreg.overlay
  obtain ⟨⟨sites₁, hsites₁, hledger₁, hc₁⟩, hcells₁⟩ :=
    h.record hproper hkin (hoverlay.trans hover) hplain htame hdir hpath chain
  rw [consult_run, consult_run]
  dsimp only
  generalize (Importer.under σ.build σ.flags σ.overlay chain).record d p s.tree = recorded at hledger₁ hc₁ hcells₁ ⊢
  obtain ⟨hledger₂, hspared₂⟩ := hledger₁.depend (Importer.under σ.build σ.flags σ.overlay chain) recorded.1 (g ++ t)
  generalize (Importer.under σ.build σ.flags σ.overlay chain).depend recorded.1 recorded.2 = v at hledger₂ hspared₂ ⊢
  have hspared : Spared (g ++ t) s.tree v := (Spared.of_cells hcells₁).trans hspared₂
  rw [hpath]
  cases hserved : served? v recorded.1 with
  | some x =>
    obtain ⟨hx, n, hn⟩ := hledger₂.served hc₁ hserved
    have hbare : evalTo d false (n + 1) t r = some (outcome σ.importPath x) := evalTo_of_check haim hmeets hn
    exact ⟨rfl, ⟨sites₁, hsites₁, hledger₂⟩, hspared, fun _ => ⟨n + 1, hbare⟩,
      fun hcons hw => ⟨n + 1, evalTo_walked hreg hcons hw (by simpa using hx) hbare⟩⟩
  | none =>
    have hrun := agrees_renew (s := { s with tree := v }) hmeets hc₁
      (fun s hs => agrees_check hproper haim hdir hpath hspelled hplain htame his (hdeps recorded.1) hc₁ hs)
      (fun y hy => hledger₂.checkedAt_eq_zero hc₁ hserved hy) hledger₂
    generalize (Importer.under σ.build σ.flags σ.overlay chain).renew d deps recorded.1 p { s with tree := v } = made
      at hrun ⊢
    generalize (Importer.under σ.build σ.flags σ.overlay chain).renew d deps' recorded.1 p { s with tree := v } = made'
      at hrun ⊢
    obtain ⟨sites₂, hsites₂, hledger₃⟩ := hrun.ledger
    dsimp only
    rw [hrun.same]
    refine ⟨rfl, ⟨sites₂, hsites₁.trans hsites₂, hledger₃⟩, hspared.trans hrun.spared, fun hx => ?_,
      fun hcons hw => ?_⟩
    · obtain ⟨n, hn⟩ := hrun.settles (unlooped_iff.mpr (by simpa using unlooped_iff.mp hx))
      exact ⟨n + 1, evalTo_of_check haim hmeets hn⟩
    · obtain ⟨n, hn⟩ := hrun.evaluates hcons hw
      exact ⟨n + 1, evalTo_of_check haim hmeets hn⟩

/-! ## One import -/

theorem detectCycle_eq (i : Importer) (p : PackagePath) :
    i.detectCycle p = if Trail.meets (i.chain.map Link.station) p.dir then
      .error (Trail.cycle (i.chain.map Link.station) p.importPath p.dir) else .ok () := by
  have hany : Trail.meets (i.chain.map Link.station) p.dir = i.chain.any fun l => Path.same l.dir p.dir := by
    rw [Trail.meets, List.any_map]
    rfl
  rw [detectCycle, hany]
  split
  · rw [Trail.cycle, List.takeWhile_map, List.dropWhile_map, ← List.map_take, ← List.map_append, List.map_cons,
      List.map_map]
    rfl
  · rfl

/-- Whether a package is built for the browser although nothing else is. -/
def isBrowserApi (build : BuildContext) (p : PackagePath) : Bool :=
  p.goroot && build.goos != "js" && Path.same p.dir (Path.join (Path.join build.gorootSrc "syscall") "js")

theorem retarget_eq (build : BuildContext) (flags : CheckFlags) (o : Overlay) (chain : List Link) (p : PackagePath) :
    (Importer.under build flags o chain).retarget p =
      if isBrowserApi build p then Importer.under (build.withTarget "js" "wasm") flags o chain
      else Importer.under build flags o chain :=
  rfl

theorem retarget_under (build : BuildContext) (flags : CheckFlags) (o : Overlay) (chain : List Link)
    (p : PackagePath) :
    (Importer.under build flags o chain).retarget p =
      Importer.under ((Importer.under build flags o []).retarget p).build flags o chain := by
  rw [retarget_eq, retarget_eq]
  split <;> rfl

theorem BuildContext.Kin.retarget {build : BuildContext} (h : b.Kin build) (flags : CheckFlags) (o : Overlay)
    (p : PackagePath) : b.Kin ((Importer.under build flags o []).retarget p).build := by
  rw [retarget_eq]
  split
  · have hjs : build.withTarget "js" "wasm" = b.withTarget "js" "wasm" := by
      rw [h]
      rfl
    exact hjs
  · exact h

theorem findPackage_kin {build : BuildContext} (h : b.Kin build) (path srcDir : String) :
    findPackage d build path srcDir = findPackage d b path srcDir := by
  rw [h]
  rfl

theorem Regular.reaches (h : Regular d root) (hr : Reaches d root r) : Regular d r := by
  induction hr with
  | refl => exact h
  | tail _ hleads ih => exact ih.leads hleads

/-- A package is looked for in vain, or found where it would be found without the tree. -/
theorem findPackage_run (ho : Orderly d b) (hreg : Regular d r) (hkin : b.Kin r.build)
    (h : Ledger d b o t sites s.tree) :
    ∃ s₁ : Session, Session.framed "findPkg" (Session.onTree (findPackage d r.build r.path r.origin)) s =
        ((findPackage d r.build r.path r.origin blankTree).1, s₁) ∧
      Ledger d b o t sites s₁.tree ∧ s₁.tree.cells = s.tree.cells ∧
      ∀ p, (findPackage d r.build r.path r.origin blankTree).1 = .ok p → IsDir d p.dir := by
  rw [findPackage_kin hkin]
  obtain ⟨htame, hwf⟩ := hreg.paths r .refl
  obtain ⟨hdir, hgives⟩ := (settled_findPackage ho (truthful_noted d b) hreg.origin.1 hreg.origin.2 htame hwf).answer
  obtain ⟨hcoherent, hframe, hvalue⟩ := hgives s.tree h.coherent
  generalize findPackage d b r.path r.origin = act at hdir hcoherent hframe hvalue ⊢
  refine ⟨(Session.framed "findPkg" (Session.onTree act) s).2, ?_, h.of_frame hcoherent hframe, hframe.cells, hdir⟩
  rw [← hvalue]
  rfl

/-- A request for which a package has to be looked up. -/
structure Request.Open (r : Request) : Prop where
  notC : r.path ≠ "C"
  notUnsafe : r.path ≠ "unsafe"
  src : r.srcDir ≠ ""

theorem importStep_run (hopen : r.Open) (deps : Importer → String → String → Import) (chain : List Link)
    (s : Session) :
    importStep d deps (Importer.under r.build r.flags r.overlay chain) r.path r.srcDir s =
      (Session.framed "findPkg" (Session.onTree (findPackage d r.build r.path r.origin)) >>= fun x => match x with
        | .error e => pure (.error e)
        | .ok p => (Importer.under r.build r.flags r.overlay chain).importPackage d deps p : Import) s := by
  rw [importStep, if_neg hopen.notC, if_neg hopen.notUnsafe, if_neg hopen.src]
  rfl

theorem Request.Open.aim_eq (hopen : r.Open) {x : Except ImportError PackagePath}
    (hx : (findPackage d r.build r.path r.origin blankTree).1 = x) : r.aim d = r.aimOf x := by
  rw [Request.aim, if_neg hopen.notC, if_neg hopen.notUnsafe, if_neg hopen.src, hx]

/-- Importing a package that was found. -/
theorem agrees_importPackage (hproper : d.Proper) (hreg : Regular d root) (hr : Reaches d root r)
    (haim : r.aim d = .site σ) (hdir : p.dir = σ.dir) (hpath : p.importPath = σ.importPath) (hkin : b.Kin σ.build)
    (hover : r.overlay = o) (his : IsDir d σ.dir) {chain : List Link} (hchain : chain.map Link.station = g ++ t)
    (htarget : (Importer.under r.build r.flags r.overlay chain).retarget p = Importer.under σ.build σ.flags σ.overlay chain)
    (hdeps : Trail.meets (g ++ t) σ.dir = false →
      ∀ c sites s path, Leads d r (σ.request path) → Ledger d b o t sites s.tree →
        Agrees d b o t root sites (σ.station :: g) (σ.request path) (σ.station :: (g ++ t))
          (fun w n => evalTo d w n (underway w (σ.station :: g) t) (σ.request path))
          (deps (σ.importer c chain) path σ.dir s) (deps' (σ.importer c chain) path σ.dir s) s)
    (h : Ledger d b o t sites s.tree) :
    Agrees d b o t root sites g r (g ++ t) (fun w n => evalTo d w n (underway w g t) r)
      ((Importer.under r.build r.flags r.overlay chain).importPackage d deps p s)
      ((Importer.under r.build r.flags r.overlay chain).importPackage d deps' p s) s := by
  rw [importPackage, importPackage, htarget]
  refine Agrees.framed fun s' hs' => ?_
  rw [← hs'] at h
  have hcycle : (Importer.under σ.build σ.flags σ.overlay chain).detectCycle p =
      if Trail.meets (g ++ t) σ.dir then .error (Trail.cycle (g ++ t) σ.importPath σ.dir) else .ok () := by
    rw [detectCycle_eq, hdir, hpath]
    exact hchain ▸ rfl
  rw [hcycle]
  cases hmeets : Trail.meets (g ++ t) σ.dir with
  | true =>
    refine ⟨rfl, ⟨sites, List.prefix_refl _, h⟩, .of_eq rfl, fun hx => ?_, fun _ _ => ⟨1, ?_⟩⟩
    · exact absurd (hx _ rfl) (by simp [Trail.cycle, ImportError.isCycle])
    · exact evalTo_meets haim hmeets
  | false => exact agrees_consult hproper hreg hr haim hdir hpath hkin hover his hmeets (hdeps hmeets) h

/-- One import, whose dependencies are imported as they should be. -/
theorem agrees_importStep (ho : Orderly d b) (hreg : Regular d root) (hr : Reaches d root r) (hkin : b.Kin r.build)
    (hover : r.overlay = o) {chain : List Link} (hchain : chain.map Link.station = g ++ t)
    (hdeps : ∀ σ c, r.aim d = .site σ → b.Kin σ.build → IsDir d σ.dir → Trail.meets (g ++ t) σ.dir = false →
      ∀ sites s path, Leads d r (σ.request path) → Ledger d b o t sites s.tree →
        Agrees d b o t root sites (σ.station :: g) (σ.request path) (σ.station :: (g ++ t))
          (fun w n => evalTo d w n (underway w (σ.station :: g) t) (σ.request path))
          (deps (σ.importer c chain) path σ.dir s) (deps' (σ.importer c chain) path σ.dir s) s)
    (h : Ledger d b o t sites s.tree) :
    Agrees d b o t root sites g r (g ++ t) (fun w n => evalTo d w n (underway w g t) r)
      (importStep d deps (Importer.under r.build r.flags r.overlay chain) r.path r.srcDir s)
      (importStep d deps' (Importer.under r.build r.flags r.overlay chain) r.path r.srcDir s) s := by
  have hanswer : ∀ {x s'}, r.aim d = .answer x → Ledger d b o t sites s'.tree → Spared (g ++ t) s.tree s'.tree →
      Agrees d b o t root sites g r (g ++ t) (fun w n => evalTo d w n (underway w g t) r) (x, s') (x, s') s :=
    fun haim hs' hspared => .done hs' hspared fun _ => ⟨1, evalTo_answer haim⟩
  by_cases hC : r.path = "C"
  · rw [importStep, importStep, if_pos hC, if_pos hC]
    exact hanswer (by rw [Request.aim, if_pos hC]) h (.of_eq rfl)
  by_cases hunsafe : r.path = "unsafe"
  · rw [importStep, importStep, if_neg hC, if_neg hC, if_pos hunsafe, if_pos hunsafe]
    exact hanswer (by rw [Request.aim, if_neg hC, if_pos hunsafe]) h (.of_eq rfl)
  by_cases hsrc : r.srcDir = ""
  · rw [importStep, importStep, if_neg hC, if_neg hC, if_neg hunsafe, if_neg hunsafe, if_pos hsrc, if_pos hsrc]
    exact hanswer (by rw [Request.aim, if_neg hC, if_neg hunsafe, if_pos hsrc]) h (.of_eq rfl)
  have hopen : r.Open := ⟨hC, hunsafe, hsrc⟩
  obtain ⟨s₁, hfind, hledger₁, hcells₁, hdir⟩ := findPackage_run ho (hreg.reaches hr) hkin h
  rw [importStep_run hopen, importStep_run hopen, bind_run, bind_run, hfind]
  cases hvalue : (findPackage d r.build r.path r.origin blankTree).1 with
  | error e => exact hanswer (hopen.aim_eq hvalue) hledger₁ (.of_eq hcells₁)
  | ok p =>
    have haim := hopen.aim_eq hvalue
    have hkin' := hkin.retarget r.flags r.overlay p
    have hrun := agrees_importPackage (p := p) ho.proper hreg hr haim rfl rfl hkin' hover (hdir p hvalue) hchain
      (retarget_under _ _ _ _ _) (fun hmeets c => hdeps _ c haim hkin' (hdir p hvalue) hmeets) hledger₁
    exact ⟨hrun.same, hrun.ledger, (Spared.of_eq hcells₁).trans hrun.spared, hrun.settles, hrun.evaluates⟩

/-! ## Imports of any depth -/

/-- A trail through directories of which no two are the same. -/
structure Distinct (d : Disk) (g : Trail) : Prop where
  nodup : (g.map (·.2)).Nodup
  dirs : ∀ l ∈ g, Path.Plain l.2 ∧ IsDir d l.2

theorem distinct_nil (d : Disk) : Distinct d [] := ⟨List.nodup_nil, by simp⟩

theorem Distinct.cons (h : Distinct d g) (hplain : Path.Plain σ.dir) (his : IsDir d σ.dir)
    (hmeets : Trail.meets (g ++ t) σ.dir = false) : Distinct d (σ.station :: g) := by
  constructor
  · rw [List.map_cons, List.nodup_cons]
    refine ⟨fun hmem => ?_, h.nodup⟩
    obtain ⟨l, hl, hdir⟩ := List.mem_map.mp hmem
    have hmet : Trail.meets (g ++ t) σ.dir = true := by
      refine List.any_eq_true.mpr ⟨l, List.mem_append_left _ hl, ?_⟩
      simp [Path.same, hdir, Site.station]
    rw [hmet] at hmeets
    cases hmeets
  · intro l hl
    rcases List.mem_cons.mp hl with rfl | hl
    · exact ⟨hplain, his⟩
    · exact h.dirs l hl

/-- There are no more of them than directories on the disk. -/
theorem Distinct.length_le (hlink : d.Linkless) (h : Distinct d g) : g.length ≤ d.directories.length := by
  have hsub : g.map (fun l => splitPath l.2) ⊆ d.directories := by
    intro ns hns
    obtain ⟨l, hl, rfl⟩ := List.mem_map.mp hns
    obtain ⟨hplain, his⟩ := h.dirs l hl
    exact hlink.mem_directories (fun s hs => isName_of_mem_splitPath hs) hplain.2 his
  have hnodup : (g.map fun l => splitPath l.2).Nodup := by
    refine List.Nodup.of_map pathOf ?_
    rw [List.map_map]
    have hdirs : g.map (pathOf ∘ fun l => splitPath l.2) = g.map (·.2) :=
      List.map_congr_left fun l hl => (h.dirs l hl).1.1.symm
    rw [hdirs]
    exact h.nodup
  calc g.length = (g.map fun l => splitPath l.2).length := by rw [List.length_map]
    _ ≤ d.directories.length := (List.subperm_of_subset hnodup hsub).length_le

/-- Imports as deep as there are directories do what importing without records does. Their twin may differ
from them wherever the trail is not one of distinct directories. -/
theorem agrees_importTo (ho : Orderly d b) (hreg : Regular d root)
    {twin : Nat → Importer → String → String → Import}
    (htwin : ∀ n build flags chain g path srcDir, chain.map Link.station = g ++ t → Distinct d g →
      twin (n + 1) (Importer.under build flags o chain) path srcDir =
        importStep d (twin n) (Importer.under build flags o chain) path srcDir)
    {fuel : Nat} {chain : List Link} (hr : Reaches d root r) (hkin : b.Kin r.build) (hover : r.overlay = o)
    (hchain : chain.map Link.station = g ++ t) (hg : Distinct d g)
    (hfuel : d.directories.length < fuel + g.length) (h : Ledger d b o t sites s.tree) :
    Agrees d b o t root sites g r (g ++ t) (fun w n => evalTo d w n (underway w g t) r)
      (importTo d fuel (Importer.under r.build r.flags r.overlay chain) r.path r.srcDir s)
      (twin fuel (Importer.under r.build r.flags r.overlay chain) r.path r.srcDir s) s := by
  induction fuel generalizing r g chain sites s with
  | zero =>
    have := hg.length_le ho.linkless
    omega
  | succ fuel ih =>
    have hstep := htwin fuel r.build r.flags chain g r.path r.srcDir hchain hg
    rw [← hover] at hstep
    rw [importTo, hstep]
    refine agrees_importStep ho hreg hr hkin hover hchain ?_ h
    intro σ c haim hkin' his hmeets sites s path hleads hs
    obtain ⟨hplain, -⟩ := hreg.dirs r σ hr haim
    have hchain' : (⟨c, σ.importPath, σ.dir⟩ :: chain : List Link).map Link.station = (σ.station :: g) ++ t := by
      rw [List.map_cons, hchain]
      rfl
    refine ih (hr.tail hleads) hkin' (hleads.overlay_eq.trans hover) hchain' (hg.cons hplain his hmeets) ?_ hs
    rw [List.length_cons]
    omega

theorem lt_depthBound (d : Disk) (i : Importer) : d.directories.length < depthBound d i := by
  have hentries : ∀ (l : List (Location × DiskEntry)) (f : Location × DiskEntry → Nat) (n : Nat),
      n + l.length ≤ l.foldl (fun n e => n + f e + Disk.maxLinks) n := by
    intro l f
    induction l with
    | nil => simp
    | cons e l ih =>
      intro n
      have := ih (n + f e + Disk.maxLinks)
      simp only [List.length_cons, List.foldl_cons]
      have hmax : 1 ≤ Disk.maxLinks := by decide
      omega
  have hover : ∀ (l : Overrides) (n : Nat), n ≤ l.foldl (fun n o => n + o.2.length) n := by
    intro l
    induction l with
    | nil => simp
    | cons o l ih => exact fun n => (Nat.le_add_right _ _).trans (ih _)
  have hdirs := d.length_directories_le
  calc d.directories.length < 0 + d.entries.length + 2 := by omega
    _ ≤ d.entries.foldl _ 0 + 2 := Nat.add_le_add_right (hentries d.entries _ 0) 2
    _ ≤ depthBound d i := Nat.add_le_add_right (hover i.overrides _) 2

end EditorAgent.Go

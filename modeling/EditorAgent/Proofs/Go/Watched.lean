import EditorAgent.Proofs.Go.Agreement
import EditorAgent.Proofs.Go.Questions

/-!
# Importing under watch

Importing as before, with a log of what happens to the records: invalidations that reach them, imports that get
as far as them, and checks. Without the log it is the same importing.
-/

namespace EditorAgent.Go

open Vfs Importer

variable {α β : Type}

/-- When a cell was last invalidated; zero if it never was. -/
def markOf (t : Tree) (c : CellId) : Nat := ((t.cell? c).map (·.invalidatedAt)).getD 0

/-- Something that happened to a record. -/
inductive Incident where
  /-- An invalidation reached the record. -/
  | marked (c : CellId) (mark : Nat)
  /-- An import of a package got as far as the record: the outcome if it was returned without a check. -/
  | consulted (c : CellId) (p : PackagePath) (stored : Option (Except ImportError Package))
  /-- A check began, at a stamp. -/
  | began (c : CellId) (stamp : Nat)
  /-- The check that began at a stamp ended. -/
  | ended (c : CellId) (p : PackagePath) (stamp : Nat) (r : Except ImportError Package)

structure Watched where
  session : Session
  log : List Incident := []

/-- The invalidations between two trees, the last one of each cell. -/
def marksIn (t t' : Tree) : List Incident :=
  (List.range t'.cells.size).filterMap fun c =>
    if markOf t' c = markOf t c then none else some (.marked c (markOf t' c))

namespace Watched

def tree (w : Watched) : Tree := w.session.tree

/-- Does something that may invalidate records. -/
def watch (act : StateM Session α) : StateM Watched α := fun w =>
  let (a, s) := act w.session
  (a, ⟨s, w.log ++ marksIn w.tree s.tree⟩)

def report (e : Incident) : StateM Watched Unit := modify fun w => { w with log := w.log ++ [e] }

def framed (name : String) (act : StateM Watched α) : StateM Watched α := do
  modify fun w => { w with session := { w.session with profile := w.session.profile.push name } }
  let a ← act
  modify fun w => { w with session := { w.session with profile := (w.session.profile.pop 0).1 } }
  return a

/-- A check begins. -/
def begin (c : CellId) (w : Watched) : Watched :=
  { session := { w.session with tree := { w.tree.tick.2 with active := c :: w.tree.active } }
    log := w.log ++ [.began c w.tree.tick.1] }

/-- A check ends. -/
def finish (c : CellId) (p : PackagePath) (began : Nat) (r : Except ImportError Package) (w : Watched) : Watched :=
  { session := { w.session with tree := store c began r { w.tree with active := w.tree.active.drop 1 } }
    log := w.log ++ [.ended c p began r] }

end Watched

open Watched

abbrev WatchedImport := StateM Watched (Except ImportError Package)

namespace Importer

/-- Imports a path that a file names. -/
def watchedOne (find : String → WatchedImport) (q : String × ImportSpec) :
    StateM Watched (Except ImportError (String × Package)) := do
  match ← find q.2.path with
  | .ok pkg => return .ok (q.2.path, pkg)
  | .error e => return .error (.dependency ⟨q.1, q.2.row, q.2.col⟩ e)

/-- Imports one path after another. -/
def watchedAll (find : String → WatchedImport) :
    List (String × ImportSpec) → StateM Watched (Except ImportError (List (String × Package)))
  | [] => return .ok []
  | q :: l => do
    match ← watchedOne find q with
    | .error e => return .error e
    | .ok b => match ← watchedAll find l with
      | .error e => return .error e
      | .ok bs => return .ok (b :: bs)

def watchedCheck (d : Disk) (deps : Importer → String → String → WatchedImport) (i : Importer) (c : CellId)
    (p : PackagePath) : WatchedImport := do
  match ← watch (i.parseDir d p) with
  | .error e => return .error e
  | .ok files =>
    let inner := i.branch c (← get).tree
    match ← watchedAll (fun path => deps inner path p.dir) (specs files) with
    | .error e => return .error e
    | .ok imports => watch (i.conclude d p files imports)

def watchedRenew (d : Disk) (deps : Importer → String → String → WatchedImport) (i : Importer) (c : CellId)
    (p : PackagePath) : WatchedImport := do
  let began := (← get).tree.tick.1
  modify (begin c)
  let r ← i.watchedCheck d deps c p
  modify (finish c p began r)
  return r

def watchedConsult (d : Disk) (deps : Importer → String → String → WatchedImport) (i : Importer)
    (p : PackagePath) : WatchedImport := do
  let c ← watch (Session.onTree (i.record d p))
  watch (modify fun s => { s with tree := i.depend c s.tree })
  match served? (← get).tree c with
  | some r =>
    report (.consulted c p (some (outcome p.importPath r)))
    return outcome p.importPath r
  | none =>
    report (.consulted c p none)
    return outcome p.importPath (← i.watchedRenew d deps c p)

def watchedPackage (d : Disk) (deps : Importer → String → String → WatchedImport) (i : Importer)
    (p : PackagePath) : WatchedImport :=
  let i := i.retarget p
  Watched.framed s!"import({p.importPath})" do
    match i.detectCycle p with
    | .error e => return .error e
    | .ok () => i.watchedConsult d deps p

def watchedStep (d : Disk) (deps : Importer → String → String → WatchedImport) (i : Importer)
    (path srcDir : String) : WatchedImport :=
  if path = "C" then return .ok .ofC
  else if path = "unsafe" then return .ok .ofUnsafe
  else if srcDir = "" then return .error (.io "cannot make an empty path absolute")
  else do
    let srcDir := Path.clean (Path.join "/" srcDir)
    match ← watch (Session.framed "findPkg" (Session.onTree (findPackage d i.build path srcDir))) with
    | .error e => return .error e
    | .ok p => i.watchedPackage d deps p

def watchedTo (d : Disk) : Nat → Importer → String → String → WatchedImport
  | 0, _, _, _ => return .error (.other "import chain too long")
  | fuel + 1, i, path, srcDir => watchedStep d (watchedTo d fuel) i path srcDir

/-- `importFrom`, watched. -/
def watchedFrom (d : Disk) (i : Importer) (path srcDir : String) (mode : Nat) : WatchedImport :=
  if mode != 0 then return .error (.mode mode) else watchedTo d (depthBound d i) i path srcDir

end Importer

/-! ## Without the log -/

/-- What is watched is the same without the log. -/
def Erases (act' : StateM Watched α) (act : StateM Session α) : Prop :=
  ∀ w, (act' w).1 = (act w.session).1 ∧ (act' w).2.session = (act w.session).2

namespace Erases

theorem pure (a : α) : Erases (pure a) (pure a) := fun _ => ⟨rfl, rfl⟩

theorem bind {act' : StateM Watched α} {act : StateM Session α} {f' : α → StateM Watched β}
    {f : α → StateM Session β} (h : Erases act' act) (hf : ∀ a, Erases (f' a) (f a)) :
    Erases (act' >>= f') (act >>= f) := by
  intro w
  obtain ⟨hvalue, hsession⟩ := h w
  have hrest : f (act' w).1 (act' w).2.session = (act >>= f) w.session := by rw [hvalue, hsession]; rfl
  exact hrest ▸ hf (act' w).1 (act' w).2

theorem watch (act : StateM Session α) : Erases (Watched.watch act) act := fun _ => ⟨rfl, rfl⟩

theorem get {f' : Watched → StateM Watched β} {f : Session → StateM Session β}
    (hf : ∀ w, Erases (f' w) (f w.session)) : Erases (get >>= f') (get >>= f) :=
  fun w => hf w w

/-- A report leaves no trace. -/
theorem report {e : Incident} {act' : StateM Watched α} {act : StateM Session α} (h : Erases act' act) :
    Erases (Watched.report e >>= fun _ => act') act :=
  fun w => h { w with log := w.log ++ [e] }

theorem modify {f' : Watched → Watched} {f : Session → Session} (hf : ∀ w, (f' w).session = f w.session) :
    Erases (modify f') (modify f) :=
  fun w => ⟨rfl, hf w⟩

theorem framed {act' : StateM Watched α} {act : StateM Session α} (h : Erases act' act) (name : String) :
    Erases (Watched.framed name act') (Session.framed name act) :=
  (modify fun _ => rfl).bind fun _ => h.bind fun _ => (modify fun _ => rfl).bind fun _ => .pure _

end Erases

theorem watchedRenew_run (d : Disk) (deps : Importer → String → String → WatchedImport) (i : Importer) (c : CellId)
    (p : PackagePath) (w : Watched) :
    i.watchedRenew d deps c p w =
      let r := i.watchedCheck d deps c p (w.begin c)
      (r.1, r.2.finish c p w.tree.tick.1 r.1) := by
  rw [watchedRenew]
  generalize i.watchedCheck d deps c p = act
  rfl

section

variable {d : Disk} {deps' : Importer → String → String → WatchedImport} {deps : Importer → String → String → Import}

theorem erases_all {find' : String → WatchedImport} {find : String → Import} (h : ∀ path, Erases (find' path) (find path))
    (l : List (String × ImportSpec)) : Erases (watchedAll find' l) (importAll find l) := by
  induction l with
  | nil => exact .pure _
  | cons q l ih =>
    have hone : Erases (watchedOne find' q) (importOne find q) :=
      (h q.2.path).bind fun r => by cases r <;> exact .pure _
    refine hone.bind fun r => ?_
    cases r with
    | error e => exact .pure _
    | ok b => exact ih.bind fun r => by cases r <;> exact .pure _

variable (hdeps : ∀ i path srcDir, Erases (deps' i path srcDir) (deps i path srcDir))
include hdeps

theorem erases_check (i : Importer) (c : CellId) (p : PackagePath) :
    Erases (i.watchedCheck d deps' c p) (i.check d deps c p) := by
  refine (Erases.watch _).bind fun r => ?_
  cases r with
  | error e => exact .pure _
  | ok files =>
    refine .get fun w => (erases_all (fun path => hdeps _ path p.dir) (specs files)).bind fun r => ?_
    cases r with
    | error e => exact .pure _
    | ok imports => exact .watch _

theorem erases_renew (i : Importer) (c : CellId) (p : PackagePath) :
    Erases (i.watchedRenew d deps' c p) (i.renew d deps c p) := by
  intro w
  have h := erases_check hdeps (d := d) i c p (w.begin c)
  rw [watchedRenew_run, renew_run]
  generalize i.watchedCheck d deps' c p = act' at h ⊢
  generalize i.check d deps c p = act at h ⊢
  obtain ⟨hvalue, hsession⟩ := h
  have hbegin : (w.begin c).session =
      { w.session with tree := { w.session.tree.tick.2 with active := c :: w.session.tree.active } } := rfl
  rw [hbegin] at hvalue hsession
  refine ⟨hvalue, ?_⟩
  dsimp only [Watched.finish, Watched.tree]
  rw [hvalue, hsession]

theorem erases_consult (i : Importer) (p : PackagePath) :
    Erases (i.watchedConsult d deps' p) (i.consult d deps p) := by
  refine (Erases.watch _).bind fun c => (Erases.watch _).bind fun _ => .get fun w => ?_
  rw [Watched.tree]
  cases served? w.session.tree c with
  | some r => exact (Erases.pure _).report
  | none => exact ((erases_renew hdeps i c p).bind fun _ => .pure _).report

theorem erases_package (i : Importer) (p : PackagePath) :
    Erases (i.watchedPackage d deps' p) (i.importPackage d deps p) := by
  refine Erases.framed ?_ _
  cases (i.retarget p).detectCycle p with
  | error e => exact .pure _
  | ok _ => exact erases_consult hdeps _ p

theorem erases_step (i : Importer) (path srcDir : String) :
    Erases (watchedStep d deps' i path srcDir) (importStep d deps i path srcDir) := by
  unfold watchedStep importStep
  split
  · exact .pure _
  split
  · exact .pure _
  split
  · exact .pure _
  refine (Erases.watch _).bind fun r => ?_
  cases r with
  | error e => exact .pure _
  | ok p => exact erases_package hdeps i p

end

/-- Importing under watch is importing. -/
theorem erases_importFrom (d : Disk) (i : Importer) (path srcDir : String) (mode : Nat) :
    Erases (i.watchedFrom d path srcDir mode) (i.importFrom d path srcDir mode) := by
  have hto : ∀ fuel i path srcDir, Erases (watchedTo d fuel i path srcDir) (importTo d fuel i path srcDir) := by
    intro fuel
    induction fuel with
    | zero => exact fun _ _ _ => .pure _
    | succ fuel ih => exact fun i path srcDir => erases_step ih i path srcDir
  unfold watchedFrom importFrom
  split
  · exact .pure _
  · exact hto _ i path srcDir

end EditorAgent.Go

import EditorAgent.Proofs.Go.Sources
import Mathlib.Logic.Relation

/-!
# Importing without records

`evalTo` imports a path anew each time it is named. Either it remembers the packages that are being
imported and stops at a cycle, or it does not and runs out of steps. An outcome that is not a cycle does not
depend on what was remembered, and no import that is made for it leads back to where it began.
-/

namespace EditorAgent.Go

open Vfs Relation

abbrev Outcome := Except ImportError Package

/-- A package that was found, under the platform and the flags it is built for and the overlay it is read with. -/
structure Site where
  build : BuildContext
  flags : CheckFlags
  overlay : Overlay
  importPath : String
  dir : String
deriving DecidableEq

/-- An import path as seen from a directory. -/
structure Request where
  build : BuildContext
  flags : CheckFlags
  overlay : Overlay
  path : String
  srcDir : String
deriving DecidableEq

/-- What a request comes to before any source is read. -/
inductive Aim where
  | answer (x : Outcome)
  | site (σ : Site)

/-- The packages being imported, the innermost first: their import paths and directories. -/
abbrev Trail := List (String × String)

namespace Trail

def meets (t : Trail) (dir : String) : Bool := t.any fun l => Path.same l.2 dir

/-- The cycle that a package closes. -/
def cycle (t : Trail) (importPath dir : String) : ImportError :=
  let inner := t.takeWhile fun l => !Path.same l.2 dir
  let outer := (t.dropWhile fun l => !Path.same l.2 dir).take 1
  .cycle (Text.join " <~ " (((importPath, dir) :: (inner ++ outer)).map fun l => s!"{l.1}({l.2})"))

/-- Every directory of one trail is on another. -/
def Within (t t' : Trail) : Prop := ∀ dir, t.meets dir = true → t'.meets dir = true

theorem meets_cons (l : String × String) (t : Trail) (dir : String) :
    meets (l :: t) dir = (Path.same l.2 dir || t.meets dir) :=
  rfl

theorem meets_append (t t' : Trail) (dir : String) : meets (t ++ t') dir = (t.meets dir || t'.meets dir) :=
  List.any_append

theorem Within.cons {t t' : Trail} (h : t.Within t') (l : String × String) : Within (l :: t) (l :: t') := by
  intro dir
  rw [meets_cons, meets_cons, Bool.or_eq_true, Bool.or_eq_true]
  exact Or.imp_right (h dir)

theorem within_cons (l : String × String) (t : Trail) : Within t (l :: t) := by
  intro dir h
  rw [meets_cons, h, Bool.or_true]

end Trail

def Site.station (σ : Site) : String × String := (σ.importPath, σ.dir)

/-- The place where a request's package is looked up from. -/
def Request.origin (r : Request) : String := Path.clean (Path.join "/" r.srcDir)

/-- What looking a package up comes to. -/
def Request.aimOf (r : Request) : Except ImportError PackagePath → Aim
  | .error e => .answer (.error e)
  | .ok p =>
    .site ⟨((Importer.under r.build r.flags r.overlay []).retarget p).build, r.flags, r.overlay, p.importPath, p.dir⟩

def Request.aim (d : Disk) (r : Request) : Aim :=
  if r.path = "C" then .answer (.ok .ofC)
  else if r.path = "unsafe" then .answer (.ok .ofUnsafe)
  else if r.srcDir = "" then .answer (.error (.io "cannot make an empty path absolute"))
  else r.aimOf (findPackage d r.build r.path r.origin blankTree).1

namespace Site

variable (d : Disk) (σ : Site)

def files : Except ImportError (List PackageFile) := sources d σ.build σ.flags σ.overlay σ.dir

/-- A dependency of the package. -/
def request (path : String) : Request := ⟨σ.build, {}, σ.overlay, path, σ.dir⟩

/-- What comes of files whose imports are at hand. -/
def verdict (files : List PackageFile) (imports : List (String × Package)) : Outcome :=
  ((Importer.under σ.build σ.flags σ.overlay []).conclude d { dir := σ.dir, importPath := σ.importPath } files imports
    default).1

end Site

/-- Everything that is imported, up to the first failure. -/
def gather (deps : String → Option Outcome) :
    List (String × ImportSpec) → Option (Except ImportError (List (String × Package)))
  | [] => some (.ok [])
  | (path, spec) :: rest => match deps spec.path with
    | none => none
    | some (.error e) => some (.error (.dependency ⟨path, spec.row, spec.col⟩ e))
    | some (.ok pkg) => (gather deps rest).map fun r => r.map ((spec.path, pkg) :: ·)

/-- What comes of a package whose dependencies are imported by `deps`. -/
def Site.check (d : Disk) (σ : Site) (deps : String → Option Outcome) : Option Outcome :=
  match σ.files d with
  | .error e => some (.error e)
  | .ok files => (gather deps (Importer.specs files)).map fun r => r.bind (σ.verdict d files)

/-- Imports without records, in at most `n` steps; `watch` tells whether the packages that are being imported
are remembered. -/
def evalTo (d : Disk) (watch : Bool) : Nat → Trail → Request → Option Outcome
  | 0, _, _ => none
  | n + 1, t, r => match r.aim d with
    | .answer x => some x
    | .site σ =>
      if t.meets σ.dir then some (.error (t.cycle σ.importPath σ.dir))
      else
        let inner := if watch then σ.station :: t else t
        (σ.check d fun path => evalTo d watch n inner (σ.request path)).map (Importer.outcome σ.importPath)

open Importer (specs outcome isCycle)

variable {d : Disk} {watch : Bool} {n m : Nat} {t t' : Trail} {r r' : Request} {σ : Site} {x : Outcome}
  {deps deps' : String → Option Outcome} {l : List (String × ImportSpec)}
  {y : Except ImportError (List (String × Package))}

/-! ## Dependencies -/

/-- Either all imports succeed, or one fails after those before it. -/
theorem gather_cases (h : gather deps l = some y) :
    (∃ imports, y = .ok imports ∧ ∀ s ∈ l, ∃ pkg, deps s.2.path = some (.ok pkg)) ∨
      ∃ pre s post e, l = pre ++ s :: post ∧ (∀ q ∈ pre, ∃ pkg, deps q.2.path = some (.ok pkg)) ∧
        deps s.2.path = some (.error e) ∧ y = .error (.dependency ⟨s.1, s.2.row, s.2.col⟩ e) := by
  induction l generalizing y with
  | nil =>
    cases h
    exact .inl ⟨[], rfl, by simp⟩
  | cons s l ih =>
    obtain ⟨path, spec⟩ := s
    rw [gather] at h
    split at h
    · cases h
    · next e he =>
      cases h
      exact .inr ⟨[], (path, spec), l, e, rfl, by simp, he, rfl⟩
    · next pkg hpkg =>
      obtain ⟨z, hz, rfl⟩ := Option.map_eq_some_iff.mp h
      rcases ih hz with ⟨imports, rfl, hall⟩ | ⟨pre, s, post, e, rfl, hpre, hs, rfl⟩
      · refine .inl ⟨_, rfl, fun q hq => ?_⟩
        rcases List.mem_cons.mp hq with rfl | hq
        · exact ⟨pkg, hpkg⟩
        · exact hall q hq
      · refine .inr ⟨(path, spec) :: pre, s, post, e, rfl, fun q hq => ?_, hs, rfl⟩
        rcases List.mem_cons.mp hq with rfl | hq
        · exact ⟨pkg, hpkg⟩
        · exact hpre q hq

/-- Imports that give the same one after another give the same together. -/
theorem gather_congr (h : gather deps l = some y)
    (hdeps : ∀ pre s post, l = pre ++ s :: post → (∀ q ∈ pre, ∃ pkg, deps q.2.path = some (.ok pkg)) →
      (∀ pkg, deps s.2.path = some (.ok pkg) → deps' s.2.path = some (.ok pkg)) ∧
      ∀ e, deps s.2.path = some (.error e) → y = .error (.dependency ⟨s.1, s.2.row, s.2.col⟩ e) →
        deps' s.2.path = some (.error e)) : gather deps' l = some y := by
  induction l generalizing y with
  | nil => exact h
  | cons s l ih =>
    obtain ⟨path, spec⟩ := s
    obtain ⟨hok, herr⟩ := hdeps [] (path, spec) l rfl (by simp)
    rw [gather] at h ⊢
    split at h
    · cases h
    · next e he =>
      cases h
      rw [herr e he rfl]
    · next pkg hpkg =>
      rw [hok pkg hpkg]
      obtain ⟨z, hz, rfl⟩ := Option.map_eq_some_iff.mp h
      have hrest : gather deps' l = some z := by
        refine ih hz fun pre s post hl hpre => ?_
        obtain ⟨hok, herr⟩ := hdeps ((path, spec) :: pre) s post (by rw [hl, List.cons_append]) fun q hq => by
          rcases List.mem_cons.mp hq with rfl | hq
          · exact ⟨pkg, hpkg⟩
          · exact hpre q hq
        exact ⟨hok, fun e he hz => herr e he (by rw [hz]; rfl)⟩
      simp only [hrest, Option.map_some]

@[simp] theorem isCycle_dependency (place : Place) (e : ImportError) :
    isCycle (.error (.dependency place e)) = isCycle (.error e) :=
  rfl

@[simp] theorem isCycle_outcome (path : String) (x : Outcome) : isCycle (outcome path x) = isCycle x := by
  cases x with
  | error e => rfl
  | ok pkg =>
    rw [outcome]
    split <;> rfl

namespace Site

theorem check_cases (h : σ.check d deps = some x) :
    (∃ e, σ.files d = .error e ∧ x = .error e) ∨
      ∃ files y, σ.files d = .ok files ∧ gather deps (specs files) = some y ∧
        x = y.bind (σ.verdict d files) := by
  rw [check] at h
  split at h
  · next e he =>
    cases h
    exact .inl ⟨e, he, rfl⟩
  · next files hf =>
    obtain ⟨y, hy, rfl⟩ := Option.map_eq_some_iff.mp h
    exact .inr ⟨files, y, hf, hy, rfl⟩

theorem check_of_files {files : List PackageFile} (hf : σ.files d = .ok files) (h : gather deps (specs files) = some y) :
    σ.check d deps = some (y.bind (σ.verdict d files)) := by
  rw [check, hf]
  simp only [h, Option.map_some]

/-- A check that asks for the same imports comes to the same. -/
theorem check_congr (h : σ.check d deps = some x)
    (hdeps : ∀ files pre s post, σ.files d = .ok files → specs files = pre ++ s :: post →
      (∀ q ∈ pre, ∃ pkg, deps q.2.path = some (.ok pkg)) → ∀ z, deps s.2.path = some z →
      (isCycle z = true → isCycle x = true) → deps' s.2.path = some z) : σ.check d deps' = some x := by
  rcases check_cases h with ⟨e, he, rfl⟩ | ⟨files, y, hf, hy, rfl⟩
  · rw [check, he]
  · refine check_of_files hf (gather_congr hy fun pre s post hl hpre => ⟨fun pkg hpkg => ?_, fun e he hy => ?_⟩)
    · exact hdeps files pre s post hf hl hpre _ hpkg (by simp [isCycle])
    · refine hdeps files pre s post hf hl hpre _ he fun hz => ?_
      rw [hy]
      exact hz

end Site

/-! ## Evaluation -/

theorem evalTo_answer (h : r.aim d = .answer x) : evalTo d watch (n + 1) t r = some x := by
  rw [evalTo, h]

theorem evalTo_meets (h : r.aim d = .site σ) (ht : t.meets σ.dir = true) :
    evalTo d watch (n + 1) t r = some (.error (t.cycle σ.importPath σ.dir)) := by
  rw [evalTo, h]
  simp [ht]

/-- What is remembered while the dependencies of a package are imported. -/
def inner (watch : Bool) (σ : Site) (t : Trail) : Trail := if watch then σ.station :: t else t

theorem evalTo_site (h : r.aim d = .site σ) (ht : t.meets σ.dir = false) :
    evalTo d watch (n + 1) t r =
      (σ.check d fun path => evalTo d watch n (inner watch σ t) (σ.request path)).map (outcome σ.importPath) := by
  rw [evalTo, h]
  simp [ht, inner]

/-- What an evaluation that comes to an end has done. -/
theorem evalTo_cases (h : evalTo d watch (n + 1) t r = some x) :
    r.aim d = .answer x ∨
      ∃ σ, r.aim d = .site σ ∧
        (t.meets σ.dir = true ∧ x = .error (t.cycle σ.importPath σ.dir) ∨
          t.meets σ.dir = false ∧ ∃ z,
            (σ.check d fun path => evalTo d watch n (inner watch σ t) (σ.request path)) = some z ∧
              x = outcome σ.importPath z) := by
  cases haim : r.aim d with
  | answer a =>
    rw [evalTo_answer haim] at h
    cases h
    exact .inl rfl
  | site σ =>
    refine .inr ⟨σ, rfl, ?_⟩
    cases ht : t.meets σ.dir with
    | true =>
      rw [evalTo_meets haim ht] at h
      cases h
      exact .inl ⟨rfl, rfl⟩
    | false =>
      rw [evalTo_site haim ht] at h
      obtain ⟨z, hz, rfl⟩ := Option.map_eq_some_iff.mp h
      exact .inr ⟨rfl, z, hz, rfl⟩

theorem evalTo_succ (h : evalTo d watch n t r = some x) : evalTo d watch (n + 1) t r = some x := by
  induction n generalizing t r x with
  | zero => cases h
  | succ n ih =>
    rcases evalTo_cases h with haim | ⟨σ, haim, ⟨ht, rfl⟩ | ⟨ht, z, hz, rfl⟩⟩
    · exact evalTo_answer haim
    · exact evalTo_meets haim ht
    · rw [evalTo_site haim ht, Option.map_eq_some_iff]
      exact ⟨z, Site.check_congr hz fun _ _ _ _ _ _ _ _ hs _ => ih hs, rfl⟩

/-- More steps change nothing. -/
theorem evalTo_mono (h : evalTo d watch n t r = some x) (hnm : n ≤ m) : evalTo d watch m t r = some x := by
  induction hnm with
  | refl => exact h
  | step _ ih => exact evalTo_succ ih

theorem evalTo_unique {x' : Outcome} (h : evalTo d watch n t r = some x) (h' : evalTo d watch m t r = some x') :
    x = x' := by
  have hx := evalTo_mono h (Nat.le_max_left n m)
  have hx' := evalTo_mono h' (Nat.le_max_right n m)
  exact Option.some.inj (hx.symm.trans hx')

/-- An outcome that is not a cycle is the same if less is remembered. -/
theorem evalTo_within {watch' : Bool} (h : evalTo d watch n t r = some x) (hx : isCycle x = false)
    (hw : watch' = true → watch = true) (ht : t'.Within t) : evalTo d watch' n t' r = some x := by
  induction n generalizing t t' r x with
  | zero => cases h
  | succ n ih =>
    rcases evalTo_cases h with haim | ⟨σ, haim, ⟨hmeets, rfl⟩ | ⟨hmeets, z, hz, rfl⟩⟩
    · exact evalTo_answer haim
    · cases hx
    · have hmeets' : t'.meets σ.dir = false := by
        by_contra hc
        have := ht σ.dir (by simpa using hc)
        simp [this] at hmeets
      have hinner : (inner watch' σ t').Within (inner watch σ t) := by
        cases hw' : watch' with
        | true =>
          rw [hw hw']
          exact ht.cons σ.station
        | false =>
          intro dir hdir
          have hdir := ht dir hdir
          rw [inner]
          split
          · exact Trail.within_cons _ _ dir hdir
          · exact hdir
      rw [evalTo_site haim hmeets', Option.map_eq_some_iff]
      refine ⟨z, Site.check_congr hz fun _ _ _ _ _ _ _ a ha hcycle => ?_, rfl⟩
      have hacycle : isCycle a = false := by
        by_contra hc
        have := hcycle (by simpa using hc)
        simp [this] at hx
      exact ih ha hacycle hinner

/-! ## The import graph -/

/-- A package's files name another. -/
def Leads (d : Disk) (r r' : Request) : Prop :=
  ∃ σ files s, r.aim d = .site σ ∧ σ.files d = .ok files ∧ s ∈ specs files ∧ r' = σ.request s.2.path

abbrev Reaches (d : Disk) : Request → Request → Prop := ReflTransGen (Leads d)

/-- Imports lead from a package back to its directory. -/
def LeadsBack (d : Disk) (r r' : Request) (σ σ' : Site) : Prop :=
  r.aim d = .site σ ∧ r'.aim d = .site σ' ∧ TransGen (Leads d) r r' ∧ Path.same σ.dir σ'.dir = true

/-- A package that imports lead back to has the same files then, for the same platform. -/
def Consistent (d : Disk) (root : Request) : Prop :=
  ∀ r r' σ σ', Reaches d root r → LeadsBack d r r' σ σ' →
    σ'.build = σ.build ∧ ∀ files, σ.files d = .ok files → σ'.files d = .ok files

/-- A request whose paths, and those it leads to, are spelled in one way and hold no name of a source. -/
structure Regular (d : Disk) (root : Request) : Prop where
  overlay : root.overlay.Plain
  origin : Tame root.origin ∧ ".." ∉ splitPath root.origin
  paths : ∀ r, Reaches d root r → Tame r.path ∧ WellFormed r.path
  dirs : ∀ r σ, Reaches d root r → r.aim d = .site σ → Path.Plain σ.dir ∧ Tame σ.dir

/-- A package is imported from where it is found. -/
theorem exists_of_aim (h : r.aim d = .site σ) :
    ∃ p, (findPackage d r.build r.path r.origin blankTree).1 = .ok p ∧ r.aimOf (.ok p) = .site σ := by
  rw [Request.aim] at h
  split_ifs at h
  cases hfound : (findPackage d r.build r.path r.origin blankTree).1 with
  | error e =>
    rw [hfound] at h
    cases h
  | ok p => exact ⟨p, rfl, hfound ▸ h⟩

theorem overlay_eq_of_aim (h : r.aim d = .site σ) : σ.overlay = r.overlay := by
  obtain ⟨p, -, hp⟩ := exists_of_aim h
  cases hp
  rfl

theorem Leads.overlay_eq (h : Leads d r r') : r'.overlay = r.overlay := by
  obtain ⟨σ, files, s, haim, -, -, rfl⟩ := h
  exact overlay_eq_of_aim haim

theorem overlay_eq_of_reaches (h : Reaches d r r') : r'.overlay = r.overlay := by
  induction h with
  | refl => rfl
  | tail _ hleads ih => exact hleads.overlay_eq.trans ih

theorem Regular.leads (h : Regular d r) (hr : Leads d r r') : Regular d r' := by
  refine ⟨hr.overlay_eq ▸ h.overlay, ?_, fun q hq => h.paths q (.head hr hq), fun q σ hq => h.dirs q σ (.head hr hq)⟩
  obtain ⟨σ, files, s, haim, -, -, rfl⟩ := hr
  obtain ⟨hplain, htame⟩ := h.dirs r σ .refl haim
  have horigin : (σ.request s.2.path).origin = σ.dir := by
    rw [Request.origin, Site.request, hplain.join_eq, hplain.clean_eq]
  rw [horigin]
  exact ⟨htame, hplain.2⟩

/-! ## Imports that are made -/

/-- What a request comes to when nothing but a trail is remembered. -/
def Settles (d : Disk) (t : Trail) (r : Request) (x : Outcome) : Prop :=
  isCycle x = false ∧ ∃ n, evalTo d false n t r = some x

/-- A package asks for another, after all that its files name before has been imported. -/
def Calls (d : Disk) (t : Trail) (r r' : Request) : Prop :=
  ∃ σ files pre s post, r.aim d = .site σ ∧ σ.files d = .ok files ∧ specs files = pre ++ s :: post ∧
    (∀ q ∈ pre, ∃ pkg, Settles d t (σ.request q.2.path) (.ok pkg)) ∧ r' = σ.request s.2.path

theorem Calls.leads (h : Calls d t r r') : Leads d r r' := by
  obtain ⟨σ, files, pre, s, post, haim, hf, hl, -, hr⟩ := h
  exact ⟨σ, files, s, haim, hf, by simp [hl], hr⟩

theorem mem_of_split_eq {α : Type} {pre post pre' post' : List α} {s s' : α}
    (h : pre ++ s :: post = pre' ++ s' :: post') : s ∈ pre' ∨ s = s' ∨ s' ∈ pre := by
  rcases List.append_eq_append_iff.mp h with ⟨as, rfl, hs⟩ | ⟨bs, rfl, hs⟩
  · cases as with
    | nil => exact .inr (.inl (List.cons.inj hs).1)
    | cons a as => exact .inl (by simp [(List.cons.inj hs).1])
  · cases bs with
    | nil => exact .inr (.inl (List.cons.inj hs).1.symm)
    | cons b bs => exact .inr (.inr (by simp [(List.cons.inj hs).1]))

/-- The outcome of an import that is made is part of the outcome, and takes fewer steps. -/
theorem Calls.settled (h : Calls d t r r') (hx : isCycle x = false) (hr : evalTo d false (n + 1) t r = some x) :
    ∃ z, isCycle z = false ∧ evalTo d false n t r' = some z := by
  obtain ⟨σ, files, pre, s, post, haim, hf, hl, hpre, rfl⟩ := h
  rcases evalTo_cases hr with hans | ⟨σ', haim', ⟨-, rfl⟩ | ⟨-, a, ha, rfl⟩⟩
  · rw [haim] at hans
    cases hans
  · cases hx
  · obtain rfl : σ = σ' := by simpa [haim] using haim'
    rcases Site.check_cases ha with ⟨e, he, -⟩ | ⟨files', y, hf', hy, rfl⟩
    · rw [hf] at he
      cases he
    · obtain rfl : files = files' := by simpa [hf] using hf'
      rcases gather_cases hy with ⟨imports, -, hall⟩ | ⟨pre', s', post', e, hl', hpre', hs', rfl⟩
      · obtain ⟨pkg, hpkg⟩ := hall s (by simp [hl])
        exact ⟨.ok pkg, rfl, hpkg⟩
      · rcases mem_of_split_eq (hl.symm.trans hl') with hs | rfl | hs
        · obtain ⟨pkg, hpkg⟩ := hpre' s hs
          exact ⟨.ok pkg, rfl, hpkg⟩
        · rw [isCycle_outcome] at hx
          exact ⟨.error e, hx, hs'⟩
        · -- what failed stands before, where everything succeeds
          obtain ⟨pkg, -, k, hk⟩ := hpre s' hs
          cases evalTo_unique hs' hk

/-- An import with an outcome is not made for itself. -/
theorem Settles.not_calls_self (h : Settles d t r x) : ¬ TransGen (Calls d t) r r := by
  obtain ⟨hx, n, hn⟩ := h
  intro hself
  have hdescend : ∀ {q : Request}, TransGen (Calls d t) r q → ∀ {n x}, isCycle x = false →
      evalTo d false n t r = some x → ∃ m < n, ∃ z, isCycle z = false ∧ evalTo d false m t q = some z := by
    intro q hq
    induction hq with
    | single hcall =>
      intro n x hx hn
      cases n with
      | zero => cases hn
      | succ n => exact ⟨n, Nat.lt_succ_self n, hcall.settled hx hn⟩
    | tail _ hcall ih =>
      intro n x hx hn
      obtain ⟨m, hm, z, hz, hzm⟩ := ih hx hn
      cases m with
      | zero => cases hzm
      | succ m => exact ⟨m, by omega, hcall.settled hz hzm⟩
  induction n using Nat.strongRecOn generalizing x with
  | ind n ih =>
    obtain ⟨m, hm, z, hz, hzm⟩ := hdescend hself hx hn
    exact ih m hm hz hzm

/-- A trail that imports have led along, from one request to another. -/
inductive Walked (d : Disk) (t : Trail) (root : Request) : Trail → Request → Prop
  | here : Walked d t root [] root
  | call {g : Trail} {r r' : Request} {σ : Site} (walked : Walked d t root g r) (aim : r.aim d = .site σ)
      (calls : Calls d t r r') : Walked d t root (σ.station :: g) r'

namespace Walked

variable {root : Request} {g : Trail} {dir : String}

theorem reaches (h : Walked d t root g r) : Reaches d root r := by
  induction h with
  | here => exact .refl
  | call _ _ hcalls ih => exact ih.tail hcalls.leads

/-- Whoever stands on the trail has asked for what is asked for now. -/
theorem calls_of_meets (h : Walked d t root g r) (hm : g.meets dir = true) :
    ∃ q σ, Reaches d root q ∧ q.aim d = .site σ ∧ Path.same σ.dir dir = true ∧
      TransGen (Calls d t) q r := by
  induction h with
  | here => cases hm
  | @call g r r' σ hw haim hcalls ih =>
    rw [Trail.meets_cons, Bool.or_eq_true] at hm
    rcases hm with hm | hm
    · exact ⟨r, σ, hw.reaches, haim, hm, .single hcalls⟩
    · obtain ⟨q, σ', hq, hσ', hdir, hqr⟩ := ih hm
      exact ⟨q, σ', hq, hσ', hdir, hqr.tail hcalls⟩

end Walked

theorem leads_of_calls (h : TransGen (Calls d t) r r') : TransGen (Leads d) r r' :=
  TransGen.mono (fun _ _ => Calls.leads) r r' h

/-- An outcome that is not a cycle is reached without coming back to a package that asked for it. -/
theorem Settles.not_meets {root : Request} {g : Trail} (hreg : Regular d root) (hcons : Consistent d root)
    (hw : Walked d t root g r) (haim : r.aim d = .site σ) (h : Settles d t r x) : g.meets σ.dir = false := by
  by_contra hc
  obtain ⟨q, σ', hq, hσ', hdir, hcalls⟩ := hw.calls_of_meets (by simpa using hc)
  have hback : LeadsBack d q r σ' σ := ⟨hσ', haim, leads_of_calls hcalls, hdir⟩
  obtain ⟨hbuild, hfiles⟩ := hcons q r σ' σ hq hback
  have hsame : σ'.dir = σ.dir :=
    (Path.Plain.same_iff (hreg.dirs q σ' hq hσ').1 (hreg.dirs r σ hw.reaches haim).1).mp hdir
  -- the package asks for whatever it asked for when it stood on the trail
  have hagain : ∀ r', Calls d t q r' → Calls d t r r' := by
    rintro r' ⟨τ, files, pre, s, post, hτ, hf, hl, hpre, rfl⟩
    obtain rfl : σ' = τ := by simpa [hσ'] using hτ
    have hoverlay : σ.overlay = σ'.overlay := by
      rw [overlay_eq_of_aim haim, overlay_eq_of_aim hσ', overlay_eq_of_reaches (leads_of_calls hcalls).to_reflTransGen]
    have hrequest : ∀ path, σ.request path = σ'.request path := by simp [Site.request, hbuild, hsame, hoverlay]
    exact ⟨σ, files, pre, s, post, haim, hfiles files hf, hl, fun p hp => hrequest _ ▸ hpre p hp, (hrequest _).symm⟩
  refine h.not_calls_self ?_
  obtain ⟨r', hfirst, hrest⟩ := TransGen.head'_iff.mp hcalls
  exact TransGen.head' (hagain r' hfirst) hrest

/-- What comes of an import without its trail comes of it on the trail as well. -/
theorem evalTo_walked {root : Request} {g : Trail} (hreg : Regular d root) (hcons : Consistent d root)
    (hw : Walked d t root g r) (hx : isCycle x = false) (h : evalTo d false n t r = some x) :
    evalTo d true n (g ++ t) r = some x := by
  induction n generalizing g r x with
  | zero => cases h
  | succ n ih =>
    rcases evalTo_cases h with haim | ⟨σ, haim, ⟨-, rfl⟩ | ⟨hmeets, z, hz, rfl⟩⟩
    · exact evalTo_answer haim
    · cases hx
    · have hg : g.meets σ.dir = false := Settles.not_meets hreg hcons hw haim ⟨hx, n + 1, h⟩
      have hgt : (g ++ t : Trail).meets σ.dir = false := by rw [Trail.meets_append, hg, hmeets, Bool.or_false]
      rw [evalTo_site haim hgt, Option.map_eq_some_iff]
      refine ⟨z, Site.check_congr hz fun files pre s post hf hl hpre a ha hcycle => ?_, rfl⟩
      have hacycle : isCycle a = false := by
        by_contra hc
        have := hcycle (by simpa using hc)
        simp [this] at hx
      have hcalls : Calls d t r (σ.request s.2.path) := by
        refine ⟨σ, files, pre, s, post, haim, hf, hl, fun q hq => ?_, rfl⟩
        obtain ⟨pkg, hpkg⟩ := hpre q hq
        exact ⟨pkg, rfl, n, hpkg⟩
      exact ih (.call hw haim hcalls) hacycle ha

end EditorAgent.Go

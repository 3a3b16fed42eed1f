import EditorAgent.Proofs.Go.Memoised
import Mathlib

/-!
# One import over two disks

An import that finds its packages at the same places on two disks, and reads the same files and export data there, has
the same outcome on both. The sources that are handed to it may differ, as long as the files that are read do not.
-/

namespace EditorAgent.Go

open Vfs Importer Relation

variable {α β : Type} {d d' : Disk} {b : BuildContext}

/-! ## Lookups -/

/-- Two lookups, each over a disk of its own, that have one answer. -/
def Matched (d d' : Disk) (b : BuildContext) (act act' : StateM Tree α) : Prop :=
  ∃ a, Settled .full d (Noted d b) act (· = a) ∧ Settled .full d' (Noted d' b) act' (· = a)

namespace Matched

variable {act act' : StateM Tree α} {f f' : α → StateM Tree β} {a a' : α}

theorem pure (d d' : Disk) (b : BuildContext) (a : α) : Matched d d' b (pure a) (pure a) := ⟨a, .pure rfl, .pure rfl⟩

theorem of_settled (h : Settled .full d (Noted d b) act (· = a)) (h' : Settled .full d' (Noted d' b) act' (· = a'))
    (heq : a' = a) : Matched d d' b act act' :=
  ⟨a, h, heq ▸ h'⟩

theorem bind (h : Matched d d' b act act') (hf : ∀ a, Matched d d' b (f a) (f' a)) :
    Matched d d' b (act >>= f) (act' >>= f') := by
  obtain ⟨a, hact, hact'⟩ := h
  obtain ⟨x, hx, hx'⟩ := hf a
  exact ⟨x, hact.bind fun _ heq => heq ▸ hx, hact'.bind fun _ heq => heq ▸ hx'⟩

/-- After two lookups whose answer is known only what follows that answer counts. -/
theorem bind_of_settled (h : Settled .full d (Noted d b) act (· = a))
    (h' : Settled .full d' (Noted d' b) act' (· = a')) (heq : a' = a) (hf : Matched d d' b (f a) (f' a)) :
    Matched d d' b (act >>= f) (act' >>= f') := by
  subst heq
  obtain ⟨x, hx, hx'⟩ := hf
  exact ⟨x, h.bind fun _ heq => heq ▸ hx, h'.bind fun _ heq => heq ▸ hx'⟩

theorem answer (h : Matched d d' b act act') : (act' blankTree).1 = (act blankTree).1 := by
  obtain ⟨a, hact, hact'⟩ := h
  exact hact'.answer.1.trans hact.answer.1.symm

end Matched

/-! ## Imports -/

/-- A request with other sources in front of the disk. -/
def Request.over (f : Overlay → Overlay) (r : Request) : Request := { r with overlay := f r.overlay }

def Site.over (f : Overlay → Overlay) (σ : Site) : Site := { σ with overlay := f σ.overlay }

def Aim.over (f : Overlay → Overlay) : Aim → Aim
  | .answer x => .answer x
  | .site σ => .site (σ.over f)

/-- The package that the export data give. -/
def Site.exported? (d : Disk) (σ : Site) (imports : List (String × Package)) : Option Package :=
  ((Importer.under σ.build σ.flags σ.overlay []).readExport d { dir := σ.dir, importPath := σ.importPath } imports
    default).1

/-- Two disks on which a request and all it leads to find the same packages, and read the same. -/
structure Alike (d : Disk) (root : Request) (d' : Disk) (f : Overlay → Overlay) : Prop where
  found : ∀ r, Reaches d root r →
    (findPackage d' r.build r.path r.origin blankTree).1 = (findPackage d r.build r.path r.origin blankTree).1
  files : ∀ r σ, Reaches d root r → r.aim d = .site σ → (σ.over f).files d' = σ.files d
  exported : ∀ r σ imports, Reaches d root r → r.aim d = .site σ → σ.exported? d' imports = σ.exported? d imports

theorem verdict_over {σ : Site} (f : Overlay → Overlay) (h : ∀ imports, σ.exported? d' imports = σ.exported? d imports)
    (files : List PackageFile) (imports : List (String × Package)) :
    (σ.over f).verdict d' files imports = σ.verdict d files imports := by
  have hexport := h imports
  rw [Site.exported?, Site.exported?] at hexport
  have hover : (σ.over f).verdict d' files imports = σ.verdict d' files imports := rfl
  rw [hover, Site.verdict, Site.verdict, conclude, conclude]
  split
  · rw [bind_run, bind_run, hexport]
    cases (readExport d (under σ.build σ.flags σ.overlay []) { dir := σ.dir, importPath := σ.importPath } imports
      default).1 with
    | some pkg => rfl
    | none => exact (runChecker_run _ _ files imports _ _).1
  · rfl

theorem gather_congr_of_mem {deps deps' : String → Option Outcome} {l : List (String × ImportSpec)}
    (h : ∀ s ∈ l, deps' s.2.path = deps s.2.path) : gather deps' l = gather deps l := by
  induction l with
  | nil => rfl
  | cons s l ih =>
    rw [gather, gather, h s List.mem_cons_self, ih fun q hq => h q (List.mem_cons_of_mem _ hq)]

theorem build_retarget (build : BuildContext) (flags : CheckFlags) (o o' : Overlay) (p : PackagePath) :
    ((Importer.under build flags o' []).retarget p).build = ((Importer.under build flags o []).retarget p).build := by
  rw [retarget_eq, retarget_eq]
  split <;> rfl

theorem kin_of_aim {r : Request} {σ : Site} (hkin : b.Kin r.build) (haim : r.aim d = .site σ) : b.Kin σ.build := by
  obtain ⟨p, -, hp⟩ := exists_of_aim haim
  cases hp
  exact hkin.retarget r.flags r.overlay p

theorem kin_of_reaches {root r : Request} (hkin : b.Kin root.build) (hr : Reaches d root r) : b.Kin r.build := by
  induction hr with
  | refl => exact hkin
  | tail _ hleads ih =>
    obtain ⟨σ, files, s, haim, -, -, rfl⟩ := hleads
    exact kin_of_aim ih haim

/-- A package is found where there is a directory. -/
theorem isDir_of_found {r : Request} {p : PackagePath} (ho : Orderly d' b) (hkin : b.Kin r.build) (hreg : Regular d r)
    (hfound : (findPackage d' r.build r.path r.origin blankTree).1 = .ok p) : IsDir d' p.dir := by
  obtain ⟨htame, hwf⟩ := hreg.paths r .refl
  rw [findPackage_kin hkin] at hfound
  exact (settled_findPackage ho (truthful_noted d' b) hreg.origin.1 hreg.origin.2 htame hwf).answer.1 p hfound

namespace Alike

variable {root r q : Request} {σ τ : Site} {f : Overlay → Overlay} {watch : Bool} {n : Nat} {t : Trail}
  (h : Alike d root d' f) (hr : Reaches d root r)

include h hr

theorem aim_over : (r.over f).aim d' = (r.aim d).over f := by
  rw [Request.aim, Request.aim]
  change (if r.path = "C" then _ else if r.path = "unsafe" then _ else if r.srcDir = "" then _ else
    (r.over f).aimOf (findPackage d' r.build r.path r.origin blankTree).1) = _
  rw [h.found r hr]
  split_ifs
  · rfl
  · rfl
  · rfl
  · cases (findPackage d r.build r.path r.origin blankTree).1 with
    | error e => rfl
    | ok p =>
      exact congrArg (fun build => Aim.site ⟨build, r.flags, f r.overlay, p.importPath, p.dir⟩)
        (build_retarget r.build r.flags r.overlay (f r.overlay) p)

theorem exists_of_aim_over (haim : (r.over f).aim d' = .site τ) : ∃ σ, r.aim d = .site σ ∧ τ = σ.over f := by
  rw [h.aim_over hr] at haim
  cases hσ : r.aim d with
  | answer x =>
    rw [hσ] at haim
    cases haim
  | site σ =>
    rw [hσ] at haim
    cases haim
    exact ⟨σ, rfl, rfl⟩

/-- Importing without records comes to the same on both disks. -/
theorem evalTo_over : evalTo d' watch n t (r.over f) = evalTo d watch n t r := by
  induction n generalizing t r with
  | zero => rfl
  | succ n ih =>
    cases hσ : r.aim d with
    | answer x =>
      have haim : (r.over f).aim d' = .answer x := by rw [h.aim_over hr, hσ, Aim.over]
      rw [evalTo_answer hσ, evalTo_answer haim]
    | site σ =>
      have haim : (r.over f).aim d' = .site (σ.over f) := by rw [h.aim_over hr, hσ, Aim.over]
      cases hmeets : t.meets σ.dir with
      | true =>
        have hmeets' : t.meets (σ.over f).dir = true := hmeets
        rw [evalTo_meets hσ hmeets, evalTo_meets haim hmeets']
        rfl
      | false =>
        rw [evalTo_site hσ hmeets, evalTo_site haim hmeets]
        refine congrArg (Option.map _) ?_
        rw [Site.check, Site.check, h.files r σ hr hσ]
        cases hf : σ.files d with
        | error e => rfl
        | ok files =>
          have hdeps : ∀ s ∈ specs files, evalTo d' watch n (inner watch σ t) ((σ.over f).request s.2.path) =
              evalTo d watch n (inner watch σ t) (σ.request s.2.path) :=
            fun s hs => ih (hr.tail ⟨σ, files, s, hσ, hf, hs, rfl⟩)
          have hverdict : (σ.over f).verdict d' files = σ.verdict d files := by
            funext imports
            exact verdict_over f (fun imports => h.exported r σ imports hr hσ) files imports
          simp only [hverdict]
          exact congrArg _ (gather_congr_of_mem hdeps)

theorem exists_of_leads_over (hleads : Leads d' (r.over f) q) : ∃ r', Leads d r r' ∧ q = r'.over f := by
  obtain ⟨τ, files, s, haim, hf, hs, rfl⟩ := hleads
  obtain ⟨σ, hσ, rfl⟩ := h.exists_of_aim_over hr haim
  rw [h.files r σ hr hσ] at hf
  exact ⟨σ.request s.2.path, ⟨σ, files, s, hσ, hf, hs, rfl⟩, rfl⟩

theorem exists_of_transGen_over (hq : TransGen (Leads d') (r.over f) q) :
    ∃ r', TransGen (Leads d) r r' ∧ q = r'.over f := by
  induction hq with
  | single hleads =>
    obtain ⟨r', hr', rfl⟩ := h.exists_of_leads_over hr hleads
    exact ⟨r', .single hr', rfl⟩
  | tail _ hleads ih =>
    obtain ⟨r₁, hr₁, rfl⟩ := ih
    obtain ⟨r', hr', rfl⟩ := h.exists_of_leads_over (hr.trans hr₁.to_reflTransGen) hleads
    exact ⟨r', hr₁.tail hr', rfl⟩

omit hr

theorem exists_of_reaches_over (hq : Reaches d' (root.over f) q) : ∃ r, Reaches d root r ∧ q = r.over f := by
  rcases reflTransGen_iff_eq_or_transGen.mp hq with rfl | hq
  · exact ⟨root, .refl, rfl⟩
  · obtain ⟨r, hr, rfl⟩ := h.exists_of_transGen_over .refl hq
    exact ⟨r, hr.to_reflTransGen, rfl⟩

theorem regular_over (hreg : Regular d root) (hover : (f root.overlay).Plain) : Regular d' (root.over f) := by
  refine ⟨hover, hreg.origin, fun q hq => ?_, fun q τ hq haim => ?_⟩
  · obtain ⟨r, hr, rfl⟩ := h.exists_of_reaches_over hq
    exact hreg.paths r hr
  · obtain ⟨r, hr, rfl⟩ := h.exists_of_reaches_over hq
    obtain ⟨σ, hσ, rfl⟩ := h.exists_of_aim_over hr haim
    exact hreg.dirs r σ hr hσ

theorem consistent_over (hcons : Consistent d root) : Consistent d' (root.over f) := by
  intro q q' τ τ' hq hback
  obtain ⟨r, hr, rfl⟩ := h.exists_of_reaches_over hq
  obtain ⟨r', hr', rfl⟩ := h.exists_of_transGen_over hr hback.2.2.1
  obtain ⟨σ, hσ, rfl⟩ := h.exists_of_aim_over hr hback.1
  obtain ⟨σ', hσ', rfl⟩ := h.exists_of_aim_over (hr.trans hr'.to_reflTransGen) hback.2.1
  have hcons := hcons r r' σ σ' hr ⟨hσ, hσ', hr', hback.2.2.2⟩
  rw [h.files r σ hr hσ, h.files r' σ' (hr.trans hr'.to_reflTransGen) hσ']
  exact hcons

end Alike

/-- A call has one outcome over two disks that are alike for it. -/
theorem Call.run_eq_of_alike {c : Call} {s s' : Session} {e e' : Expiry} (ho : Orderly d b) (ho' : Orderly d' b)
    (hfits : c.Fits d b c.overlay) (hcons : Consistent d c.request) (h : Alike d c.request d' id)
    (hs : s.tree = Vfs.make e) (hs' : s'.tree = Vfs.make e') : (c.run d' [] s').1 = (c.run d [] s).1 := by
  by_cases hmode : c.mode = 0
  · have hfits' : c.Fits d' b c.overlay := ⟨hfits.kin, rfl, h.regular_over hfits.regular hfits.regular.overlay⟩
    obtain ⟨n, hn⟩ := @evalTo_run d b c.overlay c [] [] s ho hfits hcons hmode (hs ▸ ledger_make d b _ [] e)
    obtain ⟨m, hm⟩ := @evalTo_run d' b c.overlay c [] [] s' ho' hfits' (h.consistent_over hcons) hmode
      (hs' ▸ ledger_make d' b _ [] e')
    have hsame : evalTo d' true m [] c.request = evalTo d true m [] c.request := h.evalTo_over .refl
    exact evalTo_unique (hsame ▸ hm) hn
  · rw [run_of_mode hmode, run_of_mode hmode]

end EditorAgent.Go

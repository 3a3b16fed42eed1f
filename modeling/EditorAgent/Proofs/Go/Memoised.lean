import EditorAgent.Proofs.Go.Agreement
import Mathlib

/-!
# Memoised importing is unmemoised importing

Calls that share a tree find in it what earlier calls have recorded, often in the middle of imports of other
packages, and for other platforms and other flags. On a disk that does not change, in one environment and with
one overlay, each call still has the outcome that it has on a tree of its own, which is the one it has without
records.
-/

namespace EditorAgent.Go

open Vfs Importer

/-- A call of an importer. -/
structure Call where
  build : BuildContext
  flags : CheckFlags := {}
  overrides : Overrides := []
  view : Option View := none
  path : String
  srcDir : String
  mode : Nat := 0

namespace Call

variable {d : Disk} {b : BuildContext} {o : Overlay} {c : Call} {chain : List Link} {sites : List Site} {s : Session}

def importer (c : Call) : Importer :=
  let i := Importer.make c.build { overrides := c.overrides, flags := c.flags, sequential := true }
  match c.view with
  | some v => i.withView v
  | none => i

def overlay (c : Call) : Overlay := ⟨c.importer.overrides, c.importer.view⟩

def request (c : Call) : Request := ⟨c.build, c.flags, c.overlay, c.path, c.srcDir⟩

/-- Makes a call with packages being imported already. -/
def run (d : Disk) (c : Call) (chain : List Link) : Import :=
  { c.importer with chain }.importFrom d c.path c.srcDir c.mode

/-- Makes one call after another. -/
def runAll (d : Disk) (calls : List Call) (s : Session) : Session := calls.foldl (fun s c => (c.run d [] s).2) s

/-- A call whose context is one up to the platform, whose overlay is one, and whose paths are spelled in one way. -/
structure Fits (d : Disk) (b : BuildContext) (o : Overlay) (c : Call) : Prop where
  kin : b.Kin c.build
  overlay : c.overlay = o
  regular : Regular d c.request

theorem importer_eq (c : Call) (chain : List Link) :
    { c.importer with chain } = Importer.under c.build c.flags c.overlay chain := by
  rw [overlay, importer]
  cases c.view <;> rfl

theorem run_eq (hmode : c.mode = 0) :
    c.run d chain = importTo d (depthBound d (Importer.under c.build c.flags c.overlay chain))
      (Importer.under c.build c.flags c.overlay chain) c.path c.srcDir := by
  rw [run, importer_eq, importFrom, hmode]
  rfl

theorem run_of_mode (hmode : c.mode ≠ 0) (s : Session) : c.run d chain s = (.error (.mode c.mode), s) := by
  rw [run, importFrom, if_pos (by simpa using hmode)]
  rfl

/-- What a call does. -/
theorem agrees_run (ho : Orderly d b) (hfits : c.Fits d b o) (hmode : c.mode = 0)
    (h : Ledger d b o (chain.map Link.station) sites s.tree) :
    Agrees d b o (chain.map Link.station) c.request sites [] c.request ([] ++ chain.map Link.station)
      (fun w n => evalTo d w n (underway w [] (chain.map Link.station)) c.request)
      (c.run d chain s) (c.run d chain s) s := by
  rw [run_eq hmode]
  exact agrees_importTo ho hfits.regular (fun _ _ _ _ _ _ _ _ _ => rfl) .refl hfits.kin hfits.overlay rfl (distinct_nil d)
    (lt_depthBound d _) h

theorem ledger_run (ho : Orderly d b) (hfits : c.Fits d b o) (h : Ledger d b o [] sites s.tree) :
    ∃ sites', Ledger d b o [] sites' (c.run d [] s).2.tree := by
  by_cases hmode : c.mode = 0
  · have hrun := @agrees_run d b o c [] sites s ho hfits hmode h
    obtain ⟨sites', -, hledger⟩ := hrun.ledger
    exact ⟨sites', hledger⟩
  · rw [run_of_mode hmode]
    exact ⟨sites, h⟩

theorem ledger_runAll (ho : Orderly d b) {calls : List Call} (hcalls : ∀ c ∈ calls, c.Fits d b o)
    (h : Ledger d b o [] sites s.tree) : ∃ sites', Ledger d b o [] sites' (runAll d calls s).tree := by
  induction calls generalizing sites s with
  | nil => exact ⟨sites, h⟩
  | cons c calls ih =>
    obtain ⟨sites₁, h₁⟩ := ledger_run ho (hcalls c List.mem_cons_self) h
    exact ih (fun c' hc' => hcalls c' (List.mem_cons_of_mem _ hc')) h₁

/-- A call comes to what it comes to without records. -/
theorem evalTo_run (ho : Orderly d b) (hfits : c.Fits d b o) (hcons : Consistent d c.request) (hmode : c.mode = 0)
    (h : Ledger d b o (chain.map Link.station) sites s.tree) :
    ∃ n, evalTo d true n (chain.map Link.station) c.request = some (c.run d chain s).1 :=
  (agrees_run ho hfits hmode h).evaluates hcons .here

/-- What earlier calls have recorded does not change what a call comes to. -/
theorem run_runAll (ho : Orderly d b) {calls : List Call} (hcalls : ∀ c' ∈ calls, c'.Fits d b o) (hfits : c.Fits d b o)
    (hcons : Consistent d c.request) {s s' : Session} {e e' : Expiry} (hs : s.tree = Vfs.make e)
    (hs' : s'.tree = Vfs.make e') : (c.run d [] (runAll d calls s)).1 = (c.run d [] s').1 := by
  by_cases hmode : c.mode = 0
  · obtain ⟨sites, hledger⟩ := ledger_runAll ho hcalls (hs ▸ ledger_make d b o [] e)
    obtain ⟨n, hn⟩ := @evalTo_run d b o c [] sites _ ho hfits hcons hmode hledger
    obtain ⟨m, hm⟩ := @evalTo_run d b o c [] [] s' ho hfits hcons hmode (hs' ▸ ledger_make d b o [] e')
    exact evalTo_unique hn hm
  · rw [run_of_mode hmode, run_of_mode hmode]

end Call

/-! ## A package for another platform

The one file of the package is for the browser. Every import fails, and the first one records that. -/

namespace Elsewhere

def disk : Disk := ⟨[(["a_js.go"], ⟨.file [] none, 0⟩)]⟩

def build (goos : String) : BuildContext := ⟨"/r", [], goos, "amd64", [], false, ⟨[]⟩⟩

def call (goos : String) : Call := { build := build goos, path := ".", srcDir := "/" }

theorem orderly : Orderly disk (build "linux") where
  proper := by decide
  linkless := by decide
  goroot := by decide
  gopath := by simp [build]
  modules := by
    intro dir e data tool h
    have hlast := congrArg List.getLast? (Prod.mk.inj (List.mem_singleton.mp h)).1
    simp at hlast
  sums := by
    intro dir e data tool h
    have hlast := congrArg List.getLast? (Prod.mk.inj (List.mem_singleton.mp h)).1
    simp at hlast

theorem findPackage_disk (b : BuildContext) :
    (findPackage disk b "." "/" blankTree).1 = .ok { dir := "/", importPath := "_/" } := by
  cbv

variable {goos : String}

theorem origin_call : (call goos).request.origin = "/" := by cbv

theorem aim_disk : (call goos).request.aim disk = .site ⟨build goos, {}, {}, "_/", "/"⟩ := by
  rw [Request.aim, if_neg (by simp [call, Call.request]), if_neg (by simp [call, Call.request]),
    if_neg (by simp [call, Call.request]), origin_call]
  exact congrArg _ (findPackage_disk _)

variable (h : goos ∈ ["linux", "darwin"])

include h

theorem files_disk : sources disk (build goos) {} {} "/" = .error (.noGo "/") := by
  have hnames : disk.names (pathOf (splitPath "/")) = ["a_js.go"] := by cbv
  have hset : SourceFile.nameSet ["a_js.go"] = ["a_js.go"] := by cbv
  have hno : ∀ goos ∈ ["linux", "darwin"], (Importer.under (build goos) {} {} []).isSourceName "a_js.go" = false := by
    decide
  have hover : (Importer.under (build goos) {} {} []).overriddenNames "/" = [] := rfl
  rw [sources, sourceNames, hnames, hover, List.append_nil, hset, List.filter_cons_of_neg (by simpa using hno goos h)]
  rfl

theorem not_leads (r : Request) : ¬ Leads disk (call goos).request r := by
  rintro ⟨σ, files, s, haim, hfiles, -⟩
  rw [aim_disk] at haim
  cases haim
  cases hfiles.symm.trans (files_disk h)

theorem eq_of_reaches {r : Request} (hr : Reaches disk (call goos).request r) : r = (call goos).request := by
  rcases hr.cases_head with heq | ⟨r', hleads, -⟩
  · exact heq.symm
  · exact absurd hleads (not_leads h r')

theorem fits : (call goos).Fits disk (build "linux") {} where
  kin := rfl
  overlay := rfl
  regular := by
    have hroot : Path.Plain "/" ∧ Tame "/" ∧ ".." ∉ splitPath "/" := by decide
    have hdot : Tame "." ∧ WellFormed "." := by decide
    refine ⟨by simp [Overlay.Plain, call, Call.request, Call.overlay, Call.importer, Importer.make],
      origin_call ▸ hroot.2, fun r hr => ?_, fun r σ hr haim => ?_⟩
    · rw [eq_of_reaches h hr]
      exact hdot
    · rw [eq_of_reaches h hr, aim_disk] at haim
      cases haim
      exact ⟨hroot.1, hroot.2.1⟩

theorem consistent : Consistent disk (call goos).request := by
  rintro r r' σ σ' hr ⟨-, -, hback, -⟩
  rw [eq_of_reaches h hr] at hback
  obtain ⟨r₁, hleads, -⟩ := Relation.TransGen.head'_iff.mp hback
  exact absurd hleads (not_leads h r₁)

end Elsewhere

/-- Two imports for different platforms do not disturb a third. -/
theorem Call.run_runAll_elsewhere :
    ((Elsewhere.call "linux").run Elsewhere.disk []
        (Call.runAll Elsewhere.disk [Elsewhere.call "darwin", Elsewhere.call "linux"] default)).1 =
      ((Elsewhere.call "linux").run Elsewhere.disk [] default).1 :=
  Call.run_runAll Elsewhere.orderly (by simp [Elsewhere.fits]) (Elsewhere.fits (by simp))
    (Elsewhere.consistent (by simp)) rfl rfl

end EditorAgent.Go

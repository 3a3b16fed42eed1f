import EditorAgent.Proofs.Go.Lookup
import Mathlib

/-!
# Looking up in several contexts

Lookups that share a tree find in it what earlier ones have noted, and these may have been made with other roots and
with other settings. On a disk that does not change, a lookup has the answer that it has on a tree of its own, as
long as contexts whose roots are the same to a key are the same to a lookup, and no path that is looked at is named
like a source.
-/

namespace EditorAgent.Go

open Vfs

variable {d : Disk} {b b' : BuildContext} {e : Expiry} {ns : List String} {k : CacheKey} {x : CacheValue}

/-! ## Contexts -/

namespace BuildContext

/-- Contexts in which lookups go the same ways. -/
structure Alike (b b' : BuildContext) : Prop where
  goroot : b'.goroot = b.goroot
  gopath : b'.gopath = b.gopath
  modules : b'.env.get? "GO111MODULE" = b.env.get? "GO111MODULE"
  version : b'.goVersion? = b.goVersion?

/-- Contexts whose roots a key does not tell apart. -/
def KeyedAlike (b b' : BuildContext) : Prop :=
  Path.normal b'.goroot = Path.normal b.goroot ∧ b'.gopathText = b.gopathText

namespace Alike

theorem refl (b : BuildContext) : b.Alike b := ⟨rfl, rfl, rfl, rfl⟩

theorem liesInModule_eq (h : b.Alike b') (dir : String) : liesInModule d b' dir = liesInModule d b dir := by
  rw [liesInModule, liesInModule, outsideModules, outsideModules, h.version, h.gopath]

theorem usesModules_eq (h : b.Alike b') (dir : String) : usesModules d b' dir = usesModules d b dir := by
  rw [usesModules, usesModules, h.modules, h.liesInModule_eq]

theorem candidates_eq (h : b.Alike b') (m : ModuleRoot) (r : Requirement) (importPath sub : String) :
    m.candidates b' r importPath sub = m.candidates b r importPath sub := by
  rw [ModuleRoot.candidates, ModuleRoot.candidates, gorootSrc, gorootSrc, h.goroot, h.gopath]

theorem find_eq (h : b.Alike b') (m : ModuleRoot) (importPath : String) :
    m.find d b' importPath = m.find d b importPath := by
  rw [ModuleRoot.find, ModuleRoot.find]
  simp only [h.candidates_eq]

theorem searchModule_eq (h : b.Alike b') (dir importPath : String) :
    searchModule d b' dir importPath = searchModule d b dir importPath := by
  rw [searchModule, searchModule]
  simp only [h.find_eq]

theorem searchRoots_eq (h : b.Alike b') (importPath dir : String) :
    searchRoots d b' importPath dir = searchRoots d b importPath dir := by
  rw [searchRoots, searchRoots, gorootSrc, gorootSrc, h.goroot, h.gopath]

/-- The same things are true to note. -/
theorem noted_iff (h : b.Alike b') : Noted d b' ns k x ↔ Noted d b ns k x := by
  cases k with
  | modEnabled s => rw [noted_flag_iff, noted_flag_iff, h.liesInModule_eq]
  | find s importPath =>
    rw [noted_find_iff, noted_find_iff, h.usesModules_eq, h.searchModule_eq, h.searchRoots_eq]
  | text s => exact Iff.rfl
  | importDir goroot gopath => exact Iff.rfl
  | package p => exact Iff.rfl

end Alike

end BuildContext

/-! ## Notes -/

/-- Whether a note under a key is made in a context. -/
def CacheKey.OwnedBy (b : BuildContext) : CacheKey → Prop
  | .find s _ => s.goroot = Path.normal b.goroot ∧ s.gopath = b.gopathText
  | .modEnabled s => s.goroot = Path.normal b.goroot ∧ s.gopath = b.gopathText
  | _ => False

/-- What is noted by lookups in several contexts: what is so in each that makes notes under the key. -/
def NotedIn (d : Disk) (bs : List BuildContext) (ns : List String) (k : CacheKey) (x : CacheValue) : Prop :=
  ∀ b ∈ bs, k.OwnedBy b → Noted d b ns k x

/-- Contexts that a key tells apart if lookups do. -/
def KeyedApart (bs : List BuildContext) : Prop := ∀ b ∈ bs, ∀ b' ∈ bs, b.KeyedAlike b' → b.Alike b'

theorem notedIn_iff {bs : List BuildContext} (hbs : KeyedApart bs) (hb : b ∈ bs) (hk : k.OwnedBy b) :
    NotedIn d bs ns k x ↔ Noted d b ns k x := by
  refine ⟨fun h => h b hb hk, fun h b' hb' hk' => ?_⟩
  have halike : b.KeyedAlike b' := by
    cases k with
    | find s importPath => exact ⟨hk'.1.symm.trans hk.1, hk'.2.symm.trans hk.2⟩
    | modEnabled s => exact ⟨hk'.1.symm.trans hk.1, hk'.2.symm.trans hk.2⟩
    | text s => exact absurd hk id
    | importDir goroot gopath => exact absurd hk id
    | package p => exact absurd hk id
  exact (hbs b hb b' hb' halike).noted_iff.mpr h

theorem truthful_notedIn {bs : List BuildContext} (hbs : KeyedApart bs) (hb : b ∈ bs) : Truthful (NotedIn d bs) d b :=
  ⟨fun _ _ _ => notedIn_iff hbs hb ⟨rfl, rfl⟩, fun _ _ _ _ => notedIn_iff hbs hb ⟨rfl, rfl⟩⟩

/-! ## Lookups -/

/-- What may be asked about packages, each in a context and as seen from a directory. -/
inductive Lookup where
  | package (b : BuildContext) (importPath srcDir : String)
  | modules (b : BuildContext) (srcDir : String)

namespace Lookup

variable {l : Lookup} {ls : List Lookup} {t : Tree}

def build : Lookup → BuildContext
  | .package b _ _ => b
  | .modules b _ => b

/-- Where a package is, or whether modules are in use. -/
def run (d : Disk) : Lookup → StateM Tree (Except ImportError PackagePath ⊕ Bool)
  | .package b importPath srcDir => do return .inl (← findPackage d b importPath srcDir)
  | .modules b srcDir => do return .inr (← modEnabled d b srcDir)

/-- Makes one lookup after another. -/
def runAll (d : Disk) (ls : List Lookup) (t : Tree) : Tree := ls.foldl (fun t l => (l.run d t).2) t

/-- A lookup that looks at no path named like a source. -/
def Fits (d : Disk) : Lookup → Prop
  | .package b importPath srcDir =>
    Orderly d b ∧ (Tame srcDir ∧ ".." ∉ splitPath srcDir) ∧ Tame importPath ∧ WellFormed importPath
  | .modules b srcDir => Orderly d b ∧ Tame srcDir

theorem Fits.settled {ok : List String → CacheKey → CacheValue → Prop} (h : l.Fits d) (hok : Truthful ok d l.build) :
    Settled .full d ok (l.run d) fun _ => True := by
  cases l with
  | package b importPath srcDir =>
    obtain ⟨ho, ⟨hsrc, hup⟩, himport, hwf⟩ := h
    exact (settled_findPackage ho hok hsrc hup himport hwf).bind fun _ _ => .pure trivial
  | modules b srcDir =>
    obtain ⟨ho, hsrc⟩ := h
    exact (settled_modEnabled ho.proper.named hsrc.clean.askable fun _ _ => hok.flag_iff).bind fun _ _ => .pure trivial

theorem coherent_runAll {bs : List BuildContext} (hbs : KeyedApart bs) (hls : ∀ l ∈ ls, l.build ∈ bs ∧ l.Fits d)
    (ht : Coherent .full d (NotedIn d bs) t) : Coherent .full d (NotedIn d bs) (runAll d ls t) := by
  induction ls generalizing t with
  | nil => exact ht
  | cons l ls ih =>
    obtain ⟨hmem, hfits⟩ := hls l List.mem_cons_self
    have hstep := (hfits.settled (truthful_notedIn hbs hmem)).answer.2 t ht
    exact ih (fun l' hl' => hls l' (List.mem_cons_of_mem _ hl')) hstep.1

/-- What was looked up before, in whichever contexts, does not change the answer of a lookup. -/
theorem answer_runAll (hfits : ∀ l' ∈ l :: ls, l'.Fits d) (hbs : KeyedApart ((l :: ls).map build)) (e e' : Expiry) :
    (l.run d (runAll d ls (Vfs.make e))).1 = (l.run d (Vfs.make e')).1 := by
  have hmem : ∀ l' ∈ l :: ls, l'.build ∈ (l :: ls).map build := fun l' hl' => List.mem_map_of_mem hl'
  have hls : ∀ l' ∈ ls, l'.build ∈ (l :: ls).map build ∧ l'.Fits d := fun l' hl' =>
    ⟨hmem l' (List.mem_cons_of_mem _ hl'), hfits l' (List.mem_cons_of_mem _ hl')⟩
  have hanswer := ((hfits l List.mem_cons_self).settled (truthful_notedIn hbs (hmem l List.mem_cons_self))).answer.2
  have hshared := hanswer _ (coherent_runAll hbs hls (coherent_make _ d _ e))
  have hown := hanswer _ (coherent_make _ d _ e')
  exact hshared.2.2.trans hown.2.2.symm

end Lookup

/-! ## Two roots

Both roots have a directory for the package. Under one root there are modules, under the other there are none. -/

namespace TwoRoots

def disk : Disk := ⟨[
  (["r"], ⟨.dir, 0⟩), (["r", "src"], ⟨.dir, 0⟩), (["r", "src", "a"], ⟨.dir, 0⟩),
  (["s"], ⟨.dir, 0⟩), (["s", "src"], ⟨.dir, 0⟩), (["s", "src", "a"], ⟨.dir, 0⟩)]⟩

def context (goroot modules : String) : BuildContext :=
  ⟨goroot, [], "linux", "amd64", [], false, ⟨[("GO111MODULE", modules)]⟩⟩

def lookup (goroot modules : String) : Lookup := .package (context goroot modules) "a" "/"

theorem item_eq {ns : List String} {e : DiskEntry} (h : (ns, e) ∈ disk.entries) : e.item = .dir := by
  have hall : ∀ x ∈ disk.entries, x.2.item = .dir := by simp [disk]
  exact hall _ h

theorem orderly {goroot modules : String} (h : Tame goroot) : Orderly disk (context goroot modules) where
  proper := by decide
  linkless := by decide
  goroot := h
  gopath := by simp [context]
  modules := by
    intro dir e data tool hmem hfile
    cases (item_eq hmem).symm.trans hfile
  sums := by
    intro dir e data tool hmem hfile
    cases (item_eq hmem).symm.trans hfile

theorem fits {goroot modules : String} (h : Tame goroot) : (lookup goroot modules).Fits disk :=
  ⟨orderly h, by decide, by decide, by decide⟩

theorem keyedApart : KeyedApart [context "/r" "on", context "/s" "off"] := by
  have hne : Path.normal "/s" ≠ Path.normal "/r" := by decide
  intro b hb b' hb' h
  have hgoroot := h.1
  simp only [List.mem_cons, List.not_mem_nil, or_false] at hb hb'
  rcases hb with rfl | rfl <;> rcases hb' with rfl | rfl
  · exact .refl _
  · exact absurd hgoroot hne
  · exact absurd hgoroot.symm hne
  · exact .refl _

end TwoRoots

open TwoRoots in
theorem Lookup.answer_runAll_twoRoots :
    (∀ l ∈ [lookup "/r" "on", lookup "/s" "off"], l.Fits disk) ∧
      KeyedApart ([lookup "/r" "on", lookup "/s" "off"].map Lookup.build) ∧
        ((lookup "/r" "on").run disk (Lookup.runAll disk [lookup "/s" "off"] (Vfs.make .never))).1 =
          ((lookup "/r" "on").run disk (Vfs.make .never)).1 := by
  have hfits : ∀ l ∈ [lookup "/r" "on", lookup "/s" "off"], l.Fits disk := by
    simpa using ⟨fits (by decide), fits (by decide)⟩
  exact ⟨hfits, keyedApart, Lookup.answer_runAll hfits keyedApart .never .never⟩

end EditorAgent.Go

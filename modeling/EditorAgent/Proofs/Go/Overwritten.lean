import EditorAgent.Proofs.Go.TwoDisks
import Mathlib

/-!
# Importing with sources in front of the disk

The sources that an importer is handed stand in front of the disk when a directory is listed and when its files
are read, but not when packages are looked for. An import with them has the outcome that it has once they are
written to the disk, wherever packages are found at the same places then.
-/

namespace EditorAgent.Go

open Vfs Importer Relation

variable {d d' : Disk} {b : BuildContext} {flags : CheckFlags} {o : Overlay} {dir name path : String}

/-- A disk to which sources were written. -/
structure Overwritten (d : Disk) (o : Overrides) (d' : Disk) : Prop where
  written : ∀ e ∈ o, d'.read e.1 = .ok e.2
  kept : ∀ ns, (∀ e ∈ o, splitPath e.1 ≠ ns) → (d'.get? ns).map (·.item) = (d.get? ns).map (·.item)

/-- An overlay whose buffer is among its replacements. -/
def Overlay.Loaded (o : Overlay) : Prop := ∀ path, Path.Plain path → o.source? path = o.overrides.get? path

/-! ## The sources of a directory -/

theorem exists_of_get? {o : Overrides} (ho : ∀ e ∈ o, Path.Plain e.1) (hpath : Path.Plain path) {src : Bytes}
    (h : o.get? path = some src) : (path, src) ∈ o := by
  obtain ⟨e, he, rfl⟩ := Option.map_eq_some_iff.mp h
  have hmem := List.mem_of_find?_eq_some he
  rw [← ((ho e hmem).same_iff hpath).mp (by simpa using List.find?_some he)]
  exact hmem

theorem ne_of_get?_eq_none {o : Overrides} (h : o.get? path = none) : ∀ e ∈ o, e.1 ≠ path := by
  rintro e he rfl
  rw [Overrides.get?, Option.map_eq_none_iff, List.find?_eq_none] at h
  exact h e he (by simp [Path.same])

theorem contents_of_source? {src : Bytes} (h : o.source? path = some src) : contents d o path = .ok src := by
  rw [contents, h]

theorem contents_of_plain (hpath : Path.Plain path) (h : o.source? path = none) :
    contents d o path = (d.read path).mapError .ofDisk := by
  rw [contents, h, ← hpath.1]
  cases d.read path <;> rfl

theorem source?_bare (path : String) : ({} : Overlay).source? path = none := rfl

theorem exists_entry_of_read {src : Bytes} (h : d.read path = .ok src) : ∃ e, d.entry path = .ok e := by
  rw [Disk.read] at h
  cases he : d.entry path with
  | ok e => exact ⟨e, rfl⟩
  | error e =>
    rw [he] at h
    cases h

theorem mapM_congr_of_mem {α β : Type} {f g : α → Except ImportError β} {xs : List α} (h : ∀ x ∈ xs, f x = g x) :
    xs.mapM f = xs.mapM g := by
  induction xs with
  | nil => rfl
  | cons x xs ih =>
    rw [List.mapM_cons, List.mapM_cons, h x List.mem_cons_self, ih fun y hy => h y (List.mem_cons_of_mem _ hy)]

section Directory

variable (hlink : d.Linkless) (hlink' : d'.Linkless) (hw : Overwritten d o.overrides d') (ho : o.Plain)
  (hdir : Path.Plain dir) (his : IsDir d dir) (his' : IsDir d' dir)

include hlink hlink' hw ho hdir his his'

theorem Overlay.Loaded.contents_eq (h : o.Loaded) (hname : IsName name) (hup : name ≠ "..") :
    contents d' {} (Path.join dir name) = contents d o (Path.join dir name) := by
  have hns : ∀ s ∈ splitPath dir, IsName s := fun s hs => isName_of_mem_splitPath hs
  have hjoin : Path.join dir name = pathOf (splitPath dir ++ [name]) := by
    conv_lhs => rw [hdir.1]
    exact Path.join_pathOf hns hname
  have hall : ∀ s ∈ splitPath dir ++ [name], IsName s := by simpa [or_imp, forall_and] using ⟨hns, hname⟩
  have hplain : Path.Plain (pathOf (splitPath dir ++ [name])) :=
    Path.plain_pathOf hall (by simpa [Ne.symm hup] using hdir.2)
  rw [hjoin, contents_of_plain hplain (source?_bare _)]
  cases hget : o.overrides.get? (pathOf (splitPath dir ++ [name])) with
  | some src =>
    rw [contents_of_source? ((h _ hplain).trans hget), hw.written _ (exists_of_get? ho hplain hget)]
    rfl
  | none =>
    have hkept := hw.kept (splitPath dir ++ [name]) fun e he heq =>
      ne_of_get?_eq_none hget e he (by rw [(ho e he).1, heq])
    rw [contents_of_plain hplain ((h _ hplain).trans hget), hlink'.read_concat hns hdir.2 his' hname hup, hkept,
      hlink.read_concat hns hdir.2 his hname hup]

theorem mem_names_overwritten :
    name ∈ d'.names (pathOf (splitPath dir)) ↔
      name ∈ d.names (pathOf (splitPath dir)) ∨ name ∈ (Importer.under b flags o []).overriddenNames dir := by
  have hns : ∀ s ∈ splitPath dir, IsName s := fun s hs => isName_of_mem_splitPath hs
  rw [hlink'.mem_names_iff hns hdir.2 his', hlink.mem_names_iff hns hdir.2 his, ho.mem_overriddenNames hdir]
  by_cases hover : ∃ e ∈ o.overrides, splitPath e.1 = splitPath dir ++ [name]
  · obtain ⟨e, he, hsplit⟩ := hover
    have hplain := ho e he
    obtain ⟨x, hx⟩ := exists_entry_of_read (hw.written e he)
    rw [hplain.1] at hx
    have hget := hlink'.get?_of_entry (fun s hs => isName_of_mem_splitPath hs) hplain.2 hx
    rw [hsplit] at hget
    exact ⟨fun _ => .inr ⟨e, he, hsplit⟩, fun _ => by simp [hget]⟩
  · have hkept := hw.kept (splitPath dir ++ [name]) fun e he heq => hover ⟨e, he, heq⟩
    have hsome := congrArg Option.isSome hkept
    rw [Option.isSome_map, Option.isSome_map] at hsome
    rw [hsome, or_iff_left hover]

/-- With its overlay a directory has the sources that it has once they are written. -/
theorem Overlay.Loaded.sources_eq (h : o.Loaded) (hproper : d.Proper) :
    sources d' b flags {} dir = sources d b flags o dir := by
  have hnames : sourceNames d' b flags {} dir = sourceNames d b flags o dir := by
    refine SourceFile.filter_nameSet_eq fun s _ => ?_
    rw [List.mem_append, mem_names_overwritten hlink hlink' hw ho hdir his his', List.mem_append]
    exact or_iff_left List.not_mem_nil
  have hfiles : (sourceNames d b flags o dir).mapM (fun n => readFile d' b flags {} (Path.join dir n)) =
      (sourceNames d b flags o dir).mapM fun n => readFile d b flags o (Path.join dir n) := by
    refine mapM_congr_of_mem fun n hn => ?_
    have hname : IsName n ∧ n ≠ ".." := by
      rcases List.mem_append.mp (((SourceFile.nameSet_spec _).2 n).mp (List.mem_filter.mp hn).1) with hmem | hmem
      · exact hproper.of_mem_names hmem
      · obtain ⟨e, he, hsplit⟩ := (ho.mem_overriddenNames hdir).mp hmem
        have hlast : n ∈ splitPath e.1 := by simp [hsplit]
        exact ⟨isName_of_mem_splitPath hlast, fun heq => (ho e he).2 (heq ▸ hlast)⟩
    rw [readFile, readFile, h.contents_eq hlink hlink' hw ho hdir his his' hname.1 hname.2]
  rw [sources, sources, hnames, hfiles]

end Directory

/-! ## Imports -/

/-- A request with nothing in front of the disk. -/
def Request.bare (r : Request) : Request := { r with overlay := {} }

/-- A disk that holds the overlay of a request, and on which the request and all it leads to find the same
packages and the same export data. -/
structure Mirrors (d : Disk) (b : BuildContext) (root : Request) (d' : Disk) : Prop where
  orderly : Orderly d b
  orderly' : Orderly d' b
  kin : b.Kin root.build
  regular : Regular d root
  loaded : root.overlay.Loaded
  overwritten : Overwritten d root.overlay.overrides d'
  found : ∀ r, Reaches d root r →
    (findPackage d' r.build r.path r.origin blankTree).1 = (findPackage d r.build r.path r.origin blankTree).1
  exported : ∀ r σ imports, Reaches d root r → r.aim d = .site σ → σ.exported? d' imports = σ.exported? d imports

namespace Mirrors

variable {root r : Request} {watch : Bool} {n : Nat} {t : Trail} (h : Mirrors d b root d')

include h

/-- With nothing in front of the disk the request finds and reads the same on the disk that holds the overlay. -/
theorem alike : Alike d root d' fun _ => {} := by
  refine ⟨h.found, fun r σ hr haim => ?_, h.exported⟩
  have hregular := h.regular.reaches hr
  have hkin := kin_of_reaches h.kin hr
  have hover : σ.overlay = root.overlay := (overlay_eq_of_aim haim).trans (overlay_eq_of_reaches hr)
  obtain ⟨p, hfound, hp⟩ := exists_of_aim haim
  have hdir : p.dir = σ.dir := by
    cases hp
    rfl
  have his := isDir_of_found h.orderly hkin hregular hfound
  have his' := isDir_of_found h.orderly' hkin hregular ((h.found r hr).trans hfound)
  rw [hdir] at his his'
  exact (hover ▸ h.loaded).sources_eq h.orderly.linkless h.orderly'.linkless (hover ▸ h.overwritten)
    (hover ▸ h.regular.overlay) (h.regular.dirs r σ hr haim).1 his his' h.orderly.proper

theorem evalTo_bare (hr : Reaches d root r) : evalTo d' watch n t r.bare = evalTo d watch n t r :=
  h.alike.evalTo_over hr

theorem regular_bare : Regular d' root.bare := h.alike.regular_over h.regular (by simp [Overlay.Plain])

theorem consistent_bare (hcons : Consistent d root) : Consistent d' root.bare := h.alike.consistent_over hcons

end Mirrors

namespace Call

/-- A call with nothing in front of the disk. -/
def bare (c : Call) : Call := { c with overrides := [], view := none }

end Call

/-! ## A replaced file

The directory has one file, for the browser, and it is replaced. -/

namespace Replaced

def disk (data : Bytes) : Disk := ⟨[(["a_js.go"], ⟨.file data none, 0⟩)]⟩

def build : BuildContext := ⟨"/r", [], "linux", "amd64", [], false, ⟨[]⟩⟩

def call : Call := { build := build, path := ".", srcDir := "/", overrides := [("/a_js.go", [0x61])] }

theorem orderly {data : Bytes} (h : data ∈ [[], [0x61]]) : Orderly (disk data) build where
  proper := by
    have hall : ∀ data ∈ ([[], [0x61]] : List Bytes), (disk data).Proper := by decide
    exact hall data h
  linkless := by
    have hall : ∀ data ∈ ([[], [0x61]] : List Bytes), (disk data).Linkless := by decide
    exact hall data h
  goroot := by decide
  gopath := by simp [build]
  modules := by
    intro dir e data tool h
    have hlast := congrArg List.getLast? (Prod.mk.inj (List.mem_singleton.mp h)).1
    simp at hlast
  sums := by
    intro dir e data tool h
    have hlast := congrArg List.getLast? (Prod.mk.inj (List.mem_singleton.mp h)).1
    simp at hlast

theorem findPackage_disk (data : Bytes) :
    (findPackage (disk data) build "." "/" blankTree).1 = .ok { dir := "/", importPath := "_/" } := by
  cbv

theorem origin_call : call.request.origin = "/" := by cbv

theorem aim_disk (data : Bytes) : call.request.aim (disk data) = .site ⟨build, {}, call.overlay, "_/", "/"⟩ := by
  rw [Request.aim, if_neg (by simp [call, Call.request]), if_neg (by simp [call, Call.request]),
    if_neg (by simp [call, Call.request]), origin_call]
  exact congrArg _ (findPackage_disk data)

theorem files_disk (data : Bytes) : sources (disk data) build {} call.overlay "/" = .error (.noGo "/") := by
  have hnames : (disk data).names (pathOf (splitPath "/")) = ["a_js.go"] := by cbv
  have hset : SourceFile.nameSet ["a_js.go", "a_js.go"] = ["a_js.go"] := by cbv
  have hno : (Importer.under build {} call.overlay []).isSourceName "a_js.go" = false := by decide
  have hover : (Importer.under build {} call.overlay []).overriddenNames "/" = ["a_js.go"] := by cbv
  rw [sources, sourceNames, hnames, hover, List.cons_append, List.nil_append, hset,
    List.filter_cons_of_neg (by simpa using hno)]
  rfl

theorem not_leads (data : Bytes) (r : Request) : ¬ Leads (disk data) call.request r := by
  rintro ⟨σ, files, s, haim, hfiles, -⟩
  rw [aim_disk] at haim
  cases haim
  cases hfiles.symm.trans (files_disk data)

theorem eq_of_reaches {data : Bytes} {r : Request} (hr : Reaches (disk data) call.request r) : r = call.request := by
  rcases hr.cases_head with heq | ⟨r', hleads, -⟩
  · exact heq.symm
  · exact absurd hleads (not_leads data r')

theorem regular : Regular (disk []) call.request := by
  have hroot : Path.Plain "/" ∧ Tame "/" ∧ ".." ∉ splitPath "/" := by decide
  have hdot : Tame "." ∧ WellFormed "." := by decide
  have hover : ∀ e ∈ call.overlay.overrides, Path.Plain e.1 := by decide
  refine ⟨hover, origin_call ▸ hroot.2, fun r hr => ?_, fun r σ hr haim => ?_⟩
  · rw [eq_of_reaches hr]
    exact hdot
  · rw [eq_of_reaches hr, aim_disk] at haim
    cases haim
    exact ⟨hroot.1, hroot.2.1⟩

theorem consistent : Consistent (disk []) call.request := by
  rintro r r' σ σ' hr ⟨-, -, hback, -⟩
  rw [eq_of_reaches hr] at hback
  obtain ⟨r₁, hleads, -⟩ := Relation.TransGen.head'_iff.mp hback
  exact absurd hleads (not_leads _ r₁)

theorem read_disk : (disk [0x61]).read "/a_js.go" = .ok [0x61] := by
  have hsteps : Disk.steps "/a_js.go" = ["a_js.go"] := by decide
  have hlocate : (disk [0x61]).locate "/a_js.go" true = .ok ["a_js.go"] := by
    rw [Disk.locate, if_neg (by decide), if_neg (by decide), if_neg (by decide), hsteps, Disk.follow]
    simp [Disk.get?, disk, Disk.maxName, Disk.follow]
    decide
  rw [Disk.read, Disk.entry, hlocate]
  rfl

theorem no_tool {data content : Bytes} {path : String} {tool : Option Tool} {modified : Int}
    (h : (disk data).entry path = .ok ⟨.file content tool, modified⟩) : tool = none := by
  rw [Disk.entry] at h
  split at h
  · cases h
  · split at h
    · rename_i hget
      cases h
      rw [Disk.get?] at hget
      split at hget
      · cases hget
      · rw [disk, List.find?_singleton] at hget
        split at hget
        · cases hget
          rfl
        · cases hget
    · cases h

theorem goTool?_disk (data : Bytes) : goTool? (disk data) build = none := by
  rw [goTool?]
  dsimp only
  split
  · split
    · exact no_tool ‹_›
    · rfl
  · refine List.findSome?_eq_none_iff.mpr fun dir _ => ?_
    split
    · exact no_tool ‹_›
    · rfl

theorem exported?_disk (data : Bytes) (imports : List (String × Package)) :
    Site.exported? (disk data) ⟨build, {}, call.overlay, "_/", "/"⟩ imports = none := by
  have harchive : (Importer.under build {} call.overlay []).exportArchive? (disk data) "/" = none := by
    have htool : goTool? (disk data) (Importer.under build {} call.overlay []).build = none := goTool?_disk data
    rw [exportArchive?, htool]
    rfl
  rw [Site.exported?, readExport, harchive]
  rfl

theorem overwritten : Overwritten (disk []) call.overlay.overrides (disk [0x61]) where
  written := by
    intro e he
    obtain rfl : e = ("/a_js.go", [0x61]) := List.mem_singleton.mp he
    exact read_disk
  kept ns h := by
    have hsplit : splitPath "/a_js.go" = ["a_js.go"] := by cbv
    have hne : ["a_js.go"] ≠ ns := hsplit ▸ h ("/a_js.go", [0x61]) List.mem_cons_self
    simp [Disk.get?, disk, hne]

theorem mirrors : Mirrors (disk []) build call.request (disk [0x61]) where
  orderly := orderly (by decide)
  orderly' := orderly (by decide)
  kin := rfl
  regular := regular
  loaded _ _ := rfl
  overwritten := overwritten
  found r hr := by
    rw [eq_of_reaches hr, origin_call]
    exact (findPackage_disk _).trans (findPackage_disk _).symm
  exported r σ imports hr haim := by
    rw [eq_of_reaches hr, aim_disk] at haim
    cases haim
    exact (exported?_disk _ imports).trans (exported?_disk _ imports).symm

end Replaced

end EditorAgent.Go

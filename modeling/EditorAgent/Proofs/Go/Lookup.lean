import EditorAgent.Proofs.Disk.Linkless
import EditorAgent.Proofs.Go.Requirements

/-!
# Finding packages on a disk that does not change

Where a package is found depends on the disk and the settings alone, not on what the tree was asked before,
as long as no path that is looked at has the name of a source in it. What is found is a directory.
-/

namespace EditorAgent.Go

open Vfs

variable {d : Disk} {b : BuildContext} {ok : List String → CacheKey → CacheValue → Prop}

theorem Searchable.of_tame {dir : String} (h : Tame dir) : Searchable .full d dir := ⟨h.askable, fun _ _ => trivial⟩

/-! ## Names of one sort -/

/-- A path all of whose names are of one sort. -/
def Consists (P : String → Prop) (path : String) : Prop := ∀ s ∈ splitPath path, P s

instance (P : String → Prop) [DecidablePred P] (path : String) : Decidable (Consists P path) :=
  inferInstanceAs (Decidable (∀ s ∈ _, P s))

namespace Consists

variable {P : String → Prop} {p q : String}

theorem of_subset (h : Consists P p) (hq : ∀ s ∈ splitPath q, s ∈ splitPath p) : Consists P q :=
  fun s hs => h s (hq s hs)

theorem join (hp : Consists P p) (hq : Consists P q) : Consists P (Path.join p q) :=
  fun s hs => (mem_splitPath_join hs).elim (hp s) (hq s)

theorem clean (h : Consists P p) : Consists P (Path.clean p) := h.of_subset fun _ => mem_splitPath_clean

theorem ancestor (h : Consists P p) (hq : q ∈ Path.ancestors p) : Consists P q :=
  h.of_subset fun _ => mem_splitPath_ancestors hq

theorem of_isName {s : String} (hs : IsName s) (h : P s) : Consists P s := by
  intro t ht
  rw [splitPath_of_isName hs, List.mem_singleton] at ht
  exact ht ▸ h

end Consists

/-- A requirement that leads to paths whose names are of one sort. -/
def Requirement.Consists (P : String → Prop) (r : Requirement) : Prop :=
  match r.dir with
  | some dir => Go.Consists P dir
  | none => Go.Consists P (cacheName r.path r.version)

/-- A module file in a directory, that leads to paths whose names are of one sort. -/
structure ModFile.Consists (P : String → Prop) (dir : String) (m : ModFile) : Prop where
  require : ∀ r ∈ m.require, Go.Consists P (cacheName r.path r.version)
  replace : ∀ r ∈ m.replace, Go.Consists P (Path.clean (Path.join dir r.newPath)) ∧
    Go.Consists P (cacheName r.newPath (r.newVersion.getD ""))

/-- Settings whose paths, and those below them, have names of one sort. -/
structure BuildContext.Consists (P : String → Prop) (b : BuildContext) : Prop where
  goroot : Go.Consists P b.goroot
  gopath : ∀ p ∈ b.gopath, Go.Consists P p
  src : P "src"
  vendor : P "vendor"

namespace ModuleRoot

variable {P : String → Prop}

/-- Requirements that lead to paths whose names are of one sort. -/
def AllConsist (P : String → Prop) (rs : List (String × Requirement)) : Prop := ∀ x ∈ rs, x.2.Consists P

theorem AllConsist.set {rs : List (String × Requirement)} {path : String} {r : Requirement} (hrs : AllConsist P rs)
    (hr : r.Consists P) : AllConsist P (ModuleRoot.set rs path r) := by
  intro x hx
  rcases List.mem_cons.mp hx with rfl | hx
  · exact hr
  · exact hrs x (List.mem_filter.mp hx).1

theorem consists_replacement {dir : String} {r : Replace} (hlocal : Consists P (Path.clean (Path.join dir r.newPath)))
    (hcache : Consists P (cacheName r.newPath (r.newVersion.getD ""))) : (replacement d dir r).Consists P := by
  rw [replacement]
  split
  · exact hlocal
  · exact hcache

theorem AllConsist.addSums {rs : List (String × Requirement)} (hrs : AllConsist P rs) {sums : List Require}
    (h : ∀ r ∈ sums, Consists P (cacheName r.path r.version)) : AllConsist P (ModuleRoot.addSums rs sums) := by
  refine List.foldlRecOn (motive := AllConsist P) _ _ hrs fun rs hrs r hr => ?_
  split
  · exact hrs
  · intro x hx
    rcases List.mem_append.mp hx with hx | hx
    · exact hrs x hx
    · obtain rfl := List.mem_singleton.mp hx
      exact h r hr

theorem allConsist_requirementList {dir : String} (hdir : Consists P dir) {m : ModFile} (hm : m.Consists P dir)
    {sums : List Require} (hsums : ∀ r ∈ sums, Consists P (cacheName r.path r.version)) :
    AllConsist P (requirementList d dir m sums) := by
  have hrequire : AllConsist P (m.require.foldl
      (fun rs r => ModuleRoot.set rs r.path { path := r.path, version := r.version }) []) :=
    List.foldlRecOn (motive := AllConsist P) _ _ (by simp [AllConsist]) fun rs hrs r hr => hrs.set (hm.require r hr)
  have hreplace := List.foldlRecOn (motive := AllConsist P) m.replace
    (fun rs r => ModuleRoot.set rs r.oldPath (replacement d dir r)) hrequire
    fun rs hrs r hr => hrs.set (consists_replacement (hm.replace r hr).1 (hm.replace r hr).2)
  have hown : Requirement.Consists P { dir := some dir, path := m.module } := hdir
  exact AllConsist.addSums (hreplace.set hown) hsums

theorem consists_of_covering? {m : ModuleRoot} {importPath matched sub : String} {r : Requirement}
    (hm : AllConsist P m.requirements) (himport : Consists P importPath)
    (h : m.covering? importPath = some (r, matched, sub)) : r.Consists P ∧ Consists P sub := by
  obtain ⟨hr, t, rfl, ht, rfl⟩ := of_covering? h
  obtain ⟨x, hx, rfl⟩ := Option.map_eq_some_iff.mp hr
  refine ⟨hm x (List.mem_of_find?_eq_some hx), himport.of_subset fun s hs => ?_⟩
  rw [splitPath_dropWhile, String.ofList_toList] at hs
  rw [splitPath_append ht]
  exact List.mem_append_right _ hs

theorem consists_of_mem_candidates {m : ModuleRoot} {r : Requirement} {importPath sub : String}
    (hb : b.Consists P) (hm : Consists P m.dir) (himport : Consists P importPath) (hsub : Consists P sub)
    (hr : r.Consists P) (hdir : r.dir = none) : ∀ dir ∈ candidates b m r importPath sub, Consists P dir := by
  have hgoroot : Consists P b.gorootSrc := hb.goroot.join (.of_isName (by decide) hb.src)
  have hvendor : Consists P "vendor" := .of_isName (by decide) hb.vendor
  have hcache : Consists P (cacheName r.path r.version) := by
    simpa [Requirement.Consists, hdir] using hr
  have hown : Consists P (Path.clean (Path.join (Path.join m.dir "vendor") importPath)) :=
    ((hm.join hvendor).join himport).clean
  have hstd : Consists P (Path.clean (Path.join (Path.join b.gorootSrc "vendor") importPath)) :=
    ((hgoroot.join hvendor).join himport).clean
  have hcached : ∀ gp ∈ b.gopath, Consists P (Path.clean (Path.join (Path.join gp (cacheName r.path r.version)) sub)) :=
    fun gp hgp => (((hb.gopath gp hgp).join hcache).join hsub).clean
  have houter : ∀ roots, ∀ dir ∈ m.outerVendors roots, Consists P (Path.clean (Path.join dir importPath)) := by
    intro roots dir hd
    obtain ⟨p, hp, rfl⟩ := List.mem_map.mp hd
    exact (((hm.ancestor ((List.takeWhile_sublist _).subset hp)).join hvendor).join himport).clean
  rw [candidates]
  simp only
  split
  all_goals simp only [List.forall_mem_append, List.forall_mem_singleton, List.forall_mem_map]
  · exact ⟨⟨⟨hown, hcached⟩, houter _⟩, hstd⟩
  · exact ⟨⟨⟨hstd, hown⟩, hcached⟩, houter _⟩

theorem consists_of_mem_places {m : ModuleRoot} {importPath matched sub : String} {r : Requirement}
    (hb : b.Consists P) (hm : Consists P m.dir) (hreq : AllConsist P m.requirements) (himport : Consists P importPath)
    (h : m.covering? importPath = some (r, matched, sub)) : ∀ dir ∈ places b m r importPath sub, Consists P dir := by
  obtain ⟨hr, hsub⟩ := consists_of_covering? hreq himport h
  rw [places]
  split
  · next dir hdir =>
    have hown : Consists P dir := by simpa [Requirement.Consists, hdir] using hr
    simpa using (hown.join hsub).clean
  · next hdir => exact consists_of_mem_candidates hb hm himport hsub hr hdir

end ModuleRoot

theorem consists_of_mem_vendored {P : String → Prop} (roots : List String) {importPath dir : String}
    (hvendor : P "vendor") (hdir : Consists P dir) (himport : Consists P importPath) :
    ∀ x ∈ vendored roots importPath dir, Consists P x.1 ∧ x.2.dir = x.1 := by
  rw [vendored]
  split
  · simp
  · intro x hx
    obtain ⟨q, hq, rfl⟩ := List.mem_map.mp hx
    have hq' : Consists P q := by
      rcases List.mem_cons.mp ((List.takeWhile_sublist _).subset hq) with rfl | hq
      · exact hdir
      · exact hdir.ancestor hq
    exact ⟨(hq'.join (.of_isName (by decide) hvendor)).join himport, rfl⟩

theorem consists_of_mem_rooted {P : String → Prop} {roots : List String} {importPath : String}
    (hroots : ∀ r ∈ roots, Consists P r) (himport : Consists P importPath) :
    ∀ x ∈ rooted roots importPath, Consists P x.1 ∧ x.2.dir = x.1 := by
  cases roots with
  | nil => simp [rooted]
  | cons std others =>
    intro x hx
    rcases List.mem_cons.mp hx with rfl | hx
    · exact ⟨(hroots std List.mem_cons_self).join himport, rfl⟩
    · obtain ⟨r, hr, rfl⟩ := List.mem_map.mp hx
      exact ⟨(hroots r (List.mem_cons_of_mem _ hr)).join himport, rfl⟩

theorem BuildContext.Consists.roots {P : String → Prop} (hb : b.Consists P) :
    ∀ r ∈ b.gorootSrc :: b.gopath.map (Path.join · "src"), Go.Consists P r := by
  have hsrc : Go.Consists P "src" := .of_isName (by decide) hb.src
  intro r hr
  rcases List.mem_cons.mp hr with rfl | hr
  · exact hb.goroot.join hsrc
  · obtain ⟨p, hp, rfl⟩ := List.mem_map.mp hr
    exact (hb.gopath p hp).join hsrc

/-! ## Module files -/

/-- A module file that leads to no directory named like a source. -/
structure ModFile.Tame (m : ModFile) : Prop where
  require : ∀ r ∈ m.require, Vfs.Tame (cacheName r.path r.version)
  replace : ∀ r ∈ m.replace, Vfs.Tame r.newPath ∧ Vfs.Tame (cacheName r.newPath (r.newVersion.getD ""))

/-- A disk and settings under which no package is looked for at a place named like a source. -/
structure Orderly (d : Disk) (b : BuildContext) : Prop where
  proper : d.Proper
  linkless : d.Linkless
  goroot : Vfs.Tame b.goroot
  gopath : ∀ p ∈ b.gopath, Vfs.Tame p
  modules : ∀ dir e data tool, (dir ++ ["go.mod"], e) ∈ d.entries → e.item = .file data tool →
    ∀ m, ModFile.parse (Utf8.lossy data) = .ok m → m.Tame
  sums : ∀ dir e data tool, (dir ++ ["go.sum"], e) ∈ d.entries → e.item = .file data tool →
    ∀ r ∈ parseSum (Utf8.lossy data), Vfs.Tame (cacheName r.path r.version)

theorem Orderly.consists (ho : Orderly d b) : b.Consists (isSourceFile · = false) :=
  ⟨ho.goroot, ho.gopath, by decide, by decide⟩

/-! ## Modules -/

/-- A requirement that leads to no directory named like a source. -/
def Requirement.Tame (r : Requirement) : Prop :=
  match r.dir with
  | some dir => Vfs.Tame dir
  | none => Vfs.Tame (cacheName r.path r.version)

/-- Requirements that lead to no directory named like a source. -/
def AllTame (rs : List (String × Requirement)) : Prop := ∀ x ∈ rs, x.2.Tame

theorem entry_of_read {path : String} {data : Bytes} (h : d.read path = .ok data) :
    (∃ e tool, d.entry path = .ok e ∧ e.item = .file data tool) ∨ data = [] := by
  rw [Disk.read] at h
  split at h
  · cases h
  · next tool modified he =>
    cases h
    exact .inl ⟨_, tool, he, rfl⟩
  · cases h
  · cases h
    exact .inr rfl

/-- What is read at a plain path is the data of a file that stands there, or nothing. -/
theorem mem_entries_of_read (hlink : d.Linkless) {ns : List String} (hns : ∀ s ∈ ns, IsName s) (hup : ".." ∉ ns)
    {name : String} (hname : IsName name) (hne : name ≠ "..") {data : Bytes}
    (h : d.read (pathOf (ns ++ [name])) = .ok data) :
    (∃ e tool, (ns ++ [name], e) ∈ d.entries ∧ e.item = .file data tool) ∨ data = [] := by
  refine (entry_of_read h).imp_left ?_
  rintro ⟨e, tool, he, hitem⟩
  have hget : d.get? (ns ++ [name]) = some e := hlink.get?_of_entry
    (List.forall_mem_append.mpr ⟨hns, List.forall_mem_singleton.mpr hname⟩) (by simpa [Ne.symm hne] using hup) he
  exact ⟨e, tool, Disk.mem_entries_of_get? hget (by simp), hitem⟩

theorem lossy_nil : Utf8.lossy [] = "" := by
  rw [Utf8.lossy, Utf8.lossyChars]
  rfl

/-- The versions in a `go.sum` are those of a file. -/
theorem mem_entries_of_mem_sumsAt (hlink : d.Linkless) {ns : List String} (hns : ∀ s ∈ ns, IsName s) (hup : ".." ∉ ns)
    {r : Require} (hr : r ∈ sumsAt d ns) :
    ∃ e data tool, (ns ++ ["go.sum"], e) ∈ d.entries ∧ e.item = .file data tool ∧ r ∈ parseSum (Utf8.lossy data) := by
  rw [sumsAt] at hr
  split at hr
  · next data h =>
    rcases mem_entries_of_read hlink hns hup (by decide) (by decide) h with ⟨e, tool, he, hitem⟩ | rfl
    · exact ⟨e, data, tool, he, hitem, hr⟩
    · have hnil : parseSum (Utf8.lossy []) = [] := by
        rw [lossy_nil]
        decide
      rw [hnil] at hr
      cases hr
  · cases hr

/-- A module file that can be parsed is a file. -/
theorem mem_entries_of_parse (hlink : d.Linkless) {ns : List String} (hns : ∀ s ∈ ns, IsName s) (hup : ".." ∉ ns)
    {data : Bytes} (h : d.read (pathOf (ns ++ ["go.mod"])) = .ok data) {m : ModFile}
    (hm : ModFile.parse (Utf8.lossy data) = .ok m) :
    ∃ e tool, (ns ++ ["go.mod"], e) ∈ d.entries ∧ e.item = .file data tool := by
  rcases mem_entries_of_read hlink hns hup (by decide) (by decide) h with he | rfl
  · exact he
  · have hnone : ModFile.parse (Utf8.lossy []) = .error .noModule := by
      rw [lossy_nil]
      decide
    cases hnone.symm.trans hm

theorem Orderly.tame_of_sumsAt (ho : Orderly d b) {ns : List String} (hns : ∀ s ∈ ns, IsName s)
    (hup : ".." ∉ ns) : ∀ r ∈ sumsAt d ns, Tame (cacheName r.path r.version) := by
  intro r hr
  obtain ⟨e, data, tool, he, hitem, hr⟩ := mem_entries_of_mem_sumsAt ho.linkless hns hup hr
  exact ho.sums ns e data tool he hitem r hr

theorem Orderly.tame_of_modFile (ho : Orderly d b) {ns : List String} (hns : ∀ s ∈ ns, IsName s)
    (hup : ".." ∉ ns) {data : Bytes} (h : d.read (pathOf (ns ++ ["go.mod"])) = .ok data) {m : ModFile}
    (hm : ModFile.parse (Utf8.lossy data) = .ok m) : m.Tame := by
  obtain ⟨e, tool, he, hitem⟩ := mem_entries_of_parse ho.linkless hns hup h hm
  exact ho.modules ns e data tool he hitem m hm

namespace ModuleRoot

theorem allTame_requirementList {dir : String} (hdir : Tame dir) {m : ModFile} (hm : m.Tame) {sums : List Require}
    (hsums : ∀ r ∈ sums, Tame (cacheName r.path r.version)) : AllTame (requirementList d dir m sums) :=
  allConsist_requirementList hdir ⟨hm.require, fun r hr => ⟨(hdir.join (hm.replace r hr).1).clean, (hm.replace r hr).2⟩⟩
    hsums

theorem tame_of_mem_places {m : ModuleRoot} {importPath matched sub : String} {r : Requirement}
    (ho : Orderly d b) (hm : Tame m.dir) (hreq : AllTame m.requirements) (himport : Tame importPath)
    (h : m.covering? importPath = some (r, matched, sub)) : ∀ dir ∈ places b m r importPath sub, Tame dir :=
  consists_of_mem_places ho.consists hm hreq himport h

theorem isDir_of_located? {m : ModuleRoot} {importPath : String} {p : PackagePath}
    (h : m.located? d b importPath = some p) : IsDir d p.dir := by
  obtain ⟨⟨r, matched, sub⟩, -, hx⟩ := Option.bind_eq_some_iff.mp h
  simp only at hx
  split at hx
  · cases hx
  · obtain ⟨dir, hfind, rfl⟩ := Option.map_eq_some_iff.mp hx
    exact isDir_of_holdsPackage (List.find?_some hfind)

end ModuleRoot

theorem settled_searchModule {ns : List String} {importPath : String} (ho : Orderly d b)
    (hns : ∀ s ∈ ns, IsName s) (hup : ".." ∉ ns) (hdir : Tame (pathOf ns))
    (hfile : d.kindAt (pathOf (ns ++ ["go.mod"])) = some .file) (himport : Tame importPath) :
    Settled .full d ok (searchModule d b (pathOf ns) importPath) fun r => ∀ p, r = .ok p → IsDir d p.dir := by
  obtain ⟨data, hread⟩ := exists_read_of_file hfile
  have hask : AskablePath .full d ns := splitPath_pathOf hns ▸ hdir.askable
  have htame := fun m => ho.tame_of_modFile hns hup hread (m := m)
  refine (ModuleRoot.settled_load ho.proper.named hns hask hread
    fun m hm r hr _ => (hdir.join ((htame m hm).replace r hr).1).clean.askable).bind fun r hr => ?_
  subst hr
  rw [ModuleRoot.ofText]
  cases hm : ModFile.parse (Utf8.lossy data) with
  | error e => exact .pure (by simp)
  | ok m =>
    let root : ModuleRoot := ⟨pathOf ns, m.module, ModuleRoot.requirementList d (pathOf ns) m (sumsAt d ns)⟩
    have hroot : Tame root.dir := hdir
    have hreq : AllTame root.requirements :=
      ModuleRoot.allTame_requirementList hdir (htame m hm) (ho.tame_of_sumsAt hns hup)
    refine (ModuleRoot.settled_find (m := root) ho.proper.named fun r matched sub hcov _ dir hmem =>
      .of_tame (ModuleRoot.tame_of_mem_places ho hroot hreq himport hcov dir hmem)).mono fun x hx p hp => ?_
    rw [hp] at hx
    exact ModuleRoot.isDir_of_located? hx.symm

/-! ## Roots -/

theorem Orderly.tame_of_mem_searched (ho : Orderly d b) {importPath dir : String} (hdir : Tame dir)
    (himport : Tame importPath) :
    ∀ x ∈ vendored (b.gorootSrc :: b.gopath.map (Path.join · "src")) importPath dir ++
      rooted (b.gorootSrc :: b.gopath.map (Path.join · "src")) importPath, Tame x.1 ∧ x.2.dir = x.1 :=
  List.forall_mem_append.mpr ⟨consists_of_mem_vendored _ ho.consists.vendor hdir himport,
    consists_of_mem_rooted ho.consists.roots himport⟩

theorem settled_searchRoots {importPath dir : String} (ho : Orderly d b) (hdir : Tame dir)
    (himport : Tame importPath) :
    Settled .full d ok (searchRoots d b importPath dir) fun r => ∀ p, r = .ok p → IsDir d p.dir := by
  have hall := ho.tame_of_mem_searched hdir himport
  refine (settled_firstDir ho.proper.named fun x hx => (hall x hx).1.askable).bind fun o hfound => ?_
  cases o with
  | none => exact .pure (by simp)
  | some p =>
    obtain ⟨x, hfind, rfl⟩ := Option.map_eq_some_iff.mp hfound.symm
    refine .pure ?_
    rintro _ ⟨⟩
    rw [(hall x (List.mem_of_find?_eq_some hfind)).2]
    simpa using List.find?_some hfind

theorem settled_findLocal {importPath srcDir : String} (hp : d.Proper) (hsrc : Tame srcDir)
    (himport : Tame importPath) :
    Settled .full d ok (findLocal d importPath srcDir) fun r => ∀ p, r = .ok p → IsDir d p.dir := by
  refine (settled_hasGoFiles hp.named (.of_tame (hsrc.join himport).clean)).bind fun x hx => ?_
  cases x with
  | true => exact .pure (by simpa using isDir_of_holdsPackage hx.symm)
  | false => exact .pure (by simp)

/-! ## The module cache -/

/-- The place of a package in its module consists of names that were asked for. -/
theorem forall_of_cachedModule? {srcDir dir module version sub : String}
    (hmod : cachedModule? (Path.clean srcDir) = some (dir, module, version)) (hrest : IsRest sub) (hsrc : Tame srcDir)
    (hup : ".." ∉ splitPath srcDir) (himport : Tame (module ++ sub)) (himportUp : ".." ∉ splitPath (module ++ sub)) :
    Tame (Path.join dir (String.ofList (sub.toList.dropWhile (· == '/')))) ∧
      ".." ∉ splitPath (Path.join dir (String.ofList (sub.toList.dropWhile (· == '/')))) := by
  have hdir : ∀ s ∈ splitPath dir, s ∈ splitPath srcDir := by
    obtain ⟨t, ht, hrest⟩ := exists_rest_of_cachedModule? hmod
    intro s hs
    refine mem_splitPath_clean ?_
    rw [ht, splitPath_append hrest]
    exact List.mem_append_left _ hs
  have hsub : ∀ s ∈ splitPath (String.ofList (sub.toList.dropWhile (· == '/'))), s ∈ splitPath (module ++ sub) := by
    intro s hs
    rw [splitPath_dropWhile, String.ofList_toList] at hs
    rw [splitPath_append hrest]
    exact List.mem_append_right _ hs
  refine ⟨(hsrc.of_subset hdir).join (himport.of_subset hsub), fun hm => ?_⟩
  rcases mem_splitPath_join hm with hm | hm
  · exact hup (hdir _ hm)
  · exact himportUp (hsub _ hm)

theorem settled_findInModCache {importPath srcDir : String} (hp : d.Proper) (hsrc : Tame srcDir)
    (hsrcUp : ".." ∉ splitPath srcDir) (himport : Tame importPath) (hup : ".." ∉ splitPath importPath) :
    Settled .full d ok (findInModCache d importPath srcDir) fun o => ∀ p, o = some p → IsDir d p.dir := by
  rcases findInModCache_cases d importPath srcDir with hnone | ⟨dir, module, version, sub, hmod, rfl, hrest, heq⟩
  · rw [hnone]
    exact .pure (by simp)
  · obtain ⟨htame, hno⟩ := forall_of_cachedModule? hmod hrest hsrc hsrcUp himport hup
    rw [heq]
    generalize String.ofList (sub.toList.dropWhile (· == '/')) = inner at htame hno ⊢
    refine (settled_hasGoFiles hp.named (.of_tame htame)).bind fun x hx => ?_
    cases x with
    | true =>
      refine .pure ?_
      rintro _ ⟨⟩
      simpa [IsDir, splitPath_clean hno] using isDir_of_holdsPackage hx.symm
    | false => exact .pure (by simp)

/-! ## Packages -/

variable {importPath srcDir : String}

theorem settled_findInModule_none {τ : Trust} (hp : d.Named) (hsrc : AskablePath τ d (splitPath (Path.clean srcDir)))
    (hmod : modFileAt d srcDir = none) :
    Settled τ d ok (findInModule d b importPath srcDir)
      (· = .error (.notFound s!"cannot find go.mod for `{srcDir}`")) := by
  refine ⟨_, rfl, fun t ht => (gives_modFile? hp hsrc ht).bind fun o t₁ ht₁ _ ho => ?_⟩
  rw [hmod] at ho
  cases ho
  exact .pure ht₁ rfl

theorem settled_findInModule_of_orderly (ho : Orderly d b) (hok : Truthful ok d b) (hsrc : Tame srcDir) (hup : ".." ∉ splitPath srcDir)
    (himport : Tame importPath) (huses : usesModules d b (Path.clean srcDir) = true) :
    Settled .full d ok (findInModule d b importPath srcDir)
      fun r => ∀ p, r = .ok p → IsDir d p.dir := by
  cases hmod : modFileAt d srcDir with
  | none => exact (settled_findInModule_none ho.proper.named hsrc.clean.askable hmod).mono (by simp)
  | some place =>
    obtain ⟨ns, rfl, hpre, hfile⟩ := exists_of_modFileAt hmod
    have hsub : ∀ s ∈ ns, s ∈ splitPath srcDir := fun s hs => mem_splitPath_clean (hpre.subset hs)
    have hns : ∀ s ∈ ns, IsName s := fun s hs => isName_of_mem_splitPath (hsub s hs)
    have hdir : Tame (pathOf ns) := by
      refine hsrc.of_subset fun s hs => hsub s ?_
      rwa [splitPath_pathOf hns] at hs
    exact settled_findInModule ho.proper.named hok hsrc.clean.askable hmod huses
      (settled_searchModule ho hns (fun hm => hup (hsub _ hm)) hdir hfile himport)

theorem settled_findInGopath_of_orderly (ho : Orderly d b) (hok : Truthful ok d b) (hsrc : Tame srcDir)
    (himport : Tame importPath) (huses : usesModules d b (Path.clean srcDir) = false) :
    Settled .full d ok (findInGopath d b importPath srcDir) fun r => ∀ p, r = .ok p → IsDir d p.dir :=
  settled_findInGopath hok hsrc.clean.askable huses (settled_searchRoots ho hsrc.clean himport)

/-- An import path that is looked up as it stands: local ones, and those that never lead up. -/
def WellFormed (importPath : String) : Prop := isLocalImport importPath = true ∨ ".." ∉ splitPath importPath

instance (importPath : String) : Decidable (WellFormed importPath) := inferInstanceAs (Decidable (_ ∨ _))

/-- Where a package is found does not depend on what was looked up before, and it is a directory. -/
theorem settled_findPackage (ho : Orderly d b) (hok : Truthful ok d b) (hsrc : Tame srcDir)
    (hup : ".." ∉ splitPath srcDir) (himport : Tame importPath) (hwf : WellFormed importPath) :
    Settled .full d ok (findPackage d b importPath srcDir) fun r => ∀ p, r = .ok p → IsDir d p.dir := by
  rw [findPackage]
  split
  · exact settled_findLocal ho.proper hsrc himport
  · next hlocal =>
    have himportUp : ".." ∉ splitPath importPath := by
      rcases hwf with h | h
      · exact absurd h hlocal
      · exact h
    have hstd : Tame (Path.join b.gorootSrc importPath) := (ho.goroot.join (by decide)).join himport
    refine (settled_hasGoFiles ho.proper.named (.of_tame hstd)).bind fun x hx => ?_
    cases x with
    | true => exact .pure (by simpa using isDir_of_holdsPackage hx.symm)
    | false =>
      refine (settled_modEnabled ho.proper.named hsrc.clean.askable fun _ _ => hok.flag_iff).bind fun x hx => ?_
      cases x with
      | true => exact settled_findInModule_of_orderly ho hok hsrc hup himport hx.symm
      | false =>
        refine (settled_findInModCache ho.proper hsrc hup himport himportUp).bind fun o hfound => ?_
        cases o with
        | none => exact settled_findInGopath_of_orderly ho hok hsrc himport hx.symm
        | some p => exact .pure (by simpa using hfound)

end EditorAgent.Go

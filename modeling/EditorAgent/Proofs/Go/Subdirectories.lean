import EditorAgent.Proofs.Go.NewDirectory
import EditorAgent.Proofs.Go.Overwritten
import EditorAgent.Proofs.Go.Readers
import Mathlib

/-!
# New subdirectories

Names are all that tells the sources of a directory from its subdirectories. So a directory holds a package as soon as
a subdirectory is named like a source. A new subdirectory of another name, that is not named like a module file
either, is noticed by no import, unless a package is looked for at its own place and the lookup is content with a
directory.
-/

namespace EditorAgent.Go

open Vfs Importer Relation

variable {d d' : Disk} {b : BuildContext} {l : Location} {sub dir importPath srcDir : String} {ns : List String}

/-- Settings, module files and tools that name no path with a step up in it. -/
structure Downward (d : Disk) (b : BuildContext) : Prop where
  settings : b.Consists (· ≠ "..")
  search : ∀ dir ∈ Text.split (· == ':') ((b.env.get? "PATH").getD "/bin:/usr/bin"), Consists (· ≠ "..") dir
  modules : ∀ dir e data tool, (dir ++ ["go.mod"], e) ∈ d.entries → e.item = .file data tool →
    ∀ m, ModFile.parse (Utf8.lossy data) = .ok m → m.Consists (· ≠ "..") (pathOf dir)
  sums : ∀ dir e data tool, (dir ++ ["go.sum"], e) ∈ d.entries → e.item = .file data tool →
    ∀ r ∈ parseSum (Utf8.lossy data), Consists (· ≠ "..") (cacheName r.path r.version)
  archive : ∀ tool text, goTool? d b = some tool → Utf8.decode? tool.stdout = some text →
    Consists (· ≠ "..") (Text.trim text)

theorem up_not_mem_of_consists {p : String} (h : Consists (· ≠ "..") p) : ".." ∉ splitPath p := fun hm => h _ hm rfl

theorem consists_of_up_not_mem {p : String} (h : ".." ∉ splitPath p) : Consists (· ≠ "..") p := by
  rintro s hs rfl
  exact h hs

/-! ## Lookups -/

section Lookups

variable (h : d.NewDirectory (l ++ [sub]) d') (ho : Orderly d b) (ho' : Orderly d' b) (hd : Downward d b)
  (hsub : isPackageFileName sub = false) (hmod : sub ≠ "go.mod")

include h ho ho'

include hsub in
theorem matched_hasGoFiles (hdir : Tame dir) (hup : ".." ∉ splitPath dir) :
    Matched d d' b (hasGoFiles d dir) (hasGoFiles d' dir) :=
  .of_settled (settled_hasGoFiles ho.proper.named (.of_tame hdir))
    (settled_hasGoFiles ho'.proper.named (.of_tame hdir))
    (holdsPackage_eq_of_newDirectory h ho.linkless ho'.linkless hsub hup)

include hsub in
theorem matched_firstPackage {dirs : List String} (hdirs : ∀ dir ∈ dirs, Tame dir ∧ ".." ∉ splitPath dir) :
    Matched d d' b (ModuleRoot.firstPackage d dirs) (ModuleRoot.firstPackage d' dirs) :=
  .of_settled (settled_firstPackage ho.proper.named fun dir hdir => .of_tame (hdirs dir hdir).1)
    (settled_firstPackage ho'.proper.named fun dir hdir => .of_tame (hdirs dir hdir).1)
    (List.find?_congr fun dir hdir =>
      holdsPackage_eq_of_newDirectory h ho.linkless ho'.linkless hsub (hdirs dir hdir).2)

include hsub in
theorem matched_find {m : ModuleRoot}
    (hplaces : ∀ r q sub, m.covering? importPath = some (r, q, sub) →
      ∀ dir ∈ m.places b r importPath sub, Tame dir ∧ ".." ∉ splitPath dir) :
    Matched d d' b (m.find d b importPath) (m.find d' b importPath) := by
  rcases ModuleRoot.find_cases_forall b m importPath with ⟨e, hnone⟩ | ⟨r, q, sub, e, hcov, -, hfind⟩
  · rw [(hnone d).1, (hnone d').1]
    exact .pure ..
  · rw [hfind d, hfind d']
    refine (matched_firstPackage h ho ho' hsub (hplaces r q sub hcov)).bind fun o => ?_
    cases o <;> exact .pure ..

include hd hsub in
/-- A module finds what it found if no way up leads to what it requires. -/
theorem matched_find_of_consists {m : ModuleRoot} (hdir : Tame m.dir) (hroot : Consists (· ≠ "..") m.dir)
    (htame : AllTame m.requirements) (hdown : ModuleRoot.AllConsist (· ≠ "..") m.requirements)
    (himport : Tame importPath) (himportUp : ".." ∉ splitPath importPath) :
    Matched d d' b (m.find d b importPath) (m.find d' b importPath) := by
  refine matched_find h ho ho' hsub fun r q sub hcov dir hmem => ⟨?_, up_not_mem_of_consists ?_⟩
  · exact ModuleRoot.tame_of_mem_places ho hdir htame himport hcov dir hmem
  · exact ModuleRoot.consists_of_mem_places hd.settings hroot hdown (consists_of_up_not_mem himportUp) hcov dir hmem

include hd hsub hmod in
/-- A module finds what it found. -/
theorem matched_searchModule (hns : ∀ s ∈ ns, IsName s) (hup : ".." ∉ ns) (hdir : Tame (pathOf ns))
    (hfile : d.kindAt (pathOf (ns ++ ["go.mod"])) = some .file) (himport : Tame importPath)
    (himportUp : ".." ∉ splitPath importPath) :
    Matched d d' b (searchModule d b (pathOf ns) importPath) (searchModule d' b (pathOf ns) importPath) := by
  obtain ⟨data, hread⟩ := exists_read_of_file hfile
  have hall : ∀ s ∈ ns ++ ["go.mod"], IsName s :=
    List.forall_mem_append.mpr ⟨hns, List.forall_mem_singleton.mpr (by decide)⟩
  have hread' : d'.read (pathOf (ns ++ ["go.mod"])) = .ok data :=
    (h.read_eq_ok_iff ho.linkless ho'.linkless
      (Disk.up_not_mem_steps (by rw [splitPath_pathOf hall]; simpa using hup))).mpr hread
  have htame : ∀ m, ModFile.parse (Utf8.lossy data) = .ok m → m.Tame :=
    fun m hm => ho.tame_of_modFile hns hup hread hm
  have hdown : ∀ m, ModFile.parse (Utf8.lossy data) = .ok m → m.Consists (· ≠ "..") (pathOf ns) := by
    intro m hm
    obtain ⟨e, tool, he, hitem⟩ := mem_entries_of_parse ho.linkless hns hup hread hm
    exact hd.modules ns e data tool he hitem m hm
  have hask : ∀ d : Disk, AskablePath .full d ns := fun d => splitPath_pathOf hns ▸ hdir.askable
  have htarget : ∀ d : Disk, ∀ m, ModFile.parse (Utf8.lossy data) = .ok m → ∀ r ∈ m.replace, r.isLocal = true →
      AskablePath .full d (splitPath (Path.clean (Path.join (pathOf ns) r.newPath))) :=
    fun d m hm r hr _ => (hdir.join ((htame m hm).replace r hr).1).clean.askable
  refine .bind_of_settled (ModuleRoot.settled_load ho.proper.named hns (hask d) hread (htarget d))
    (ModuleRoot.settled_load ho'.proper.named hns (hask d') hread' (htarget d'))
    (ofText_eq_of_newDirectory h ho.linkless ho'.linkless hmod hns hup fun m hm r hr =>
      up_not_mem_of_consists ((hdown m hm).replace r hr).1) ?_
  rw [ModuleRoot.ofText]
  cases hm : ModFile.parse (Utf8.lossy data) with
  | error e => exact .pure ..
  | ok m =>
    have hsums : ∀ r ∈ sumsAt d ns, Consists (· ≠ "..") (cacheName r.path r.version) := by
      intro r hr
      obtain ⟨e, data, tool, he, hitem, hr⟩ := mem_entries_of_mem_sumsAt ho.linkless hns hup hr
      exact hd.sums ns e data tool he hitem r hr
    have hroot : Consists (· ≠ "..") (pathOf ns) := consists_of_up_not_mem (by rwa [splitPath_pathOf hns])
    have htameAll : AllTame (ModuleRoot.requirementList d (pathOf ns) m (sumsAt d ns)) :=
      ModuleRoot.allTame_requirementList hdir (htame m hm) (ho.tame_of_sumsAt hns hup)
    have hdownAll : ModuleRoot.AllConsist (· ≠ "..") (ModuleRoot.requirementList d (pathOf ns) m (sumsAt d ns)) :=
      ModuleRoot.allConsist_requirementList hroot (hdown m hm) hsums
    exact matched_find_of_consists h ho ho' hd hsub hdir hroot htameAll hdownAll himport himportUp

include hd in
/-- The roots have what they had, as far as the new directory is not asked for itself. -/
theorem matched_searchRoots (hdir : Tame dir) (hup : ".." ∉ splitPath dir) (himport : Tame importPath)
    (himportUp : ".." ∉ splitPath importPath)
    (hasked : ∀ x ∈ vendored (b.gorootSrc :: b.gopath.map (Path.join · "src")) importPath dir ++
      rooted (b.gorootSrc :: b.gopath.map (Path.join · "src")) importPath, splitPath x.1 ≠ l ++ [sub]) :
    Matched d d' b (searchRoots d b importPath dir) (searchRoots d' b importPath dir) := by
  have htame := ho.tame_of_mem_searched hdir himport
  have hdown := List.forall_mem_append.mpr
    ⟨consists_of_mem_vendored (b.gorootSrc :: b.gopath.map (Path.join · "src")) hd.settings.vendor
      (consists_of_up_not_mem hup) (consists_of_up_not_mem himportUp),
      consists_of_mem_rooted hd.settings.roots (consists_of_up_not_mem himportUp)⟩
  refine .bind (.of_settled (settled_firstDir ho.proper.named fun x hx => (htame x hx).1.askable)
    (settled_firstDir ho'.proper.named fun x hx => (htame x hx).1.askable) ?_) fun o => ?_
  · refine congrArg _ (List.find?_congr fun x hx => decide_eq_decide.mpr ?_)
    exact isDir_iff_of_ne h ho.linkless ho'.linkless (up_not_mem_of_consists (hdown x hx).1) (hasked x hx)
  · cases o <;> exact .pure ..

include hsub in
theorem matched_findLocal (hsrc : Tame srcDir) (himport : Tame importPath)
    (hup : ".." ∉ splitPath (Path.clean (Path.join srcDir importPath))) :
    Matched d d' b (findLocal d importPath srcDir) (findLocal d' importPath srcDir) := by
  refine (matched_hasGoFiles h ho ho' hsub (hsrc.join himport).clean hup).bind fun x => ?_
  cases x <;> exact .pure ..

include hsub in
theorem matched_findInModCache (hsrc : Tame srcDir) (hup : ".." ∉ splitPath srcDir) (himport : Tame importPath)
    (himportUp : ".." ∉ splitPath importPath) :
    Matched d d' b (findInModCache d importPath srcDir) (findInModCache d' importPath srcDir) := by
  rcases findInModCache_cases_forall importPath srcDir with
    hnone | ⟨dir, module, version, sub, hcached, rfl, hrest, heq⟩
  · rw [hnone, hnone]
    exact .pure ..
  · rw [heq d, heq d']
    obtain ⟨htame, hno⟩ := forall_of_cachedModule? hcached hrest hsrc hup himport himportUp
    generalize String.ofList (sub.toList.dropWhile (· == '/')) = inner at htame hno ⊢
    refine (matched_hasGoFiles h ho ho' hsub htame hno).bind fun x => ?_
    cases x <;> exact .pure ..

include hd hsub hmod in
theorem matched_findInModule (hsrc : Tame srcDir) (hup : ".." ∉ splitPath srcDir) (himport : Tame importPath)
    (himportUp : ".." ∉ splitPath importPath) (huses : usesModules d b (Path.clean srcDir) = true) :
    Matched d d' b (findInModule d b importPath srcDir) (findInModule d' b importPath srcDir) := by
  have hcleanUp : ".." ∉ splitPath (Path.clean srcDir) := fun hm => hup (mem_splitPath_clean hm)
  have hmod' := modFileAt_eq_of_newDirectory h ho.linkless ho'.linkless hmod hcleanUp
  have huses' : usesModules d' b (Path.clean srcDir) = true :=
    (usesModules_eq_of_newDirectory h ho.linkless ho'.linkless hmod (by rwa [Path.clean_clean])).trans huses
  cases hfile : modFileAt d srcDir with
  | none =>
    exact .of_settled (settled_findInModule_none ho.proper.named hsrc.clean.askable hfile)
      (settled_findInModule_none ho'.proper.named hsrc.clean.askable (hmod'.trans hfile)) rfl
  | some place =>
    obtain ⟨ns, rfl, hpre, hkind⟩ := exists_of_modFileAt hfile
    have hmem : ∀ s ∈ ns, s ∈ splitPath srcDir := fun s hs => mem_splitPath_clean (hpre.subset hs)
    have hns : ∀ s ∈ ns, IsName s := fun s hs => isName_of_mem_splitPath (hmem s hs)
    have hdir : Tame (pathOf ns) := by
      refine hsrc.of_subset fun s hs => hmem s ?_
      rwa [splitPath_pathOf hns] at hs
    obtain ⟨a, hsearch, hsearch'⟩ :=
      matched_searchModule h ho ho' hd hsub hmod hns (fun hm => hup (hmem _ hm)) hdir hkind himport himportUp
    exact ⟨a, settled_findInModule ho.proper.named (truthful_noted d b) hsrc.clean.askable hfile huses hsearch,
      settled_findInModule ho'.proper.named (truthful_noted d' b) hsrc.clean.askable (hmod'.trans hfile) huses'
        hsearch'⟩

include hd hmod in
theorem matched_findInGopath (hsrc : Tame srcDir) (hup : ".." ∉ splitPath srcDir) (himport : Tame importPath)
    (himportUp : ".." ∉ splitPath importPath) (huses : usesModules d b (Path.clean srcDir) = false)
    (hasked : ∀ x ∈ vendored (b.gorootSrc :: b.gopath.map (Path.join · "src")) importPath (Path.clean srcDir) ++
      rooted (b.gorootSrc :: b.gopath.map (Path.join · "src")) importPath, splitPath x.1 ≠ l ++ [sub]) :
    Matched d d' b (findInGopath d b importPath srcDir) (findInGopath d' b importPath srcDir) := by
  have hcleanUp : ".." ∉ splitPath (Path.clean srcDir) := fun hm => hup (mem_splitPath_clean hm)
  have huses' : usesModules d' b (Path.clean srcDir) = false :=
    (usesModules_eq_of_newDirectory h ho.linkless ho'.linkless hmod (by rwa [Path.clean_clean])).trans huses
  obtain ⟨a, hsearch, hsearch'⟩ := matched_searchRoots h ho ho' hd hsrc.clean hcleanUp himport himportUp hasked
  exact ⟨a, settled_findInGopath (truthful_noted d b) hsrc.clean.askable huses hsearch,
    settled_findInGopath (truthful_noted d' b) hsrc.clean.askable huses' hsearch'⟩

include hd hsub hmod in
/-- A package is found where it was found. -/
theorem matched_findPackage (hsrc : Tame srcDir) (hup : ".." ∉ splitPath srcDir) (himport : Tame importPath)
    (hwf : WellFormed importPath)
    (hlocal : isLocalImport importPath = true → ".." ∉ splitPath (Path.clean (Path.join srcDir importPath)))
    (hasked : isLocalImport importPath = false → usesModules d b (Path.clean srcDir) = false →
      ∀ x ∈ vendored (b.gorootSrc :: b.gopath.map (Path.join · "src")) importPath (Path.clean srcDir) ++
        rooted (b.gorootSrc :: b.gopath.map (Path.join · "src")) importPath, splitPath x.1 ≠ l ++ [sub]) :
    Matched d d' b (findPackage d b importPath srcDir) (findPackage d' b importPath srcDir) := by
  rw [findPackage, findPackage]
  split
  · next hloc => exact matched_findLocal h ho ho' hsub hsrc himport (hlocal hloc)
  · next hloc =>
    have himportUp : ".." ∉ splitPath importPath := hwf.resolve_left hloc
    have hcleanUp : ".." ∉ splitPath (Path.clean srcDir) := fun hm => hup (mem_splitPath_clean hm)
    have hstd : Tame (Path.join b.gorootSrc importPath) := (ho.goroot.join (by decide)).join himport
    have hstdUp : ".." ∉ splitPath (Path.join b.gorootSrc importPath) :=
      up_not_mem_of_consists ((hd.settings.roots _ List.mem_cons_self).join (consists_of_up_not_mem himportUp))
    refine (matched_hasGoFiles h ho ho' hsub hstd hstdUp).bind fun x => ?_
    cases x with
    | true => exact .pure ..
    | false =>
      refine .bind_of_settled
        (settled_modEnabled ho.proper.named hsrc.clean.askable fun _ _ => (truthful_noted d b).flag_iff)
        (settled_modEnabled ho'.proper.named hsrc.clean.askable fun _ _ => (truthful_noted d' b).flag_iff)
        (usesModules_eq_of_newDirectory h ho.linkless ho'.linkless hmod (by rwa [Path.clean_clean])) ?_
      cases huses : usesModules d b (Path.clean srcDir) with
      | true => exact matched_findInModule h ho ho' hd hsub hmod hsrc hup himport himportUp huses
      | false =>
        refine (matched_findInModCache h ho ho' hsub hsrc hup himport himportUp).bind fun o => ?_
        cases o with
        | some p => exact .pure ..
        | none =>
          exact matched_findInGopath h ho ho' hd hmod hsrc hup himport himportUp huses
            (hasked (by simpa using hloc) huses)

end Lookups

/-! ## Reading -/

theorem isSourceName_eq_false {flags : CheckFlags} (build : BuildContext) (o : Overlay)
    (hsub : isPackageFileName sub = false) (htest : flags.tests = true → Text.endsWith sub "_test.go" = false) :
    (Importer.under build flags o []).isSourceName sub = false := by
  rw [Bool.eq_false_iff]
  intro hname
  simp only [isSourceName, Importer.under, Bool.and_eq_true, Bool.or_eq_true] at hname
  obtain ⟨⟨⟨⟨hgo, hdot⟩, hlow⟩, htests⟩, -⟩ := hname
  cases hend : Text.endsWith sub "_test.go" with
  | true =>
    rcases htests with htests | hno
    · exact Bool.false_ne_true ((htest htests).symm.trans hend)
    · simp [hend] at hno
  | false => simp [isPackageFileName, hgo, hdot, hlow, hend] at hsub

/-- A directory has the sources that it had, if the new name is not that of one. -/
theorem sources_eq_of_newDirectory {build : BuildContext} {flags : CheckFlags} {o : Overlay}
    (h : d.NewDirectory (l ++ [sub]) d') (ho : Orderly d b) (ho' : Orderly d' b)
    (hname : (Importer.under build flags o []).isSourceName sub = false) (hover : o.Plain) (hdir : Path.Plain dir)
    (his : IsDir d dir) : sources d' build flags o dir = sources d build flags o dir := by
  have hns : ∀ s ∈ splitPath dir, IsName s := fun s hs => isName_of_mem_splitPath hs
  have hne : ∀ {s}, (Importer.under build flags o []).isSourceName s = true → s ≠ sub := by
    rintro s hs rfl
    exact Bool.false_ne_true (hname.symm.trans hs)
  have hnames : sourceNames d' build flags o dir = sourceNames d build flags o dir := by
    refine SourceFile.filter_nameSet_eq fun s hs => ?_
    rw [List.mem_append, List.mem_append, mem_names_iff_of_ne h ho.linkless hdir.2 his (hne hs)]
  have his' : IsDir d' dir := h.kindAt_eq_some his
  have hcontents : ∀ n ∈ sourceNames d build flags o dir,
      contents d' o (Path.join dir n) = contents d o (Path.join dir n) := by
    intro n hn
    obtain ⟨hmem, hsource⟩ := List.mem_filter.mp hn
    cases hsrc : o.source? (Path.join dir n) with
    | some src => rw [contents_of_source? hsrc, contents_of_source? hsrc]
    | none =>
      have hlisted : n ∈ d.names (pathOf (splitPath dir)) := by
        rcases List.mem_append.mp (((SourceFile.nameSet_spec _).2 n).mp hmem) with hmem | hmem
        · exact hmem
        · exact absurd hsrc (hover.source?_ne_none hdir hmem)
      obtain ⟨hnameOf, hup⟩ := ho.proper.of_mem_names hlisted
      have hjoin : Path.join dir n = pathOf (splitPath dir ++ [n]) := by
        conv_lhs => rw [hdir.1]
        exact Path.join_pathOf hns hnameOf
      have hplain : Path.Plain (pathOf (splitPath dir ++ [n])) :=
        Path.plain_pathOf (List.forall_mem_append.mpr ⟨hns, List.forall_mem_singleton.mpr hnameOf⟩)
          (by simpa [Ne.symm hup] using hdir.2)
      have hkept := h.kept (splitPath dir ++ [n]) fun heq =>
        hne hsource (List.singleton_inj.mp (List.append_inj' heq rfl).2)
      rw [hjoin] at hsrc ⊢
      rw [contents_of_plain hplain hsrc, contents_of_plain hplain hsrc,
        ho'.linkless.read_concat hns hdir.2 his' hnameOf hup, hkept, ho.linkless.read_concat hns hdir.2 his hnameOf hup]
  have hfiles : (sourceNames d build flags o dir).mapM (fun n => readFile d' build flags o (Path.join dir n)) =
      (sourceNames d build flags o dir).mapM fun n => readFile d build flags o (Path.join dir n) :=
    mapM_congr_of_mem fun n hn => by rw [readFile, readFile, hcontents n hn]
  rw [sources, sources, hnames, hfiles]

/-! ## Tools -/

/-- The program at a path. -/
def toolAt (d : Disk) (path : String) : Option Tool :=
  match d.itemAt path with
  | some (.file _ tool) => tool
  | _ => none

theorem goTool?_eq_toolAt (d : Disk) (b : BuildContext) :
    goTool? d b =
      if Path.isAbsolute b.goroot && decide (d.kindAt (Path.join (Path.join b.goroot "bin") "go") = some .file) then
        toolAt d (Path.join (Path.join b.goroot "bin") "go")
      else (Text.split (· == ':') ((b.env.get? "PATH").getD "/bin:/usr/bin")).findSome? fun dir =>
        toolAt d (Path.join dir "go") := by
  rw [goTool?, ← Disk.isFile_eq_kindAt]
  refine ite_congr rfl (fun _ => ?_)
    fun _ => congrArg (fun program => List.findSome? program _) (funext fun dir => ?_)
  all_goals
    dsimp only
    rw [toolAt, Disk.itemAt]
    generalize d.entry _ = x
    rcases x with e | ⟨item, modified⟩
    · rfl
    · cases item <;> rfl

/-- The tools are those that they were. -/
theorem goTool?_eq_of_newDirectory (h : d.NewDirectory (l ++ [sub]) d') (ho : Orderly d b) (ho' : Orderly d' b)
    (hd : Downward d b) : goTool? d' b = goTool? d b := by
  have hcases : ∀ path, ".." ∉ splitPath path → d'.itemAt path = d.itemAt path ∨
      d'.itemAt path = some .dir ∧ d.itemAt path = none := fun path hup =>
    (h.itemAt_cases ho.linkless ho'.linkless (Disk.up_not_mem_steps hup)).imp_right And.right
  have htool : ∀ path, ".." ∉ splitPath path → toolAt d' path = toolAt d path := by
    intro path hup
    rw [toolAt, toolAt]
    rcases hcases path hup with heq | ⟨hmade, hnone⟩
    · rw [heq]
    · rw [hmade, hnone]
  have hfile : ∀ path, ".." ∉ splitPath path → (d'.kindAt path = some .file ↔ d.kindAt path = some .file) := by
    intro path hup
    rw [Disk.kindAt_eq_itemAt, Disk.kindAt_eq_itemAt]
    rcases hcases path hup with heq | ⟨hmade, hnone⟩
    · rw [heq]
    · simp [hmade, hnone, Item.kind]
  have hgo : Consists (· ≠ "..") "go" := .of_isName (by decide) (by decide)
  have hown : ".." ∉ splitPath (Path.join (Path.join b.goroot "bin") "go") :=
    up_not_mem_of_consists ((hd.settings.goroot.join (.of_isName (by decide) (by decide))).join hgo)
  have hsearch : (Text.split (· == ':') ((b.env.get? "PATH").getD "/bin:/usr/bin")).findSome?
      (fun dir => toolAt d' (Path.join dir "go")) =
        (Text.split (· == ':') ((b.env.get? "PATH").getD "/bin:/usr/bin")).findSome?
          fun dir => toolAt d (Path.join dir "go") := by
    rw [← List.head?_filterMap, ← List.head?_filterMap]
    refine congrArg _ (List.filterMap_congr fun dir hdir => ?_)
    exact htool _ (up_not_mem_of_consists ((hd.search dir hdir).join hgo))
  rw [goTool?_eq_toolAt, goTool?_eq_toolAt, hsearch, htool _ hown, decide_eq_decide.mpr (hfile _ hown)]

/-- An archive gives the package that it gave. -/
theorem toOption_read_eq (importPath : String) {path : String} (imports : List Package)
    (hread : ∀ data, d'.read path = .ok data ↔ d.read path = .ok data) :
    (Archive.read d' importPath path imports).toOption = (Archive.read d importPath path imports).toOption := by
  rw [Archive.read, Archive.read]
  cases hr : d.read path with
  | ok data => rw [(hread data).mpr hr]
  | error e =>
    cases hr' : d'.read path with
    | ok data => cases hr.symm.trans ((hread data).mp hr')
    | error e' => cases e <;> cases e' <;> rfl

theorem readExport_eq_toOption (d : Disk) (i : Importer) (p : PackagePath) (imports : List (String × Package))
    (s : Session) :
    (i.readExport d p imports s).1 =
      (i.exportArchive? d p.dir).bind fun path => (Archive.read d p.importPath path (imports.map (·.2))).toOption := by
  rw [readExport, framed_run]
  dsimp only
  cases i.exportArchive? d p.dir with
  | none => rfl
  | some path =>
    simp only [Option.bind_some]
    cases Archive.read d p.importPath path (imports.map (·.2)) <;> rfl

/-- A package that was found has the export data that it had. -/
theorem readExport_eq_of_newDirectory (h : d.NewDirectory (l ++ [sub]) d') (ho : Orderly d b) (ho' : Orderly d' b)
    (hd : Downward d b) (i : Importer) (p : PackagePath) (hkin : b.Kin i.build) (hdir : Path.Plain p.dir)
    (his : IsDir d p.dir) (imports : List (String × Package)) (s : Session) :
    (i.readExport d' p imports s).1 = (i.readExport d p imports s).1 := by
  have htool : ∀ d, goTool? d i.build = goTool? d b := by
    intro d
    rw [hkin]
    rfl
  have hkind : d.kindAt p.dir = some .dir := by
    rw [hdir.1]
    exact his
  obtain ⟨m, hentry⟩ := Disk.exists_entry_of_dir hkind
  obtain ⟨m', hentry'⟩ := Disk.exists_entry_of_dir (h.kindAt_eq_some hkind)
  have harchive : i.exportArchive? d' p.dir = i.exportArchive? d p.dir := by
    rw [exportArchive?, exportArchive?, htool, htool, goTool?_eq_of_newDirectory h ho ho' hd, hentry, hentry']
  rw [readExport_eq_toOption, readExport_eq_toOption, harchive]
  cases hpath : i.exportArchive? d p.dir with
  | none => rfl
  | some path =>
    have hup : ".." ∉ splitPath path := by
      rw [exportArchive?, htool, hentry] at hpath
      obtain ⟨tool, htool, hpath⟩ := Option.bind_eq_some_iff.mp hpath
      split_ifs at hpath
      · cases hpath
      · obtain ⟨text, htext, rfl⟩ := Option.map_eq_some_iff.mp (Option.filter_eq_some_iff.mp hpath).1
        exact up_not_mem_of_consists (hd.archive tool text htool htext)
    exact toOption_read_eq _ _ fun data =>
      h.read_eq_ok_iff ho.linkless ho'.linkless (Disk.up_not_mem_steps hup)

/-! ## Imports -/

/-- A request that does not see a new subdirectory: its name is neither that of a source nor that of a module file, no
path that is asked for leads through it and up again, and no package is looked for at its place where a directory is
enough. -/
structure Unseen (d : Disk) (b : BuildContext) (root : Request) (l : Location) (sub : String) : Prop where
  orderly : Orderly d b
  downward : Downward d b
  kin : b.Kin root.build
  regular : Regular d root
  isName : IsName sub ∧ sub ≠ ".."
  notSource : isPackageFileName sub = false
  notTest : root.flags.tests = true → Text.endsWith sub "_test.go" = false
  notModule : sub ≠ "go.mod"
  notUp : ∀ r, Reaches d root r → isLocalImport r.path = true →
    ".." ∉ splitPath (Path.clean (Path.join r.origin r.path))
  notAsked : ∀ r, Reaches d root r → isLocalImport r.path = false → usesModules d b r.origin = false →
    ∀ x ∈ vendored (b.gorootSrc :: b.gopath.map (Path.join · "src")) r.path r.origin ++
      rooted (b.gorootSrc :: b.gopath.map (Path.join · "src")) r.path, splitPath x.1 ≠ l ++ [sub]

theorem Orderly.mkdirs (ho : Orderly d b) (hv : d.Vacant l sub) (hsub : IsName sub ∧ sub ≠ "..") (time : Int) :
    Orderly (d.mkdirs (l ++ [sub]) time) b := by
  have hfile : ∀ x ∈ (d.mkdirs (l ++ [sub]) time).entries, ∀ data tool, x.2.item = .file data tool →
      ∃ y ∈ d.entries, y.1 = x.1 ∧ y.2.item = .file data tool := by
    intro x hx data tool hitem
    rcases hv.mem_mkdirs hx with ⟨-, hdir⟩ | ⟨y, hy, hloc, hsame⟩
    · cases hdir.symm.trans hitem
    · exact ⟨y, hy, hloc, hsame.trans hitem⟩
  refine ⟨hv.forall_names_mkdirs ho.proper hsub time, hv.linkless_mkdirs ho.linkless time, ho.goroot, ho.gopath,
    fun dir e data tool he hitem => ?_, fun dir e data tool he hitem => ?_⟩
  · obtain ⟨⟨loc, e'⟩, hy, rfl, hitem'⟩ := hfile _ he data tool hitem
    exact ho.modules dir e' data tool hy hitem'
  · obtain ⟨⟨loc, e'⟩, hy, rfl, hitem'⟩ := hfile _ he data tool hitem
    exact ho.sums dir e' data tool hy hitem'

/-- Only the first request may ask for tests. -/
theorem tests_of_reaches {root r : Request} (hr : Reaches d root r) (htests : r.flags.tests = true) :
    root.flags.tests = true := by
  cases hr with
  | refl => exact htests
  | tail _ hleads =>
    obtain ⟨σ, files, s, -, -, -, rfl⟩ := hleads
    cases htests

theorem Unseen.alike {root : Request} (h : Unseen d b root l sub) (hv : d.Vacant l sub) (time : Int) :
    Alike d root (d.mkdirs (l ++ [sub]) time) id := by
  have hnew := hv.newDirectory time
  have ho' := h.orderly.mkdirs hv h.isName time
  have his : ∀ r σ, Reaches d root r → r.aim d = .site σ → IsDir d σ.dir := by
    intro r σ hr haim
    obtain ⟨p, hfound, hp⟩ := exists_of_aim haim
    have hdir := isDir_of_found h.orderly (kin_of_reaches h.kin hr) (h.regular.reaches hr) hfound
    cases hp
    exact hdir
  refine ⟨fun r hr => ?_, fun r σ hr haim => ?_, fun r σ imports hr haim => ?_⟩
  · have hregular := h.regular.reaches hr
    obtain ⟨htame, hwf⟩ := hregular.paths r .refl
    have hclean : Path.clean r.origin = r.origin := Path.clean_clean _
    rw [findPackage_kin (kin_of_reaches h.kin hr), findPackage_kin (kin_of_reaches h.kin hr)]
    refine (matched_findPackage hnew h.orderly ho' h.downward h.notSource h.notModule hregular.origin.1
      hregular.origin.2 htame hwf (h.notUp r hr) fun hlocal huses => ?_).answer
    rw [hclean] at huses ⊢
    exact h.notAsked r hr hlocal huses
  · have hover : σ.overlay = root.overlay := (overlay_eq_of_aim haim).trans (overlay_eq_of_reaches hr)
    have hflags : σ.flags = r.flags := by
      obtain ⟨p, -, hp⟩ := exists_of_aim haim
      cases hp
      rfl
    have htests : σ.flags.tests = true → Text.endsWith sub "_test.go" = false := by
      rw [hflags]
      exact fun htests => h.notTest (tests_of_reaches hr htests)
    have hname := isSourceName_eq_false σ.build σ.overlay h.notSource htests
    exact sources_eq_of_newDirectory hnew h.orderly ho' hname (hover ▸ h.regular.overlay)
      (h.regular.dirs r σ hr haim).1 (his r σ hr haim)
  · have hkin : b.Kin σ.build := kin_of_aim (kin_of_reaches h.kin hr) haim
    exact readExport_eq_of_newDirectory hnew h.orderly ho' h.downward (Importer.under σ.build σ.flags σ.overlay [])
      { dir := σ.dir, importPath := σ.importPath } hkin (h.regular.dirs r σ hr haim).1 (his r σ hr haim) imports default

/-- A directory that gets a new subdirectory holds a package then if it held one, or if the subdirectory is named like
a source. An import that does not see the subdirectory has the outcome that it had. -/
theorem hasGoFiles_and_run_mkdirs (hv : d.Vacant l sub) (time : Int) :
    (∀ (dir : String) (e e' : Expiry), d.Named → d.locate (pathOf (splitPath dir)) true = .ok l →
      (hasGoFiles (d.mkdirs (l ++ [sub]) time) dir (Vfs.make e')).1 =
        ((hasGoFiles d dir (Vfs.make e)).1 || isPackageFileName sub)) ∧
    ∀ (b : BuildContext) (c : Call) (s s' : Session) (e e' : Expiry), Unseen d b c.request l sub →
      Consistent d c.request → s.tree = Vfs.make e → s'.tree = Vfs.make e' →
      (c.run (d.mkdirs (l ++ [sub]) time) [] s').1 = (c.run d [] s).1 := by
  refine ⟨fun dir e e' hnamed hloc => ?_, fun b c s s' e e' h hcons hs hs' => ?_⟩
  · have hnamed' : (d.mkdirs (l ++ [sub]) time).Named := hv.forall_names_mkdirs hnamed hv.name time
    have hholds : ∀ (d : Disk) (e : Expiry), d.Named → (hasGoFiles d dir (Vfs.make e)).1 = holdsPackage d dir := by
      intro d e hnamed
      obtain ⟨hvalue, hgives⟩ :=
        (@settled_hasGoFiles _ d (fun _ _ _ => False) hnamed dir (searchable_inside d dir)).answer
      exact ((hgives _ (coherent_make ..)).2.2).trans hvalue
    obtain ⟨modified, hdir⟩ := hv.dir
    rw [hholds _ e' hnamed', hholds _ e hnamed, holdsPackage_newDirectory (hv.newDirectory time) hloc hdir]
  · exact Call.run_eq_of_alike h.orderly (h.orderly.mkdirs hv h.isName time) ⟨h.kin, rfl, h.regular⟩ hcons
      (h.alike hv time) hs hs'

/-! ## A new directory at the root

It stands beside the one file of a package for another platform. -/

namespace Beside

theorem downward : Downward Elsewhere.disk (Elsewhere.build "linux") where
  settings := ⟨by decide, by simp [Elsewhere.build], by decide, by decide⟩
  search := by
    have hpath : ((Elsewhere.build "linux").env.get? "PATH").getD "/bin:/usr/bin" = "/bin:/usr/bin" := rfl
    have hdirs : Text.split (· == ':') "/bin:/usr/bin" = ["/bin", "/usr/bin"] := by decide
    rw [hpath, hdirs]
    decide
  modules := by
    intro dir e data tool h
    have hlast := congrArg List.getLast? (Prod.mk.inj (List.mem_singleton.mp h)).1
    simp at hlast
  sums := by
    intro dir e data tool h
    have hlast := congrArg List.getLast? (Prod.mk.inj (List.mem_singleton.mp h)).1
    simp at hlast
  archive := by
    intro tool text htool
    cases htool.symm.trans (Replaced.goTool?_disk [])

theorem unseen : Unseen Elsewhere.disk (Elsewhere.build "linux") (Elsewhere.call "linux").request [] "sub" where
  orderly := Elsewhere.orderly
  downward := downward
  kin := rfl
  regular := (Elsewhere.fits (by simp)).regular
  isName := by decide
  notSource := by decide
  notTest := by simp [Elsewhere.call, Call.request]
  notModule := by decide
  notUp r hr _ := by
    rw [Elsewhere.eq_of_reaches (by simp) hr, Elsewhere.origin_call]
    decide
  notAsked r hr hlocal := by
    rw [Elsewhere.eq_of_reaches (by simp) hr] at hlocal
    cases hlocal

theorem vacant : Elsewhere.disk.Vacant [] "sub" where
  name := by decide
  dir := ⟨0, rfl⟩
  above m hm := by
    obtain rfl := List.prefix_nil.mp hm
    rfl
  free m hm := by
    obtain ⟨rest, rfl⟩ := hm
    simp [Disk.get?, Elsewhere.disk]

theorem vacant_empty : Disk.empty.Vacant [] "x.go" where
  name := by decide
  dir := ⟨0, rfl⟩
  above m hm := by
    obtain rfl := List.prefix_nil.mp hm
    rfl
  free m hm := by
    obtain ⟨rest, rfl⟩ := hm
    rfl

theorem locate_root : Disk.empty.locate (pathOf (splitPath "/")) true = .ok [] := by
  have hpath : pathOf (splitPath "/") = "/" := by decide
  have hsteps : Disk.steps "/" = ["."] := by decide
  rw [hpath, Disk.locate, if_neg (by decide), if_neg (by decide), if_neg (by decide), hsteps, Disk.follow]
  simp [Disk.get?, Disk.follow]

end Beside

/-- A directory that is named like a source makes a package of an empty one; another one beside a file does not change
what comes of importing it. -/
theorem hasGoFiles_and_run_mkdirs_beside :
    (hasGoFiles (Disk.empty.mkdirs ["x.go"] 1) "/" (Vfs.make .never)).1 =
        ((hasGoFiles Disk.empty "/" (Vfs.make .never)).1 || isPackageFileName "x.go") ∧
      ((Elsewhere.call "linux").run (Elsewhere.disk.mkdirs ["sub"] 1) [] default).1 =
        ((Elsewhere.call "linux").run Elsewhere.disk [] default).1 :=
  ⟨(hasGoFiles_and_run_mkdirs Beside.vacant_empty 1).1 "/" .never .never (by decide) Beside.locate_root,
    (hasGoFiles_and_run_mkdirs Beside.vacant 1).2 (Elsewhere.build "linux") (Elsewhere.call "linux") default default
      .never .never Beside.unseen (Elsewhere.consistent (by simp)) rfl rfl⟩

end EditorAgent.Go

import EditorAgent.Proofs.Go.ModuleCache

/-!
# Import paths that lead back

A directory gets its import path from the standard library, a workspace or its module, whichever comes first.
Looked up from the directory itself, the path leads back to it, unless something that is asked earlier answers
to the same path: the standard library, a requirement of the module, a vendor directory or another workspace.
-/

namespace EditorAgent.Go

open Vfs

variable {d : Disk} {b : BuildContext} {ok : List String → CacheKey → CacheValue → Prop}
  {dir importPath : String} {goroot : Bool}

/-! ## How a directory is named -/

/-- The path of a directory in the first workspace that it lies in. -/
def workspacePath? (b : BuildContext) (dir : String) : Option String :=
  b.gopath.findSome? fun gp => (Path.relative? dir (Path.join gp "src")).filter (· != "")

/-- The path of a directory of a module, given the path below the module. -/
def Description.pathBelow (M : Description) (rel : String) : String :=
  if rel = "" then M.file.module else s!"{M.file.module}/{rel}"

/-- What names a directory. -/
inductive Named (d : Disk) (b : BuildContext) (dir : String) : String × Bool → Prop where
  | std {rel : String} (h : Path.relative? dir b.gorootSrc = some rel) : Named d b dir (rel, true)
  | workspace {rel : String} (h : workspacePath? b dir = some rel) : Named d b dir (rel, false)
  | module {M : Description} {rel : String} (hM : M.Holds d) (hseen : modFileAt d dir = some (M.root ++ ["go.mod"]))
      (hrel : Path.relative? dir (pathOf M.root) = some rel) (hno : workspacePath? b dir = none) :
      Named d b dir (M.pathBelow rel, false)
  | unnamed : Named d b dir (".", false)

/-- What a directory is called by the module file that it sees, given the directory of that. -/
def pathInModule (text : Bytes) (root dir : String) : String × Bool :=
  match ModFile.parse (Utf8.lossy text), Path.relative? dir root with
  | .ok m, some rel => (if rel = "" then m.module else s!"{m.module}/{rel}", false)
  | _, _ => (".", false)

theorem named_pathInModule {ns : List String} {text : Bytes} (hmod : modFileAt d dir = some (ns ++ ["go.mod"]))
    (hread : d.read (pathOf (ns ++ ["go.mod"])) = .ok text) (hno : workspacePath? b dir = none) :
    Named d b dir (pathInModule text (pathOf ns) dir) := by
  rw [pathInModule]
  cases hparse : ModFile.parse (Utf8.lossy text) with
  | error e => exact .unnamed
  | ok m =>
    cases hrel : Path.relative? dir (pathOf ns) with
    | none => exact .unnamed
    | some rel => exact .module (M := ⟨ns, m, sumsAt d ns⟩) ⟨⟨text, hread, hparse⟩, rfl⟩ hmod hrel hno

/-- The import path of a directory is told the same way whatever was asked before. -/
theorem settled_importPathOf {τ : Trust} (hp : d.Named) (b : BuildContext)
    (hdir : AskablePath τ d (splitPath (Path.clean dir))) :
    Settled τ d ok (importPathOf d b dir) (Named d b dir) := by
  rw [importPathOf]
  cases hstd : Path.relative? dir b.gorootSrc with
  | some rel => exact .pure (.std hstd)
  | none =>
    simp only
    cases hwork : workspacePath? b dir with
    | some rel =>
      rw [workspacePath?] at hwork
      simp only [hwork]
      exact .pure (.workspace hwork)
    | none =>
      have hwork' := hwork
      rw [workspacePath?] at hwork'
      simp only [hwork']
      cases hmod : modFileAt d dir with
      | none =>
        refine ⟨(".", false), .unnamed, fun t ht => (gives_modFile? hp hdir ht).bind fun o t₁ ht₁ _ ho => ?_⟩
        rw [hmod] at ho
        cases ho
        exact .pure ht₁ rfl
      | some place =>
        obtain ⟨ns, rfl, -, hfile⟩ := exists_of_modFileAt hmod
        obtain ⟨text, hread⟩ := exists_read_of_file hfile
        refine ⟨pathInModule text (pathOf ns) dir, named_pathInModule hmod hread hwork, fun t ht =>
          (gives_modFile? hp hdir ht).bind fun o t₁ ht₁ _ ho => ?_⟩
        rw [hmod] at ho
        obtain ⟨hc⟩ := ho
        refine (gives_blob hp ht₁ hc).bind fun src t₂ ht₂ hframe hsrc => Gives.get ?_
        obtain ⟨n, hparent, hn⟩ := Stands.parent ht₂ (hc.shape hframe.toShape)
        obtain rfl := (hsrc text).mpr hread
        simp only [hparent, hn.path_eq]
        rw [pathInModule]
        cases ModFile.parse (Utf8.lossy text) with
        | error e => exact .pure ht₂ rfl
        | ok m => cases Path.relative? dir (pathOf ns) <;> exact .pure ht₂ rfl

theorem named_importPathOf (hp : d.Named) (b : BuildContext) (dir : String) (e : Expiry) :
    Named d b dir (importPathOf d b dir (Vfs.make e)).1 := by
  have hsettled : Settled (shown d) d (Noted d b) (importPathOf d b dir) (Named d b dir) :=
    settled_importPathOf hp b (askable_shown _)
  obtain ⟨x, hx, hact⟩ := hsettled
  exact (hact _ (coherent_make _ d (Noted d b) e)).2.2 ▸ hx

/-! ## What comes before a directory -/

/-- The module of a directory decides about an import path other than its own. A workspace that holds the
directory as well names it alike. -/
structure Description.Governs (M : Description) (d : Disk) (b : BuildContext) (dir importPath : String) : Prop
    extends M.Holds d where
  seen : modFileAt d dir = some (M.root ++ ["go.mod"])
  plain : IsPlainPath importPath
  governs : M.governing? importPath = some M.file.module
  notMain : importPath ≠ M.file.module
  agrees : ∀ path, workspacePath? b dir = some path →
    ∃ rel, Path.relative? dir (pathOf M.root) = some rel ∧ path = M.pathBelow rel

/-- The files of a place describe one module. -/
theorem Description.Holds.eq_of_root {M M' : Description} (h : M.Holds d) (h' : M'.Holds d) (hroot : M.root = M'.root) :
    M = M' := by
  obtain ⟨root, file, sums⟩ := M
  obtain ⟨root', file', sums'⟩ := M'
  obtain rfl : root = root' := hroot
  obtain ⟨⟨text, hread, hparse⟩, hsums⟩ := h
  obtain ⟨⟨text', hread', hparse'⟩, hsums'⟩ := h'
  obtain rfl := Except.ok.inj (hread.symm.trans hread')
  obtain rfl : file = file' := Except.ok.inj (hparse.symm.trans hparse')
  obtain rfl : sums = sums' := hsums.trans hsums'.symm
  rfl

/-- The directories that are asked for before the workspace of a directory is: the vendor directories, the standard
library and the workspaces that do not hold it. -/
def askedBefore (b : BuildContext) (dir importPath : String) : List String :=
  (vendored (b.gorootSrc :: b.gopath.map (Path.join · "src")) importPath (Path.clean dir)).map (·.1) ++
    Path.join b.gorootSrc importPath ::
      (b.gopath.takeWhile fun gp => ((Path.relative? dir (Path.join gp "src")).filter (· != "")).isNone).map fun gp =>
        Path.join (Path.join gp "src") importPath

/-- The import path of a directory outside of the standard library leads nowhere else. -/
structure Unshadowed (d : Disk) (b : BuildContext) (dir importPath : String) : Prop where
  std : holdsPackage d (Path.join b.gorootSrc importPath) = false
  owned : usesModules d b (Path.clean dir) = true → ∃ M : Description, M.Governs d b dir importPath
  first : usesModules d b (Path.clean dir) = false →
    (workspacePath? b dir).isSome = true ∧ (∀ p ∈ askedBefore b dir importPath, ¬ IsDir d p) ∧
      ∀ cached module version, cachedModule? (Path.clean dir) = some (cached, module, version) →
        ¬ Covers module importPath

theorem covers_of_isRest {p q t : String} (h : p = q ++ t) (ht : IsRest t) : Covers q p := by
  subst h
  rcases ht with rfl | ht
  · exact .inl (by simp)
  · have heq := Text.after?_eq (p := "/") (by rw [Text.after?, if_pos ht])
    exact covers_iff.mpr (.inr ⟨_, by rw [heq, String.append_assoc]⟩)

/-- A lookup from a directory that gives that directory. -/
def FoundAgain (d : Disk) (b : BuildContext) (dir importPath : String) (goroot : Bool) (e : Expiry) : Prop :=
  ∃ p, (findPackage d b importPath dir (Vfs.make e)).1 = .ok p ∧ Path.same p.dir dir = true ∧ p.goroot = goroot

/-- A directory outside of the standard library is found again where the search with a module settles on it, or the
search without one, as the lookup needs. -/
theorem foundAgain_of_settled (hp : d.Named) (hlocal : isLocalImport importPath = false)
    (hstd : holdsPackage d (Path.join b.gorootSrc importPath) = false) {p : PackagePath}
    (hsame : Path.same p.dir dir = true) (hgoroot : p.goroot = false)
    (hsearch : Settled (shown d) d (Noted d b)
      (do if usesModules d b (Path.clean dir) then findInModule d b importPath dir
          else match ← findInModCache d importPath dir with
            | some p => return .ok p
            | none => findInGopath d b importPath dir) (· = .ok p)) (e : Expiry) :
    FoundAgain d b dir importPath false e := by
  obtain ⟨hno, hcoherent⟩ := hasGoFiles_make (b := b) hp (Path.join b.gorootSrc importPath) e
  have henabled : Settled (shown d) d (Noted d b) (modEnabled d b dir) (· = usesModules d b (Path.clean dir)) :=
    settled_modEnabled hp (askable_shown _) fun _ _ => (truthful_noted d b).flag_iff
  obtain ⟨x, rfl, hfound⟩ := henabled.bind fun x hx => hx ▸ hsearch
  refine ⟨p, ?_, hsame, hgoroot⟩
  rw [findPackage_eq_of_not_std hlocal (hno.trans hstd)]
  exact (hfound _ hcoherent).2.2

/-! ## The standard library -/

theorem components_join_ne_nil (p : String) : Path.components (Path.join p "src") ≠ [] := by
  by_cases hp : p = ""
  · subst hp
    decide
  · have hsrc : Path.tailComponents "src" = [.name "src"] := by decide
    rw [Path.components_join hp (by decide), hsrc]
    simp

theorem same_of_components_eq {p q : String} (h : Path.components p = Path.components q) : Path.same p q = true := by
  rw [Path.same, h, beq_self_eq_true]

theorem isLocalImport_join {ns : List String} (h : ∀ s ∈ ns, IsStep s) : isLocalImport (Text.join "/" ns) = false := by
  by_cases hne : ns = []
  · subst hne
    decide
  · exact isLocalImport_of_isPlainPath (isPlainPath_join hne h)

section Below

variable {base rel : String} (hdir : Path.Direct dir) (hrel : Path.relative? dir (Path.join base "src") = some rel)

include hdir hrel

theorem isLocalImport_of_relative? : isLocalImport rel = false := by
  obtain ⟨bs, rs, hnames, -, rfl⟩ := hdir.names_of_relative? (components_join_ne_nil base) hrel
  exact isLocalImport_join fun s hs => hdir.isStep s (hnames ▸ List.mem_append_right _ hs)

theorem components_of_relative? : Path.components (Path.join (Path.join base "src") rel) = Path.components dir :=
  hdir.components_join_relative? (components_join_ne_nil base) hrel

theorem holdsPackage_of_relative? : holdsPackage d (Path.join (Path.join base "src") rel) = holdsPackage d dir :=
  holdsPackage_congr (Path.splitPath_congr (components_of_relative? hdir hrel))

end Below

theorem foundAgain_std (hp : d.Named) (hdir : Path.Direct dir) (hholds : holdsPackage d dir = true)
    (hrel : Path.relative? dir b.gorootSrc = some importPath) (e : Expiry) : FoundAgain d b dir importPath true e := by
  have hthere : holdsPackage d (Path.join b.gorootSrc importPath) = true :=
    (holdsPackage_of_relative? hdir hrel).trans hholds
  have hstd := (hasGoFiles_make (b := b) hp (Path.join b.gorootSrc importPath) e).1.trans hthere
  refine ⟨{ dir := Path.join b.gorootSrc importPath, importPath, goroot := true }, ?_,
    same_of_components_eq (components_of_relative? hdir hrel), rfl⟩
  rw [findPackage, isLocalImport_of_relative? hdir hrel, if_neg Bool.false_ne_true, bind_apply hstd]
  rfl

/-! ## Modules -/

namespace Description.Governs

variable {M : Description} (h : M.Governs d b dir importPath)

include h

theorem root_above : M.root <+: splitPath (Path.clean dir) := by
  obtain ⟨ns, hns, hpre, -⟩ := exists_of_modFileAt h.seen
  obtain ⟨rfl, -⟩ := List.append_inj' hns rfl
  exact hpre

theorem isName_root : ∀ s ∈ M.root, IsName s := fun _ hs => isName_of_mem_splitPath (h.root_above.subset hs)

section Below

variable {rel : String} (hdir : Path.Direct dir) (hrel : Path.relative? dir (pathOf M.root) = some rel)
  (hbelow : importPath = M.pathBelow rel)

include hdir hrel hbelow

/-- The module searches the directory, and no other. -/
theorem searchedFor_eq (stdFirst : Bool) :
    M.searchedFor d b stdFirst importPath M.file.module = [pathOf (splitPath dir)] := by
  have hne : rel ≠ "" := by
    rintro rfl
    exact h.notMain (by rw [hbelow, Description.pathBelow, if_pos rfl])
  have hsuffix : suffix importPath M.file.module = rel := by
    have htext : importPath.toList = M.file.module.toList ++ '/' :: rel.toList := by
      simp [hbelow, Description.pathBelow, hne, toString]
    rw [suffix, htext, ← String.length_toList, ← List.drop_drop, List.drop_left]
    simp
  have hroot : ∀ s ∈ M.root, IsStep s := fun s hs => hdir.isStep s ((hdir.splitPath_clean ▸ h.root_above).subset hs)
  have hcomponents : Path.components (pathOf M.root) = .root :: M.root.map .name :=
    Path.components_pathOf (fun s hs => (hroot s hs).1) fun hup => (hroot _ hup).2 rfl
  obtain ⟨bs, rs, hnames, hbase, rfl⟩ := hdir.names_of_relative? (by simp [hcomponents]) hrel
  obtain rfl : M.root = bs :=
    List.map_injective_iff.mpr (fun _ _ => Path.Component.name.inj) (List.cons.inj (hcomponents.symm.trans hbase)).2
  have hplace : place (pathOf M.root) (Text.join "/" rs) = pathOf (splitPath dir) := by
    rw [place, Path.clean_join_pathOf hroot fun s hs => hdir.isStep s (hnames ▸ List.mem_append_right _ hs), hnames]
  have hprovided : provided d (pathOf M.root) M.file M.sums M.file.module =
      some { dir := some (pathOf M.root), path := M.file.module } := by rw [provided, if_pos rfl]
  rw [Description.searchedFor, hprovided]
  simp only [hsuffix]
  rw [if_neg fun hmain => hne hmain.2, hplace]

end Below

theorem settled_searchModule (hp : d.Named) {rel : String} (hdir : Path.Direct dir)
    (hrel : Path.relative? dir (pathOf M.root) = some rel) (hbelow : importPath = M.pathBelow rel)
    (hholds : holdsPackage d dir = true) :
    Settled (shown d) d (Noted d b) (searchModule d b (pathOf M.root) importPath)
      (· = .ok ⟨pathOf (splitPath dir), importPath, false, some M.file.module⟩) := by
  obtain ⟨data, hread, hparse⟩ := h.file
  have hroot : AskablePath (shown d) d M.root := splitPath_pathOf h.isName_root ▸ askable_shown (pathOf M.root)
  have hholds' : holdsPackage d (pathOf (splitPath dir)) = true :=
    (holdsPackage_congr (splitPath_pathOf fun s hs => (hdir.isStep s hs).1)).trans hholds
  have hfound : (M.moduleRoot d).located? d b importPath =
      some ⟨pathOf (splitPath dir), importPath, false, some M.file.module⟩ := by
    rw [Description.located?_eq h.isName_root h.plain, Description.resolution, h.governs, Option.bind_some,
      h.searchedFor_eq hdir hrel hbelow, List.find?_cons_of_pos hholds', Option.map_some]
  refine (ModuleRoot.settled_load hp h.isName_root hroot hread fun _ _ _ _ _ => askable_shown _).bind fun x hx => ?_
  rw [hx, ModuleRoot.ofText, hparse, ← h.sums]
  rcases ModuleRoot.find_cases d b (M.moduleRoot d) importPath with ⟨_, -, hnone⟩ | ⟨r, q, sub, _, hcov, hmain, hfind⟩
  · rw [hnone] at hfound
    cases hfound
  · rw [Description.covering?_eq h.plain, h.governs, Option.bind_some] at hcov
    obtain ⟨r, hr, heq⟩ := Option.map_eq_some_iff.mp hcov
    cases heq
    rw [Description.places_eq h.isName_root hr hmain, h.searchedFor_eq hdir hrel hbelow] at hfind
    simp only
    rw [hfind]
    refine ((settled_hasGoFiles_of_holds hp hholds').bind fun x hx => ?_ :
      Settled _ _ _ (ModuleRoot.firstPackage d [pathOf (splitPath dir)]) (· = some (pathOf (splitPath dir)))).bind
        fun x hx => ?_
    · subst hx
      exact .pure rfl
    · subst hx
      exact .pure rfl

end Description.Governs

theorem foundAgain_module (hp : d.Named) (hdir : Path.Direct dir) (hholds : holdsPackage d dir = true)
    (hstd : holdsPackage d (Path.join b.gorootSrc importPath) = false)
    (huses : usesModules d b (Path.clean dir) = true) {M : Description} (h : M.Governs d b dir importPath)
    {rel : String}
    (hrel : Path.relative? dir (pathOf M.root) = some rel) (hbelow : importPath = M.pathBelow rel) (e : Expiry) :
    FoundAgain d b dir importPath false e := by
  have hsame : Path.same (pathOf (splitPath dir)) dir = true := by
    refine same_of_components_eq ?_
    rw [Path.components_pathOf (fun s hs => (hdir.isStep s hs).1) fun hup => (hdir.isStep _ hup).2 rfl,
      hdir.components_eq]
  refine foundAgain_of_settled hp (isLocalImport_of_isPlainPath h.plain) hstd
    (p := ⟨pathOf (splitPath dir), importPath, false, some M.file.module⟩) hsame rfl ?_ e
  rw [huses, if_pos rfl]
  exact settled_findInModule hp (truthful_noted d b) (askable_shown _) h.seen huses
    (h.settled_searchModule hp hdir hrel hbelow hholds)

/-! ## Workspaces -/

section Workspace

variable (hwork : workspacePath? b dir = some importPath)

include hwork

/-- The first workspace that holds a directory is asked after what is asked before. -/
theorem exists_workspace : ∃ gp dirs later, Path.relative? dir (Path.join gp "src") = some importPath ∧
    vendored (b.gorootSrc :: b.gopath.map (Path.join · "src")) importPath (Path.clean dir) ++
        rooted (b.gorootSrc :: b.gopath.map (Path.join · "src")) importPath =
      dirs ++ (Path.join (Path.join gp "src") importPath,
        { dir := Path.join (Path.join gp "src") importPath, importPath }) :: later ∧
    dirs.map (·.1) = askedBefore b dir importPath := by
  obtain ⟨earlier, gp, later, hgopath, hgp, hearlier⟩ := List.findSome?_eq_some_iff.mp hwork
  have htake : (b.gopath.takeWhile fun gp =>
      ((Path.relative? dir (Path.join gp "src")).filter (· != "")).isNone) = earlier := by
    rw [hgopath, List.takeWhile_append_of_pos fun x hx => by simp [hearlier x hx],
      List.takeWhile_cons_of_neg (by simp [hgp]), List.append_nil]
  let below (goroot : Bool) (root : String) : String × PackagePath :=
    (Path.join root importPath, { dir := Path.join root importPath, importPath, goroot })
  refine ⟨gp, vendored (b.gorootSrc :: b.gopath.map (Path.join · "src")) importPath (Path.clean dir) ++
    below true b.gorootSrc :: earlier.map fun gp => below false (Path.join gp "src"),
    later.map fun gp => below false (Path.join gp "src"), (Option.filter_eq_some_iff.mp hgp).1, ?_, ?_⟩
  · have hmap : rooted (b.gorootSrc :: b.gopath.map (Path.join · "src")) importPath =
        below true b.gorootSrc :: (b.gopath.map (Path.join · "src")).map (below false) := rfl
    rw [hmap, hgopath]
    simp [below, Function.comp_def]
  · rw [askedBefore, htake]
    simp [below]

end Workspace

theorem foundAgain_workspace (hp : d.Named) (hdir : Path.Direct dir) (hholds : holdsPackage d dir = true)
    (hstd : holdsPackage d (Path.join b.gorootSrc importPath) = false)
    (huses : usesModules d b (Path.clean dir) = false) (hwork : workspacePath? b dir = some importPath)
    (hbefore : ∀ p ∈ askedBefore b dir importPath, ¬ IsDir d p)
    (hcache : ∀ cached module version, cachedModule? (Path.clean dir) = some (cached, module, version) →
      ¬ Covers module importPath) (e : Expiry) : FoundAgain d b dir importPath false e := by
  obtain ⟨gp, dirs, later, hrel, hdirs, hasked⟩ := exists_workspace hwork
  have hnone : findInModCache d importPath dir = pure none := by
    rcases findInModCache_cases d importPath dir with hnone | ⟨cached, module, version, sub, hmod, heq, hrest, -⟩
    · exact hnone
    · exact absurd (covers_of_isRest heq hrest) (hcache cached module version hmod)
  have hfirst : (vendored (b.gorootSrc :: b.gopath.map (Path.join · "src")) importPath (Path.clean dir) ++
      rooted (b.gorootSrc :: b.gopath.map (Path.join · "src")) importPath).find? (fun x => IsDir d x.1) =
      some (Path.join (Path.join gp "src") importPath,
        { dir := Path.join (Path.join gp "src") importPath, importPath }) := by
    rw [hdirs, List.find?_append, List.find?_eq_none.mpr, Option.none_or, List.find?_cons_of_pos]
    · exact decide_eq_true (isDir_of_holdsPackage ((holdsPackage_of_relative? hdir hrel).trans hholds))
    · intro x hx
      simpa using hbefore x.1 (hasked ▸ List.mem_map_of_mem hx)
  have hsearch : Settled (shown d) d (Noted d b) (searchRoots d b importPath (Path.clean dir))
      (· = .ok { dir := Path.join (Path.join gp "src") importPath, importPath }) := by
    refine (settled_firstDir hp fun x _ => askable_shown x.1).bind fun x hx => ?_
    rw [hfirst] at hx
    subst hx
    exact .pure rfl
  refine foundAgain_of_settled hp (isLocalImport_of_relative? hdir hrel) hstd
    (p := { dir := Path.join (Path.join gp "src") importPath, importPath })
    (same_of_components_eq (components_of_relative? hdir hrel)) rfl ?_ e
  rw [huses, if_neg Bool.false_ne_true, hnone, pure_bind]
  exact settled_findInGopath (truthful_noted d b) (askable_shown _) huses hsearch

/-! ## The way back -/

namespace TwoWorkspaces

def folder : DiskEntry := ⟨.dir, 0⟩

def source : DiskEntry := ⟨.file [] none, 0⟩

/-- A package in the second of two workspaces, and one in the standard library. -/
def disk (std : String) : Disk := ⟨[
  (["g"], folder), (["g", "src"], folder), (["g", "src", "p"], folder), (["g", "src", "p", "p.go"], source),
  (["h"], folder), (["h", "src"], folder),
  (["r"], folder), (["r", "src"], folder), (["r", "src", std], folder), (["r", "src", std, "x.go"], source)]⟩

def settings : BuildContext := ⟨"/r", ["/h", "/g"], "linux", "amd64", [], false, ⟨[("GO111MODULE", "off")]⟩⟩

theorem holdsPackage_disk (std : String) (hstd : std = "p" ∨ std = "q") :
    holdsPackage (disk std) "/g/src/p" = true := by
  have hsplit : splitPath "/g/src/p" = ["g", "src", "p"] := by decide
  rcases hstd with rfl | rfl
  all_goals
    rw [holdsPackage_of_locate (l := ["g", "src", "p"]) (m := 0) _ (by decide)]
    · decide
    · rw [hsplit, Disk.locate_pathOf (by decide) (by decide) (by decide) (by decide)]
      cbv

theorem importPathOf_disk (std : String) :
    (importPathOf (disk std) settings "/g/src/p" (Vfs.make .never)).1 = ("p", false) := by
  have hstd : Path.relative? "/g/src/p" settings.gorootSrc = none := by decide
  have hwork : (settings.gopath.findSome? fun gp =>
      (Path.relative? "/g/src/p" (Path.join gp "src")).filter (· != "")) = some "p" := by decide
  rw [importPathOf, hstd]
  simp only [hwork]
  rfl

theorem not_isDir_disk {p : String} (hp : p ∈ askedBefore settings "/g/src/p" "p") : ¬ IsDir (disk "q") p := by
  have hasked : askedBefore settings "/g/src/p" "p" =
      ["/g/src/p/vendor/p", "/g/src/vendor/p", "/r/src/p", "/h/src/p"] := by decide
  rw [hasked] at hp
  refine not_isDir_of_not_locate (e := .notFound) ?_
  simp only [List.mem_cons, List.not_mem_nil, or_false] at hp
  rcases hp with rfl | rfl | rfl | rfl
  all_goals
    rw [Disk.locate_pathOf (by decide) (by decide) (by decide) (by decide)]
    cbv

theorem unshadowed_disk : Unshadowed (disk "q") settings "/g/src/p" "p" where
  std := holdsPackage_of_not_isDir (not_isDir_disk (by decide))
  owned h := absurd h (by decide)
  first _ := by
    refine ⟨by decide, fun p hp => not_isDir_disk hp, fun cached module version hmod => ?_⟩
    have hnone : cachedModule? (Path.clean "/g/src/p") = none := by decide
    rw [hnone] at hmod
    cases hmod

end TwoWorkspaces

end EditorAgent.Go

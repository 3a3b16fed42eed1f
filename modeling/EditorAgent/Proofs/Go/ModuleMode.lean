import EditorAgent.Proofs.Disk.Linkless
import EditorAgent.Proofs.Go.Requirements
import Mathlib

/-!
# Finding packages with a module

Where modules are in use, a package that is not in the standard library is found by one rule: the longest
required path that covers the import path decides which directories come into question, and the first of
them that holds a package is it. The tree through which the directories are looked at keeps a place for
every name it was asked for, so the rule is stated for lookups that leave no searched directory by the name
of a source that is not there.
-/

namespace EditorAgent.Go

open Vfs

/-! ## The rule -/

/-- A module as its files describe it. -/
structure Description where
  /-- The place of the module. -/
  root : List String
  file : ModFile
  /-- The versions in `go.sum`. -/
  sums : List Require

/-- A path below a directory, clean. -/
def place (base sub : String) : String := Path.clean (Path.join base sub)

/-- Whether the first element of an import path has a dot. -/
def isDotted (importPath : String) : Bool := (importPath.toList.takeWhile (· != '/')).contains '.'

/-- The vendor directories above a module, the nearest first, up to a root of packages or of the disk. -/
def vendorsAbove (roots : List String) (root : List String) : List String :=
  (root.inits.dropLast.reverse.takeWhile fun ns =>
    decide (ns ≠ [] ∧ ∀ r ∈ roots, Path.same (pathOf ns) r = false)).map fun ns => pathOf (ns ++ ["vendor"])

namespace Description

variable (M : Description)

/-- The path that decides about an import path. -/
def governing? (importPath : String) : Option String := Go.governing? M.file M.sums importPath

/-- The directories of a required package: what the module vendors, the module caches, what is vendored
above the module, and what the standard library vendors. -/
def requiredPlaces (b : BuildContext) (stdFirst : Bool) (r : Requirement) (importPath sub : String) : List String :=
  let own := [place (pathOf (M.root ++ ["vendor"])) importPath]
  let cached := b.gopath.map fun gp => place (Path.join gp (cacheName r.path r.version)) sub
  let above := (vendorsAbove (b.gorootSrc :: b.gopath.map (Path.join · "src")) M.root).map (place · importPath)
  let std := [place (Path.join b.gorootSrc "vendor") importPath]
  if stdFirst then std ++ own ++ cached ++ above else own ++ cached ++ above ++ std

/-- The directories that are searched for an import path, given the path that decides. The module itself is
no package, and a directory that is named leaves no choice. -/
def searchedFor (d : Disk) (b : BuildContext) (stdFirst : Bool) (importPath q : String) : List String :=
  match provided d (pathOf M.root) M.file M.sums q with
  | none => []
  | some r =>
    if q = M.file.module ∧ suffix importPath q = "" then []
    else match r.dir with
      | some dir => [place dir (suffix importPath q)]
      | none => M.requiredPlaces b stdFirst r importPath (suffix importPath q)

def searched (d : Disk) (b : BuildContext) (stdFirst : Bool) (importPath : String) : List String :=
  ((M.governing? importPath).map (M.searchedFor d b stdFirst importPath)).getD []

/-- Where a package is found. -/
def resolution (d : Disk) (b : BuildContext) (stdFirst : Bool) (importPath : String) : Option PackagePath :=
  (M.governing? importPath).bind fun q =>
    ((M.searchedFor d b stdFirst importPath q).find? (holdsPackage d)).map (⟨·, importPath, false, some q⟩)

/-- The paths that are asked for beside the searched directories: the package in the standard library, the
source directory, and the directories of replacements. -/
def asked (b : BuildContext) (importPath srcDir : String) : List String :=
  Path.join b.gorootSrc importPath :: Path.clean srcDir ::
    (M.file.replace.filter Replace.isLocal).map fun r => place (pathOf M.root) r.newPath

end Description

/-- No path leaves a searched directory by the name of a source that is not there. -/
def StaysOn (d : Disk) (searched paths : List String) : Prop :=
  ∀ dir ∈ searched, ∀ p ∈ paths, ∀ s ∈ splitPath p, isPackageFileName s = true →
    splitPath dir ++ [s] <+: splitPath p → s ∈ d.names (pathOf (splitPath dir))

instance (d : Disk) (searched paths : List String) : Decidable (StaysOn d searched paths) :=
  inferInstanceAs (Decidable (∀ dir ∈ searched, ∀ p ∈ paths, ∀ s ∈ splitPath p, _))

/-- The files of a module are as they are described. -/
structure Description.Holds (M : Description) (d : Disk) : Prop where
  file : ∃ text, d.read (pathOf (M.root ++ ["go.mod"])) = .ok text ∧ ModFile.parse (Utf8.lossy text) = .ok M.file
  sums : M.sums = sumsAt d M.root

/-- A lookup that falls to a module. -/
structure Description.Decides (M : Description) (d : Disk) (b : BuildContext) (importPath srcDir : String) : Prop
    extends M.Holds d where
  named : d.Named
  plain : IsPlainPath importPath
  notStd : holdsPackage d (Path.join b.gorootSrc importPath) = false
  enabled : usesModules d b (Path.clean srcDir) = true
  seen : modFileAt d srcDir = some (M.root ++ ["go.mod"])

/-! ## The order of the directories -/

variable {d : Disk} {b : BuildContext} {M : Description} {importPath srcDir : String}

theorem takeWhile_congr {α : Type} {p q : α → Bool} {xs : List α} (h : ∀ x ∈ xs, p x = q x) :
    xs.takeWhile p = xs.takeWhile q := by
  induction xs with
  | nil => rfl
  | cons x xs ih =>
    rw [List.takeWhile_cons, List.takeWhile_cons, h x List.mem_cons_self,
      ih fun y hy => h y (List.mem_cons_of_mem _ hy)]

section Places

variable {root : List String} (hroot : ∀ s ∈ root, IsName s)

include hroot

theorem outerVendors_eq (name : String) (rs : List (String × Requirement)) (roots : List String) :
    ModuleRoot.outerVendors ⟨pathOf root, name, rs⟩ roots = vendorsAbove roots root := by
  have hnames : ∀ ns ∈ root.inits.dropLast.reverse, ∀ s ∈ ns, IsName s := by
    intro ns hns s hs
    have hpre : ns <+: root := by simpa using List.mem_of_mem_dropLast (List.mem_reverse.mp hns)
    exact hroot s (hpre.subset hs)
  have hstop : ∀ ns ∈ root.inits.dropLast.reverse,
      ((fun p => !roots.any (Path.same p) && (Path.parent? p).isSome) ∘ pathOf) ns =
        decide (ns ≠ [] ∧ ∀ r ∈ roots, Path.same (pathOf ns) r = false) := by
    intro ns hns
    rcases List.eq_nil_or_concat ns with rfl | ⟨front, s, rfl⟩
    · simp [Path.parent?_pathOf_nil]
    · have hall : (∀ t ∈ front, IsName t) ∧ IsName s := by simpa [or_imp, forall_and] using hnames _ hns
      rw [Bool.eq_iff_iff]
      simp [Path.parent?_pathOf_concat hall.1 hall.2]
  rw [ModuleRoot.outerVendors, vendorsAbove, Path.ancestors_pathOf hroot, List.takeWhile_map, List.map_map,
    takeWhile_congr hstop]
  refine List.map_congr_left fun ns hns => ?_
  exact Path.join_pathOf (hnames ns ((List.takeWhile_sublist _).subset hns)) (by decide)

end Places

namespace Description

theorem candidates_eq (hroot : ∀ s ∈ M.root, IsName s) (name : String) (rs : List (String × Requirement))
    (r : Requirement) (importPath sub : String) :
    ModuleRoot.candidates b ⟨pathOf M.root, name, rs⟩ r importPath sub =
      M.requiredPlaces b (!isDotted importPath) r importPath sub := by
  have hown : Path.join (pathOf M.root) "vendor" = pathOf (M.root ++ ["vendor"]) :=
    Path.join_pathOf hroot (by decide)
  rw [ModuleRoot.candidates, requiredPlaces, isDotted]
  simp only [outerVendors_eq hroot, hown]
  cases (importPath.toList.takeWhile (· != '/')).contains '.' <;> rfl

/-- A module as its files describe it, with all its requirements. -/
abbrev moduleRoot (M : Description) (d : Disk) : ModuleRoot :=
  ⟨pathOf M.root, M.file.module, ModuleRoot.requirementList d (pathOf M.root) M.file M.sums⟩

theorem covering?_eq (hplain : IsPlainPath importPath) :
    (M.moduleRoot d).covering? importPath = (M.governing? importPath).bind fun q =>
      (provided d (pathOf M.root) M.file M.sums q).map fun r => (r, q, suffix importPath q) :=
  covering?_requirementList hplain

theorem places_eq (hroot : ∀ s ∈ M.root, IsName s) {q : String} {r : Requirement}
    (hr : provided d (pathOf M.root) M.file M.sums q = some r)
    (hmain : ¬ (q = M.file.module ∧ suffix importPath q = "")) :
    ModuleRoot.places b (M.moduleRoot d) r importPath (suffix importPath q) =
      M.searchedFor d b (!isDotted importPath) importPath q := by
  rw [searchedFor, hr, ModuleRoot.places]
  simp only
  rw [if_neg hmain]
  cases r.dir with
  | some dir => rfl
  | none => exact candidates_eq hroot _ _ _ _ _

/-- A module finds packages by the rule. -/
theorem located?_eq (hroot : ∀ s ∈ M.root, IsName s) (hplain : IsPlainPath importPath) :
    (M.moduleRoot d).located? d b importPath = M.resolution d b (!isDotted importPath) importPath := by
  rw [ModuleRoot.located?, covering?_eq hplain, resolution]
  cases M.governing? importPath with
  | none => rfl
  | some q =>
    simp only [Option.bind_some]
    cases hr : provided d (pathOf M.root) M.file M.sums q with
    | none => simp [searchedFor, hr]
    | some r =>
      simp only [Option.map_some, Option.bind_some]
      by_cases hmain : q = M.file.module ∧ suffix importPath q = ""
      · rw [if_pos hmain, searchedFor, hr]
        simp only
        rw [if_pos hmain, List.find?_nil, Option.map_none]
      · rw [if_neg hmain, places_eq hroot hr hmain]

end Description

/-! ## What the tree is asked -/

/-- The names that a tree that was asked for some paths is trusted with: those that are there, and those by
which no path goes on. -/
def trustFor (d : Disk) (paths : List String) : Trust := fun ns s =>
  s ∈ d.names (pathOf ns) ∨ ∀ p ∈ paths, ¬ ns ++ [s] <+: splitPath p

theorem trustFor_mono {paths paths' : List String} (h : paths ⊆ paths') {ns : List String} {s : String}
    (ht : trustFor d paths' ns s) : trustFor d paths ns s :=
  ht.imp_right fun hno p hp => hno p (h hp)

theorem askable_of_mem {paths : List String} {p : String} (hp : p ∈ paths) :
    AskablePath (trustFor d paths) d (splitPath p) :=
  fun _ _ hpre => ⟨(isName_of_mem_splitPath (hpre.subset (by simp))).1,
    fun _ ht _ => ht.resolve_right fun hno => hno p hp hpre⟩

theorem StaysOn.searchable {searched paths : List String} (h : StaysOn d searched paths) (hsub : searched ⊆ paths)
    {dir : String} (hdir : dir ∈ searched) : Searchable (trustFor d paths) d dir := by
  refine ⟨askable_of_mem (hsub hdir), fun s hs => ?_⟩
  by_cases hin : s ∈ d.names (pathOf (splitPath dir))
  · exact .inl hin
  · exact .inr fun p hp hpre => hin (h dir hdir p hp s (hpre.subset (by simp)) hs hpre)

/-- A path alone does not lead out of where it leads. -/
theorem staysOn_self (d : Disk) (dir : String) : StaysOn d [dir] [dir] := by
  intro dir' hdir p hp s _ _ hpre
  obtain rfl := List.mem_singleton.mp hdir
  obtain rfl := List.mem_singleton.mp hp
  have hlength := hpre.length_le
  rw [List.length_append, List.length_singleton] at hlength
  omega

/-- What a directory holds is told by what stands right below its place. -/
theorem holdsPackage_of_locate {dir : String} {l : Location} {m : Int}
    (hl : d.locate (pathOf (splitPath dir)) true = .ok l) (hdir : d.get? l = some ⟨.dir, m⟩) :
    holdsPackage d dir = (d.below l).any (isPackageFileName ·.1) := by
  have hkind : IsDir d dir := by
    rw [IsDir, Disk.kindAt, Disk.entry, hl]
    simp [hdir, Item.kind]
  have hnames : d.names (pathOf (splitPath dir)) = (d.below l).map (·.1) := by
    rw [Disk.names, Disk.list, hl]
    simp [hdir]
  rw [holdsPackage, hnames, decide_eq_true hkind, Bool.true_and, List.any_map]
  rfl

theorem isLocalImport_of_isPlainPath (h : IsPlainPath importPath) : isLocalImport importPath = false := by
  have hopen : ∀ e, e = "." ∨ e = ".." → ¬ Covers e importPath := by
    intro e he hcov
    have hmem : e ∈ Text.split (· == '/') importPath := by
      have hself : e ∈ Text.split (· == '/') e := by
        rcases he with rfl | rfl <;> decide
      rcases covers_iff.mp hcov with rfl | ⟨t, rfl⟩
      · exact hself
      · rw [Path.split_append_slash]
        exact List.mem_append_left _ hself
    exact he.elim (h e hmem).2.1 (h e hmem).2.2
  have hhere := hopen "." (.inl rfl)
  have hup := hopen ".." (.inr rfl)
  have hslash : "." ++ "/" = "./" ∧ ".." ++ "/" = "../" := by decide
  rw [Covers, hslash.1] at hhere
  rw [Covers, hslash.2] at hup
  rw [isLocalImport]
  simp only [not_or, Bool.not_eq_true] at hhere hup
  simp [hhere, hup, Ne.symm hhere.1, Ne.symm hup.1]

/-! ## Finding a package -/

theorem bind_apply {σ α β : Type} {act : StateM σ α} {s : σ} {a : α} (h : (act s).1 = a) (f : α → StateM σ β) :
    (act >>= f) s = f a (act s).2 := by
  rw [← h]
  rfl

/-- What is not in the standard library is looked for with a module or without one. -/
theorem findPackage_of_not_std {t : Tree} (srcDir : String) (hlocal : isLocalImport importPath = false)
    (hno : (hasGoFiles d (Path.join b.gorootSrc importPath) t).1 = false) :
    ∃ other, findPackage d b importPath srcDir t =
      (do if ← modEnabled d b srcDir then findInModule d b importPath srcDir else other : StateM Tree _)
        (hasGoFiles d (Path.join b.gorootSrc importPath) t).2 := by
  rw [findPackage, hlocal, if_neg Bool.false_ne_true]
  exact ⟨_, bind_apply hno _⟩

namespace Description.Decides

variable (h : M.Decides d b importPath srcDir)

include h

theorem root_above : M.root <+: splitPath (Path.clean srcDir) := by
  obtain ⟨ns, hns, hpre, -⟩ := exists_of_modFileAt h.seen
  obtain ⟨rfl, -⟩ := List.append_inj' hns rfl
  exact hpre

theorem isName_root : ∀ s ∈ M.root, IsName s :=
  fun _ hs => isName_of_mem_splitPath (h.root_above.subset hs)

/-- The module is read as it is described, and finds what it finds on the disk. -/
theorem settled_searchModule {paths : List String}
    (hpaths : M.asked b importPath srcDir ++ M.searched d b (!isDotted importPath) importPath ⊆ paths)
    (hstays : StaysOn d (M.searched d b (!isDotted importPath) importPath) paths) :
    Settled (trustFor d paths) d (Noted d b) (searchModule d b (pathOf M.root) importPath)
      fun r => r.toOption = (M.moduleRoot d).located? d b importPath := by
  obtain ⟨data, hread, hparse⟩ := h.file
  have hasked := (List.append_subset.mp hpaths).1
  have hroot : AskablePath (trustFor d paths) d M.root := (askable_of_mem (hasked (by simp [asked]))).above h.root_above
  refine (ModuleRoot.settled_load h.named h.isName_root hroot hread fun m hm r hr hlocal => ?_).bind fun x hx => ?_
  · obtain rfl : M.file = m := Except.ok.inj (hparse.symm.trans hm)
    refine askable_of_mem (hasked ?_)
    simp only [asked, List.mem_cons, List.mem_map, List.mem_filter]
    exact .inr (.inr ⟨r, ⟨hr, hlocal⟩, rfl⟩)
  · rw [hx, ModuleRoot.ofText, hparse, ← h.sums]
    refine ModuleRoot.settled_find h.named fun r matched sub hcov hmain dir hdir => ?_
    rw [covering?_eq h.plain] at hcov
    obtain ⟨q, hgov, hq⟩ := Option.bind_eq_some_iff.mp hcov
    obtain ⟨r, hr, heq⟩ := Option.map_eq_some_iff.mp hq
    cases heq
    rw [places_eq h.isName_root hr hmain] at hdir
    exact hstays.searchable (List.append_subset.mp hpaths).2 (by simpa [searched, hgov] using hdir)

theorem settled_modEnabled_findInModule {paths : List String}
    (hpaths : M.asked b importPath srcDir ++ M.searched d b (!isDotted importPath) importPath ⊆ paths)
    (hstays : StaysOn d (M.searched d b (!isDotted importPath) importPath) paths)
    (other : StateM Tree (Except ImportError PackagePath)) :
    Settled (trustFor d paths) d (Noted d b)
      (do if ← modEnabled d b srcDir then findInModule d b importPath srcDir else other)
      fun r => r.toOption = (M.moduleRoot d).located? d b importPath := by
  have hsrc : AskablePath (trustFor d paths) d (splitPath (Path.clean srcDir)) :=
    askable_of_mem ((List.append_subset.mp hpaths).1 (by simp [asked]))
  refine (settled_modEnabled h.named hsrc fun _ _ => (truthful_noted d b).flag_iff).bind fun x hx => ?_
  rw [h.enabled] at hx
  subst hx
  exact Go.settled_findInModule h.named (truthful_noted d b) hsrc h.seen h.enabled
    (h.settled_searchModule hpaths hstays)

/-- Nothing that was looked at before stands in the way of the module. -/
theorem findPackage_eq_located?
    (hstays : StaysOn d (M.searched d b (!isDotted importPath) importPath)
      (M.asked b importPath srcDir ++ M.searched d b (!isDotted importPath) importPath)) (e : Expiry) :
    (findPackage d b importPath srcDir (Vfs.make e)).1.toOption = (M.moduleRoot d).located? d b importPath := by
  -- The standard library is asked first, when no other path was.
  have hself := (staysOn_self d (Path.join b.gorootSrc importPath)).searchable (List.Subset.refl _) List.mem_cons_self
  obtain ⟨x, hx, hstd⟩ := settled_hasGoFiles h.named hself
  have hasked := hstd _ (coherent_make _ d (Noted d b) e)
  have hno := hasked.2.2.trans (hx.trans h.notStd)
  obtain ⟨other, hother⟩ := findPackage_of_not_std srcDir (isLocalImport_of_isPlainPath h.plain) hno
  obtain ⟨x, hx, hrest⟩ := h.settled_modEnabled_findInModule (List.Subset.refl _) hstays other
  have hfound := hrest _ (hasked.1.mono fun _ _ => trustFor_mono (by simp [asked]))
  rw [hother, hfound.2.2, hx]

end Description.Decides

/-- A package that is not in the standard library is found by the rule of its module. -/
theorem findPackage_eq_resolution (h : M.Decides d b importPath srcDir)
    (hstays : StaysOn d (M.searched d b (!isDotted importPath) importPath)
      (M.asked b importPath srcDir ++ M.searched d b (!isDotted importPath) importPath)) (e : Expiry) :
    (findPackage d b importPath srcDir (Vfs.make e)).1.toOption =
      M.resolution d b (!isDotted importPath) importPath := by
  rw [h.findPackage_eq_located? hstays e, Description.located?_eq h.isName_root h.plain]

/-! ## A package that is vendored twice

The module and the standard library both vendor the package, whose path has no dot in its first element. -/

namespace VendoredTwice

def folder : DiskEntry := ⟨.dir, 0⟩

def source : DiskEntry := ⟨.file [] none, 0⟩

def modText : String := "module m\nrequire golang v1\n"

def disk : Disk := ⟨[
  (["m"], folder), (["m", "go.mod"], ⟨.file (Utf8.encode modText) none, 0⟩),
  (["m", "vendor"], folder), (["m", "vendor", "golang"], folder), (["m", "vendor", "golang", "x"], folder),
  (["m", "vendor", "golang", "x", "x.go"], source),
  (["r"], folder), (["r", "src"], folder), (["r", "src", "vendor"], folder),
  (["r", "src", "vendor", "golang"], folder), (["r", "src", "vendor", "golang", "x"], folder),
  (["r", "src", "vendor", "golang", "x", "x.go"], source)]⟩

def settings : BuildContext := ⟨"/r", ["/g"], "linux", "amd64", [], false, ⟨[("GO111MODULE", "on")]⟩⟩

def module : Description where
  root := ["m"]
  file := { module := "m", require := [⟨"golang", "v1"⟩] }
  sums := []

theorem locate_modFile : disk.locate (pathOf ["m", "go.mod"]) true = .ok ["m", "go.mod"] := by
  rw [Disk.locate_pathOf (by decide) (by decide) (by decide) (by decide)]
  cbv

theorem locate_sums : disk.locate (pathOf ["m", "go.sum"]) true = .error .notFound := by
  rw [Disk.locate_pathOf (by decide) (by decide) (by decide) (by decide)]
  cbv

theorem locate_std : disk.locate (pathOf ["r", "src", "golang", "x"]) true = .error .notFound := by
  rw [Disk.locate_pathOf (by decide) (by decide) (by decide) (by decide)]
  cbv

theorem locate_own : disk.locate (pathOf ["m", "vendor", "golang", "x"]) true = .ok ["m", "vendor", "golang", "x"] := by
  rw [Disk.locate_pathOf (by decide) (by decide) (by decide) (by decide)]
  cbv

theorem locate_vendored :
    disk.locate (pathOf ["r", "src", "vendor", "golang", "x"]) true = .ok ["r", "src", "vendor", "golang", "x"] := by
  rw [Disk.locate_pathOf (by decide) (by decide) (by decide) (by decide)]
  cbv

theorem modFileAt_disk : modFileAt disk "/m" = some ["m", "go.mod"] := by
  have hinits : (splitPath (Path.clean "/m")).inits.reverse = [["m"], []] := by decide
  have hkind : disk.kindAt (pathOf ["m", "go.mod"]) = some .file := by
    rw [Disk.kindAt, Disk.entry, locate_modFile]
    rfl
  rw [modFileAt, hinits, nearest]
  simp [hkind]

theorem lossy_modText : Utf8.lossy (Utf8.encode modText) = modText := by cbv

theorem parse_modText : ModFile.parse modText = .ok module.file := by cbv

theorem decides : module.Decides disk settings "golang/x" "/m" where
  named := by decide
  plain := by decide
  notStd := by
    have hsplit : splitPath (Path.join settings.gorootSrc "golang/x") = ["r", "src", "golang", "x"] := by decide
    have hdir : ¬ IsDir disk (Path.join settings.gorootSrc "golang/x") := by
      unfold IsDir
      rw [hsplit, Disk.kindAt, Disk.entry, locate_std]
      simp
    simp [holdsPackage, hdir]
  enabled := by decide
  seen := modFileAt_disk
  file := by
    have hroot : module.root ++ ["go.mod"] = ["m", "go.mod"] := rfl
    refine ⟨Utf8.encode modText, ?_, by rw [lossy_modText, parse_modText]⟩
    rw [hroot, Disk.read, Disk.entry, locate_modFile]
    rfl
  sums := by
    have hroot : module.root ++ ["go.sum"] = ["m", "go.sum"] := rfl
    rw [sumsAt, hroot, Disk.read, Disk.entry, locate_sums]
    rfl

theorem staysOn : StaysOn disk (module.searched disk settings (!isDotted "golang/x") "golang/x")
    (module.asked settings "golang/x" "/m" ++ module.searched disk settings (!isDotted "golang/x") "golang/x") := by
  decide

theorem holdsPackage_own : holdsPackage disk "/m/vendor/golang/x" = true := by
  have hsplit : splitPath "/m/vendor/golang/x" = ["m", "vendor", "golang", "x"] := by decide
  rw [holdsPackage_of_locate (m := 0) (hsplit ▸ locate_own) (by decide)]
  decide

theorem holdsPackage_std : holdsPackage disk "/r/src/vendor/golang/x" = true := by
  have hsplit : splitPath "/r/src/vendor/golang/x" = ["r", "src", "vendor", "golang", "x"] := by decide
  rw [holdsPackage_of_locate (m := 0) (hsplit ▸ locate_vendored) (by decide)]
  decide

/-- The package by its directory. -/
def package (dir : String) : PackagePath := ⟨dir, "golang/x", false, some "golang"⟩

theorem resolution_disk (stdFirst : Bool) : module.resolution disk settings stdFirst "golang/x" =
    some (package (if stdFirst then "/r/src/vendor/golang/x" else "/m/vendor/golang/x")) := by
  have hgoverning : module.governing? "golang/x" = some "golang" := by decide
  have hfirst : ∃ others, module.searchedFor disk settings stdFirst "golang/x" "golang" =
      (if stdFirst then "/r/src/vendor/golang/x" else "/m/vendor/golang/x") :: others := by
    cases stdFirst with
    | false => exact ⟨["/g/pkg/mod/golang@v1/x", "/r/src/vendor/golang/x"], by decide⟩
    | true => exact ⟨["/m/vendor/golang/x", "/g/pkg/mod/golang@v1/x"], by decide⟩
  obtain ⟨others, hothers⟩ := hfirst
  rw [Description.resolution, hgoverning, Option.bind_some, hothers, List.find?_cons_of_pos]
  · rfl
  · cases stdFirst with
    | false => exact holdsPackage_own
    | true => exact holdsPackage_std

/-- The standard library comes first. -/
theorem findPackage_disk :
    (findPackage disk settings "golang/x" "/m" (Vfs.make .never)).1 = .ok (package "/r/src/vendor/golang/x") := by
  have hfound := decides.findPackage_eq_located? staysOn .never
  rw [Description.located?_eq decides.isName_root decides.plain] at hfound
  have hfound := hfound.trans (resolution_disk true)
  cases hr : (findPackage disk settings "golang/x" "/m" (Vfs.make .never)).1 with
  | error e => simp [hr, Except.toOption] at hfound
  | ok p => simpa [hr, Except.toOption] using hfound

end VendoredTwice

theorem findPackage_eq_resolution_vendored :
    VendoredTwice.module.Decides VendoredTwice.disk VendoredTwice.settings "golang/x" "/m" ∧
      (findPackage VendoredTwice.disk VendoredTwice.settings "golang/x" "/m" (Vfs.make .never)).1.toOption =
        some (VendoredTwice.package "/r/src/vendor/golang/x") :=
  ⟨VendoredTwice.decides,
    (findPackage_eq_resolution VendoredTwice.decides VendoredTwice.staysOn .never).trans
      (VendoredTwice.resolution_disk true)⟩

/-- What the standard library vendors is not the last place that counts. -/
theorem findPackage_ne_resolution_std_last :
    VendoredTwice.module.Decides VendoredTwice.disk VendoredTwice.settings "golang/x" "/m" ∧
      (findPackage VendoredTwice.disk VendoredTwice.settings "golang/x" "/m" (Vfs.make .never)).1.toOption ≠
        VendoredTwice.module.resolution VendoredTwice.disk VendoredTwice.settings false "golang/x" := by
  refine ⟨VendoredTwice.decides, ?_⟩
  rw [VendoredTwice.findPackage_disk, VendoredTwice.resolution_disk]
  decide

end EditorAgent.Go

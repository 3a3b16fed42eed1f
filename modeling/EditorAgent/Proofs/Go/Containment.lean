import EditorAgent.Proofs.Go.ModuleMode

/-!
# Where packages lie

An import path that does not lead up names a package below a place in which packages are kept: the standard
library, a module or what replaces it, a vendor directory, a module cache or a workspace. What was looked up
before makes no difference, and neither does what the tree takes for a source, so the tree is trusted with
nothing.
-/

namespace EditorAgent.Go

open Vfs

/-! ## Places -/

/-- A package that a module finds: below the directory that is named for its path, or, if none is, in a vendor
directory or below the required version in a module cache. -/
inductive Description.Keeps (M : Description) (d : Disk) (b : BuildContext) (p : PackagePath) : Prop where
  | owned {q root : String} {r : Requirement} (hq : p.module = some q)
      (hr : provided d (pathOf M.root) M.file M.sums q = some r) (hdir : r.dir = some root) (h : Path.Within root p.dir)
  | vendored {q base : String} {r : Requirement} (hq : p.module = some q)
      (hr : provided d (pathOf M.root) M.file M.sums q = some r) (hdir : r.dir = none)
      (h : Path.Within (Path.join base "vendor") p.dir)
  | cached {q gp : String} {r : Requirement} (hq : p.module = some q)
      (hr : provided d (pathOf M.root) M.file M.sums q = some r) (hdir : r.dir = none) (hgp : gp ∈ b.gopath)
      (h : Path.Within (Path.join gp (cacheName r.path r.version)) p.dir)

/-- A package that is found without a module. -/
inductive Rooted (b : BuildContext) (p : PackagePath) : Prop where
  | std (hstd : p.goroot = true) (h : Path.Within b.gorootSrc p.dir)
  | vendored {base : String} (hstd : p.goroot = false) (h : Path.Within (Path.join base "vendor") p.dir)
  | workspace {gp : String} (hstd : p.goroot = false) (hgp : gp ∈ b.gopath) (h : Path.Within (Path.join gp "src") p.dir)

/-- A package as it is found from a directory. -/
inductive Contained (d : Disk) (b : BuildContext) (srcDir : String) (p : PackagePath) : Prop where
  | std (hstd : p.goroot = true) (h : Path.Within b.gorootSrc p.dir)
  | inModule {M : Description} (hstd : p.goroot = false) (huses : usesModules d b (Path.clean srcDir) = true)
      (hseen : modFileAt d srcDir = some (M.root ++ ["go.mod"])) (hM : M.Holds d) (h : M.Keeps d b p)
  | sibling {dir module version : String} (hstd : p.goroot = false) (huses : usesModules d b (Path.clean srcDir) = false)
      (hmod : cachedModule? (Path.clean srcDir) = some (dir, module, version)) (h : Path.Within dir p.dir)
  | rooted (huses : usesModules d b (Path.clean srcDir) = false) (h : Rooted b p)

/-! ## Searches -/

variable {τ : Trust} {d : Disk} {b : BuildContext} {ok : List String → CacheKey → CacheValue → Prop} {t : Tree}
  {importPath srcDir : String} {p : PackagePath} {ns : List String}

/-- A tree that is trusted with no name. -/
abbrev untrusted : Trust := fun _ _ => False

theorem askable_untrusted (path : String) : AskablePath untrusted d (splitPath path) :=
  fun _ _ hpre => ⟨(isName_of_mem_splitPath (hpre.subset (by simp))).1, fun _ h => h.elim⟩

theorem gives_hasGoFiles (hp : d.Named) {dir : String} (hdir : AskablePath τ d (splitPath dir))
    (ht : Coherent τ d ok t) : Gives τ d ok (hasGoFiles d dir) t fun _ _ => True := by
  refine (gives_namesAt hp ht hdir).bind fun r t₁ ht₁ _ _ => ?_
  cases r <;> exact .pure ht₁ trivial

theorem gives_firstPackage (hp : d.Named) (hτ : ∀ path, AskablePath τ d (splitPath path)) (dirs : List String)
    (ht : Coherent τ d ok t) :
    Gives τ d ok (ModuleRoot.firstPackage d dirs) t fun o _ => ∀ dir, o = some dir → dir ∈ dirs := by
  induction dirs generalizing t with
  | nil => exact .pure ht (by simp)
  | cons dir dirs ih =>
    refine (gives_hasGoFiles hp (hτ dir) ht).bind fun x t₁ ht₁ _ _ => ?_
    cases x with
    | true => exact .pure ht₁ (by simp)
    | false => exact (ih ht₁).mono fun o _ _ _ ho x hx => List.mem_cons_of_mem _ (ho x hx)

theorem gives_firstDir (hp : d.Named) (hτ : ∀ path, AskablePath τ d (splitPath path))
    (dirs : List (String × PackagePath)) (ht : Coherent τ d ok t) :
    Gives τ d ok (firstDir d dirs) t fun o _ => ∀ p, o = some p → ∃ x ∈ dirs, x.2 = p := by
  induction dirs generalizing t with
  | nil => exact .pure ht (by simp)
  | cons x dirs ih =>
    refine (gives_isDirAt hp ht (hτ x.1)).bind fun y t₁ ht₁ _ _ => ?_
    cases y with
    | true => exact .pure ht₁ fun p hp => ⟨x, List.mem_cons_self, by simpa using hp⟩
    | false =>
      refine (ih ht₁).mono fun o _ _ _ ho p hp => ?_
      obtain ⟨y, hy, heq⟩ := ho p hp
      exact ⟨y, List.mem_cons_of_mem _ hy, heq⟩

/-! ## With a module -/

theorem within_place (base : String) {sub : String} (h : Path.LeadsDown sub) : Path.Within base (place base sub) :=
  (Path.within_join base h).clean

namespace ModuleRoot

theorem gives_find (hp : d.Named) (hτ : ∀ path, AskablePath τ d (splitPath path)) (m : ModuleRoot) (importPath : String)
    (ht : Coherent τ d ok t) : Gives τ d ok (m.find d b importPath) t fun x _ => ∀ p, x = .ok p → p.goroot = false ∧
      ∃ r q sub, m.covering? importPath = some (r, q, sub) ∧ p.module = some q ∧
        p.dir ∈ places b m r importPath sub := by
  rcases find_cases d b m importPath with ⟨e, hfind, -⟩ | ⟨r, q, sub, e, hcov, -, hfind⟩
  · rw [hfind]
    exact .pure ht (by simp)
  · rw [hfind]
    refine (gives_firstPackage hp hτ _ ht).bind fun o t₁ ht₁ _ ho => ?_
    cases o with
    | none => exact .pure ht₁ (by simp)
    | some dir =>
      refine .pure ht₁ ?_
      rintro _ ⟨⟩
      exact ⟨rfl, r, q, sub, hcov, rfl, ho dir rfl⟩

end ModuleRoot

namespace Description

variable {M : Description}

theorem keeps_of_mem_places {r : Requirement} {q sub : String} (hq : p.module = some q)
    (hcov : (M.moduleRoot d).covering? importPath = some (r, q, sub)) (hdown : Path.LeadsDown importPath)
    (h : p.dir ∈ ModuleRoot.places b (M.moduleRoot d) r importPath sub) : M.Keeps d b p := by
  obtain ⟨hlookup, t, rfl, hrest, rfl⟩ := ModuleRoot.of_covering? hcov
  have hr := (ModuleRoot.lookup_requirementList d (pathOf M.root) M.file M.sums q).symm.trans hlookup
  have hsub := hdown.rest hrest
  rw [ModuleRoot.places] at h
  split at h
  · next dir hdir =>
    rw [List.mem_singleton] at h
    exact .owned hq hr hdir (h ▸ within_place dir hsub)
  · next hdir =>
    have hvendor : ∀ base, p.dir = place (Path.join base "vendor") (q ++ t) → M.Keeps d b p :=
      fun base heq => .vendored hq hr hdir (heq ▸ within_place (Path.join base "vendor") hdown)
    have houter : ∀ roots, p.dir ∈ ((M.moduleRoot d).outerVendors roots).map (place · (q ++ t)) → M.Keeps d b p := by
      intro roots hmem
      obtain ⟨_, hdir', heq⟩ := List.mem_map.mp hmem
      obtain ⟨base, -, rfl⟩ := List.mem_map.mp hdir'
      exact hvendor base heq.symm
    have hcached : p.dir ∈ (b.gopath.map fun gp => place (Path.join gp (cacheName r.path r.version))
        (String.ofList (t.toList.dropWhile (· == '/')))) → M.Keeps d b p := by
      intro hmem
      obtain ⟨gp, hgp, heq⟩ := List.mem_map.mp hmem
      exact .cached hq hr hdir hgp (heq ▸ within_place _ hsub)
    rw [ModuleRoot.candidates] at h
    simp only at h
    split at h
    all_goals simp only [List.mem_append, List.mem_singleton] at h
    · rcases h with ((h | h) | h) | h
      · exact hvendor _ h
      · exact hcached h
      · exact houter _ h
      · exact hvendor _ h
    · rcases h with ((h | h) | h) | h
      · exact hvendor _ h
      · exact hvendor _ h
      · exact hcached h
      · exact houter _ h

/-- What the module in a directory finds, it keeps. -/
theorem gives_searchModule (hp : d.Named) (hτ : ∀ path, AskablePath τ d (splitPath path)) (hns : ∀ s ∈ ns, IsName s)
    (hfile : d.kindAt (pathOf (ns ++ ["go.mod"])) = some .file) (ht : Coherent τ d ok t) :
    Gives τ d ok (searchModule d b (pathOf ns) importPath) t fun r _ => Path.LeadsDown importPath →
      ∀ p, r = .ok p → p.goroot = false ∧ ∃ M : Description, M.root = ns ∧ M.Holds d ∧ M.Keeps d b p := by
  obtain ⟨data, hread⟩ := exists_read_of_file hfile
  obtain ⟨y, rfl, hload⟩ :=
    ModuleRoot.settled_load hp hns (splitPath_pathOf hns ▸ hτ (pathOf ns)) hread fun _ _ _ _ _ => hτ _
  refine (hload t ht).bind fun x t₁ ht₁ _ hx => ?_
  rw [hx, ModuleRoot.ofText]
  cases hparse : ModFile.parse (Utf8.lossy data) with
  | error e => exact .pure ht₁ (by simp)
  | ok m =>
    refine (ModuleRoot.gives_find hp hτ _ importPath ht₁).mono fun y _ _ _ hy hdown p hp => ?_
    obtain ⟨hstd, r, q, sub, hcov, hq, hmem⟩ := hy p hp
    exact ⟨hstd, ⟨ns, m, sumsAt d ns⟩, rfl, ⟨⟨data, hread, hparse⟩, rfl⟩, keeps_of_mem_places hq hcov hdown hmem⟩

end Description

/-! ## Without a module -/

theorem rooted_of_mem {x : String × PackagePath} {roots : List String}
    (hroots : roots = b.gorootSrc :: b.gopath.map (Path.join · "src")) (hdown : Path.LeadsDown importPath)
    (hx : x ∈ vendored roots importPath srcDir ++ Go.rooted roots importPath) : Rooted b x.2 := by
  rcases List.mem_append.mp hx with hx | hx
  · rw [vendored] at hx
    split at hx
    · cases hx
    · obtain ⟨dir, -, rfl⟩ := List.mem_map.mp hx
      exact .vendored rfl (Path.within_join _ hdown)
  · subst hroots
    rcases List.mem_cons.mp hx with rfl | hx
    · exact .std rfl (Path.within_join _ hdown)
    · obtain ⟨root, hroot, rfl⟩ := List.mem_map.mp hx
      obtain ⟨gp, hgp, rfl⟩ := List.mem_map.mp hroot
      exact .workspace rfl hgp (Path.within_join _ hdown)

theorem gives_searchRoots (hp : d.Named) (hτ : ∀ path, AskablePath τ d (splitPath path)) (ht : Coherent τ d ok t) :
    Gives τ d ok (searchRoots d b importPath srcDir) t fun r _ => Path.LeadsDown importPath →
      ∀ p, r = .ok p → Rooted b p := by
  refine (gives_firstDir hp hτ _ ht).bind fun o t₁ ht₁ _ ho => ?_
  cases o with
  | none => exact .pure ht₁ (by simp)
  | some p =>
    obtain ⟨x, hx, rfl⟩ := ho p rfl
    refine .pure ht₁ ?_
    rintro hdown _ ⟨⟩
    exact rooted_of_mem rfl hdown hx

theorem gives_findInModCache (hp : d.Named) (hτ : ∀ path, AskablePath τ d (splitPath path)) (ht : Coherent τ d ok t) :
    Gives τ d ok (findInModCache d importPath srcDir) t fun o _ => Path.LeadsDown importPath →
      ∀ p, o = some p → p.goroot = false ∧
        ∃ dir module version, cachedModule? (Path.clean srcDir) = some (dir, module, version) ∧ Path.Within dir p.dir := by
  rcases findInModCache_cases d importPath srcDir with hnone | ⟨dir, module, version, sub, hmod, rfl, hrest, heq⟩
  · rw [hnone]
    exact .pure ht (by simp)
  · rw [heq]
    refine (gives_hasGoFiles hp (hτ _) ht).bind fun x t₁ ht₁ _ _ => ?_
    cases x with
    | false => exact .pure ht₁ (by simp)
    | true =>
      refine .pure ht₁ fun hdown p hp => ?_
      obtain rfl := Option.some.inj hp
      have hwithin := (Path.within_join dir (hdown.rest hrest)).clean
      exact ⟨rfl, dir, module, version, hmod, by simpa only using hwithin⟩

/-! ## Lookups -/

/-- What is noted at the nodes of a tree in which packages are looked up: a package whose import path leads down
is where it may be. -/
def WithinNoted (d : Disk) (b : BuildContext) : List String → CacheKey → CacheValue → Prop
  | _, .modEnabled k, .flag x => x = liesInModule d b k.dir
  | ns, .find k importPath, .found r => Path.LeadsDown importPath → ∀ p, r = .ok p →
    if usesModules d b k.dir then p.goroot = false ∧ ∃ M : Description, M.root = ns ∧ M.Holds d ∧ M.Keeps d b p
    else Rooted b p
  | _, _, _ => False

theorem withinNoted_flag_iff {k : SourceDir} {x : CacheValue} :
    WithinNoted d b ns (.modEnabled k) x ↔ x = .flag (liesInModule d b k.dir) := by
  cases x <;> simp [WithinNoted]

theorem exists_of_withinNoted {k : SourceDir} {x : CacheValue} (h : WithinNoted d b ns (.find k importPath) x) :
    ∃ r, x = .found r := by
  cases x with
  | found r => exact ⟨r, rfl⟩
  | _ => exact absurd h id

/-- The promise of a lookup. -/
def Confined (d : Disk) (b : BuildContext) (importPath srcDir : String) (r : Except ImportError PackagePath) : Prop :=
  Path.LeadsDown importPath → ∀ p, r = .ok p → Contained d b srcDir p

theorem gives_findInModule_confined (hp : d.Named) (huses : usesModules d b (Path.clean srcDir) = true)
    (ht : Coherent untrusted d (WithinNoted d b) t) :
    Gives untrusted d (WithinNoted d b) (findInModule d b importPath srcDir) t
      fun r _ => Confined d b importPath srcDir r := by
  have huses' : usesModules d b (b.sourceDir srcDir).normal.dir = true := huses
  cases hmod : modFileAt d srcDir with
  | none =>
    refine (gives_modFile? hp (askable_untrusted _) ht).bind fun o t₁ ht₁ _ ho => ?_
    rw [hmod] at ho
    cases ho
    exact .pure ht₁ fun _ _ h => by cases h
  | some place =>
    obtain ⟨ns, rfl, hpre, hfile⟩ := exists_of_modFileAt hmod
    have hns : ∀ s ∈ ns, IsName s := fun s hs => isName_of_mem_splitPath (hpre.subset hs)
    refine (gives_findInModule hp (askable_untrusted _) hmod (fun _ => exists_of_withinNoted)
      (fun t₁ ht₁ => ?_) ht).mono fun r _ _ _ hr hdown p hp => ?_
    · refine (Description.gives_searchModule hp askable_untrusted hns hfile ht₁).mono fun r _ _ _ hr hdown p hp => ?_
      rw [if_pos huses']
      exact hr hdown p hp
    · have hkept := hr hdown p hp
      rw [if_pos huses'] at hkept
      obtain ⟨hstd, M, rfl, hM, hkeeps⟩ := hkept
      exact .inModule hstd huses hmod hM hkeeps

theorem gives_findInGopath_confined (hp : d.Named) (huses : usesModules d b (Path.clean srcDir) = false)
    (ht : Coherent untrusted d (WithinNoted d b) t) :
    Gives untrusted d (WithinNoted d b) (findInGopath d b importPath srcDir) t
      fun r _ => Confined d b importPath srcDir r := by
  have huses' : ¬ usesModules d b (b.sourceDir srcDir).normal.dir = true := by
    rw [Bool.not_eq_true]
    exact huses
  refine (gives_nodeAt ht (askable_untrusted _)).bind fun n t₁ ht₁ _ hn => ?_
  refine (gives_readFound ht₁ hn (fun _ => exists_of_withinNoted) fun t₂ ht₂ => ?_).mono fun r _ _ _ hr hdown p hp => ?_
  · refine (gives_searchRoots hp askable_untrusted ht₂).mono fun r _ _ _ hr hdown p hp => ?_
    rw [if_neg huses']
    exact hr hdown p hp
  · have hkept := hr hdown p hp
    rw [if_neg huses'] at hkept
    exact .rooted huses hkept

theorem gives_findPackage_confined (hp : d.Named) (ht : Coherent untrusted d (WithinNoted d b) t) :
    Gives untrusted d (WithinNoted d b) (findPackage d b importPath srcDir) t
      fun r _ => isLocalImport importPath = false → Confined d b importPath srcDir r := by
  rw [findPackage]
  split
  · next hlocal =>
    refine (gives_hasGoFiles hp (askable_untrusted _) ht).bind fun x t₁ ht₁ _ _ => ?_
    cases x <;> exact .pure ht₁ fun h => by simp [hlocal] at h
  · refine (gives_hasGoFiles hp (askable_untrusted _) ht).bind fun x t₁ ht₁ _ _ => ?_
    cases x with
    | true =>
      refine .pure ht₁ ?_
      rintro - hdown _ ⟨⟩
      exact .std rfl (Path.within_join _ hdown)
    | false =>
      obtain ⟨x, hx, henabled⟩ :=
        settled_modEnabled hp (askable_untrusted (Path.clean srcDir)) fun _ _ => withinNoted_flag_iff
      refine (henabled t₁ ht₁).bind fun y t₂ ht₂ _ hy => ?_
      have huses := hx.symm.trans hy.symm
      cases y with
      | true => exact (gives_findInModule_confined hp huses ht₂).mono fun r _ _ _ hr _ => hr
      | false =>
        refine (gives_findInModCache hp askable_untrusted ht₂).bind fun o t₃ ht₃ _ ho => ?_
        cases o with
        | none => exact (gives_findInGopath_confined hp huses ht₃).mono fun r _ _ _ hr _ => hr
        | some p =>
          refine .pure ht₃ ?_
          rintro - hdown _ ⟨⟩
          obtain ⟨hstd, dir, module, version, hmod, hwithin⟩ := ho hdown p rfl
          exact .sibling hstd huses hmod hwithin

/-- Looks packages up one after another: import paths with the directories they are seen from. -/
def lookUpAll (d : Disk) (b : BuildContext) (lookups : List (String × String)) (t : Tree) : Tree :=
  lookups.foldl (fun t l => (findPackage d b l.1 l.2 t).2) t

theorem coherent_lookUpAll (hp : d.Named) (lookups : List (String × String))
    (ht : Coherent untrusted d (WithinNoted d b) t) :
    Coherent untrusted d (WithinNoted d b) (lookUpAll d b lookups t) := by
  induction lookups generalizing t with
  | nil => exact ht
  | cons l lookups ih => exact ih (gives_findPackage_confined hp ht).1

/-- A package whose import path leads down is found where packages are kept, whatever was looked up before. -/
theorem contained_of_findPackage (hp : d.Named) (lookups : List (String × String)) (e : Expiry)
    (hlocal : isLocalImport importPath = false) (hdown : Path.LeadsDown importPath)
    (h : (findPackage d b importPath srcDir (lookUpAll d b lookups (Vfs.make e))).1 = .ok p) :
    Contained d b srcDir p :=
  (gives_findPackage_confined hp (coherent_lookUpAll hp lookups (coherent_make _ _ _ e))).2.2 hlocal hdown p h

theorem contained_of_findPackage_vendored :
    Contained VendoredTwice.disk VendoredTwice.settings "/m" (VendoredTwice.package "/r/src/vendor/golang/x") :=
  contained_of_findPackage (by decide) [] .never (by decide) (by decide) VendoredTwice.findPackage_disk

end EditorAgent.Go

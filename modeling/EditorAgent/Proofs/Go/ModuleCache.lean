import EditorAgent.Proofs.Go.ModuleMode
import EditorAgent.Proofs.Go.Versions
import EditorAgent.Proofs.Path.Below

/-!
# Siblings in a module cache

A module cache keeps a module in a directory that is named by the encoded module path and the version. A
package there looks for its siblings by the name that its directory tells, and that name is the encoded one:
it is the module path only if no letter in it is a capital.
-/

namespace EditorAgent.Go

open Vfs

variable {d : Disk} {b : BuildContext} {ok : List String → CacheKey → CacheValue → Prop}

/-! ## What is there -/

/-- The names that are there: a tree may be trusted with them whatever it was asked for. -/
abbrev shown (d : Disk) : Trust := fun ns s => s ∈ d.names (pathOf ns)

theorem askable_shown (path : String) : AskablePath (shown d) d (splitPath path) :=
  fun _ _ hpre => ⟨(isName_of_mem_splitPath (hpre.subset (by simp))).1, fun _ h _ => h⟩

theorem shown_of_trustFor {paths ns : List String} {s : String} (h : shown d ns s) : trustFor d paths ns s := .inl h

/-- A directory that holds a package is known to do so. -/
theorem settled_hasGoFiles_of_holds (hp : d.Named) {dir : String} (h : holdsPackage d dir = true) :
    Settled (shown d) d ok (hasGoFiles d dir) (· = true) := by
  refine ⟨true, rfl, fun t ht => (gives_namesAt hp ht (askable_shown dir)).bind fun r t' ht' _ hr => ?_⟩
  simp only [holdsPackage, Bool.and_eq_true, decide_eq_true_eq, List.any_eq_true] at h
  obtain ⟨hdir, s, hs, hpackage⟩ := h
  unfold IsDir at hdir
  rw [Vfs.Lists, if_pos hdir] at hr
  obtain ⟨names, rfl, hnames⟩ := hr
  refine .pure ht' (List.any_eq_true.mpr ⟨s, ?_, hpackage⟩)
  exact (hnames s (isSourceFile_of_isPackageFileName hpackage) hs).mpr hs

/-- What a directory holds depends on the names in its path. -/
theorem holdsPackage_congr {dir dir' : String} (h : splitPath dir = splitPath dir') :
    holdsPackage d dir = holdsPackage d dir' := by
  have hdir : IsDir d dir ↔ IsDir d dir' := by rw [IsDir, IsDir, h]
  rw [holdsPackage, holdsPackage, h, decide_eq_decide.mpr hdir]

theorem not_isDir_of_not_locate {dir : String} {e : DiskError}
    (hl : d.locate (pathOf (splitPath dir)) true = .error e) : ¬ IsDir d dir := by
  rw [IsDir, Disk.kindAt, Disk.entry, hl]
  simp

theorem holdsPackage_of_not_isDir {dir : String} (h : ¬ IsDir d dir) : holdsPackage d dir = false := by
  simp [holdsPackage, h]

/-- The first question of a lookup is answered by the disk: no other path was asked for. -/
theorem hasGoFiles_make (hp : d.Named) (dir : String) (e : Expiry) :
    (hasGoFiles d dir (Vfs.make e)).1 = holdsPackage d dir ∧
      Coherent (shown d) d (Noted d b) (hasGoFiles d dir (Vfs.make e)).2 := by
  have hself := (staysOn_self d dir).searchable (List.Subset.refl _) List.mem_cons_self
  obtain ⟨x, hx, hstd⟩ : Settled (trustFor d [dir]) d (Noted d b) (hasGoFiles d dir) (· = holdsPackage d dir) :=
    settled_hasGoFiles hp hself
  have hasked := hstd _ (coherent_make _ d (Noted d b) e)
  exact ⟨hasked.2.2.trans hx, hasked.1.mono fun _ _ => shown_of_trustFor⟩

/-- What is not in the standard library is looked for with a module, or else in the module cache and then in
the roots. -/
theorem findPackage_eq_of_not_std {importPath srcDir : String} {t : Tree} (hlocal : isLocalImport importPath = false)
    (hno : (hasGoFiles d (Path.join b.gorootSrc importPath) t).1 = false) :
    findPackage d b importPath srcDir t =
      (do if ← modEnabled d b srcDir then findInModule d b importPath srcDir
          else match ← findInModCache d importPath srcDir with
            | some p => return .ok p
            | none => findInGopath d b importPath srcDir : StateM Tree (Except ImportError PackagePath))
        (hasGoFiles d (Path.join b.gorootSrc importPath) t).2 := by
  rw [findPackage, hlocal, if_neg Bool.false_ne_true]
  exact bind_apply hno _

theorem isPlainPath_join {ns : List String} (hne : ns ≠ []) (h : ∀ s ∈ ns, IsStep s) :
    IsPlainPath (Text.join "/" ns) := by
  intro s hs
  rw [split_join_names (fun s hs => (h s hs).1) hne] at hs
  exact ⟨(h s hs).1.1, (h s hs).1.2.1, (h s hs).2⟩

/-! ## Versions -/

theorem isSlash_eq_false {p : Char → Bool} (hslash : p '/' = false) (hback : p '\\' = false) {c : Char}
    (hc : p c = true) : isSlash c = false := by
  rw [isSlash, Bool.or_eq_false_iff, beq_eq_false_iff_ne, beq_eq_false_iff_ne]
  constructor
  · rintro rfl
    simp [hslash] at hc
  · rintro rfl
    simp [hback] at hc

/-- A version starts with `v`, and no slash is in it. -/
theorem exists_of_isVersion {v : String} (h : isVersion v = true) :
    ∃ w : List Char, v.toList = 'v' :: w ∧ ∀ c ∈ w, isSlash c = false := by
  obtain ⟨numerals, pre, build, hv, -⟩ := isVersion_iff_cut.mp h
  refine ⟨_, hv, fun c hc => ?_⟩
  have hmem : c ∈ v.toList := by
    rw [hv]
    exact List.mem_cons_of_mem _ hc
  rw [isSlash, Bool.or_eq_false_iff, beq_eq_false_iff_ne, beq_eq_false_iff_ne]
  exact ⟨ne_of_mem_of_not_mem hmem (not_mem_of_isVersion h (by decide) (by decide) (by decide)),
    ne_of_mem_of_not_mem hmem (not_mem_of_isVersion h (by decide) (by decide) (by decide))⟩

/-! ## Encoded paths -/

/-- How a character of a module path is written. -/
def markCapital (c : Char) : List Char := if c.isUpper then ['!', c.toLower] else [c]

theorem markCapital_of_isUpper {c : Char} (h : c.isUpper = true) : markCapital c = ['!', c.toLower] := if_pos h

theorem markCapital_of_not_isUpper {c : Char} (h : c.isUpper = false) : markCapital c = [c] :=
  if_neg (by simp [h])

theorem toList_encodePath (s : String) : (encodePath s).toList = s.toList.flatMap markCapital :=
  String.toList_ofList

theorem encodePath_append (p q : String) : encodePath (p ++ q) = encodePath p ++ encodePath q := by
  apply String.toList_injective
  simp only [toList_encodePath, String.toList_append, List.flatMap_append]

theorem encodePath_trail (ns : List String) : encodePath (trail ns) = trail (ns.map encodePath) := by
  induction ns with
  | nil => decide
  | cons s ns ih =>
    have hslash : encodePath "/" = "/" := by decide
    rw [List.map_cons, trail_cons, trail_cons, encodePath_append, encodePath_append, ih, hslash]

theorem encodePath_of_lower {s : String} (h : ∀ c ∈ s.toList, c.isUpper = false) : encodePath s = s := by
  apply String.toList_injective
  rw [toList_encodePath]
  generalize s.toList = cs at h
  induction cs with
  | nil => rfl
  | cons c cs ih =>
    rw [List.forall_mem_cons] at h
    rw [List.flatMap_cons, markCapital_of_not_isUpper h.1, ih h.2, List.singleton_append]

/-- An encoded name is the name itself, or is marked. -/
theorem encodePath_cases (s : String) : encodePath s = s ∨ '!' ∈ (encodePath s).toList := by
  by_cases h : ∃ c ∈ s.toList, c.isUpper = true
  · obtain ⟨c, hc, hup⟩ := h
    refine .inr ?_
    rw [toList_encodePath, List.mem_flatMap]
    exact ⟨c, hc, by simp [markCapital_of_isUpper hup]⟩
  · refine .inl (encodePath_of_lower fun c hc => ?_)
    simpa using fun hup => h ⟨c, hc, hup⟩

/-- Encoding adds marks and small letters. -/
theorem mem_encodePath {s : String} {x : Char} (h : x ∈ (encodePath s).toList) :
    x ∈ s.toList ∨ x = '!' ∨ x.isLower = true := by
  rw [toList_encodePath, List.mem_flatMap] at h
  obtain ⟨c, hc, hx⟩ := h
  rw [markCapital] at hx
  split at hx
  · next hup =>
    rcases List.mem_cons.mp hx with rfl | hx
    · exact .inr (.inl rfl)
    · refine .inr (.inr ?_)
      rw [List.mem_singleton.mp hx, Char.isLower_toLower_eq_isAlpha, Char.isAlpha, hup, Bool.true_or]
  · exact .inl (List.mem_singleton.mp hx ▸ hc)

/-- An encoded capital does not stand where the capital stood. -/
theorem not_startsWith_encodePath {s : String} (h : ∃ x ∈ s.toList, x.isUpper = true) (t : String) :
    Text.startsWith (s ++ t) (encodePath s) = false := by
  rw [Text.startsWith, Bool.eq_false_iff, ne_eq, List.isPrefixOf_iff_prefix, toList_encodePath, String.toList_append]
  generalize t.toList = rest
  generalize s.toList = cs at h
  induction cs with
  | nil => simp at h
  | cons c cs ih =>
    intro hpre
    rw [List.flatMap_cons, List.cons_append] at hpre
    cases hc : c.isUpper with
    | true =>
      rw [markCapital_of_isUpper hc, List.cons_append, List.cons_prefix_cons] at hpre
      rw [← hpre.1] at hc
      exact absurd hc (by decide)
    | false =>
      rw [markCapital_of_not_isUpper hc, List.singleton_append, List.cons_prefix_cons] at hpre
      refine ih ?_ hpre.2
      simpa [hc] using h

/-- Encoded names are names. -/
theorem isStep_encodePath {s : String} (h : IsStep s) : IsStep (encodePath s) := by
  rcases encodePath_cases s with heq | hmark
  · rwa [heq]
  · have hne : ∀ t : String, '!' ∉ t.toList → encodePath s ≠ t := fun t ht heq => ht (heq ▸ hmark)
    refine ⟨⟨hne _ (by decide), hne _ (by decide), fun x hx => ?_⟩, hne _ (by decide)⟩
    rcases mem_encodePath hx with hx | rfl | hx
    · exact h.1.2.2 x hx
    · decide
    · exact isSlash_eq_false (p := Char.isLower) (by decide) (by decide) hx

/-! ## Modules in a cache -/

/-- A version of a module in the module cache of a workspace that does not lie in a module cache itself. -/
structure CachedModule where
  gopath : String
  /-- The elements of the module path but the last. -/
  front : List String
  last : String
  version : String
  rooted : Path.Plain (Path.clean gopath)
  outermost : Text.contains (pathOf (splitPath (Path.clean gopath) ++ ["pkg", "mod"])) "/pkg/mod/" = false
  isStep : ∀ s ∈ front ++ [last], IsStep s ∧ '@' ∉ s.toList
  isVersion : isVersion version = true

namespace CachedModule

variable (c : CachedModule) {sub : List String}

/-- The elements of the module path. -/
def path : List String := c.front ++ [c.last]

/-- The module path. -/
def name : String := Text.join "/" c.path

/-- The import path of a package of the module. -/
def package (sub : List String) : String := Text.join "/" (c.path ++ sub)

/-- The directory of a package, below that of the module. -/
def dir (sub : List String) : String :=
  place (Path.join c.gopath (cacheName c.name c.version)) (Text.join "/" sub)

/-- The names that lead to the module, from the workspace on. -/
def names : List String :=
  ["pkg", "mod"] ++ c.front.map encodePath ++ [encodePath c.last ++ "@" ++ c.version]

/-- The names that lead to the module. -/
def root : List String := splitPath (Path.clean c.gopath) ++ c.names

theorem trail_names : trail c.names = "/pkg/mod" ++ encodePath (trail c.path) ++ "@" ++ c.version := by
  have hmod : trail ["pkg", "mod"] = "/pkg/mod" := by decide
  rw [encodePath_trail, names, path]
  simp only [trail_append, List.map_append, List.map_cons, List.map_nil, trail_cons, trail_nil, hmod,
    String.append_assoc, String.append_empty]

theorem encodePath_trail_path : encodePath (trail c.path) = "/" ++ encodePath c.name := by
  have hslash : encodePath "/" = "/" := by decide
  rw [← slash_append_join (by simp [path]), encodePath_append, hslash, name]

theorem cacheName_eq : cacheName c.name c.version = Text.join "/" c.names := by
  have htrail : "/" ++ cacheName c.name c.version = trail c.names := by
    have hcache : cacheName c.name c.version = "pkg/mod/" ++ encodePath c.name ++ "@" ++ c.version := by
      simp [cacheName, toString]
    rw [trail_names, c.encodePath_trail_path, hcache]
    apply String.toList_injective
    simp
  rw [← slash_append_join (by simp [names])] at htrail
  exact (String.append_right_inj _).mp htrail

theorem isStep_names : ∀ s ∈ c.names, IsStep s := by
  obtain ⟨w, hw, hslash⟩ := exists_of_isVersion c.isVersion
  have hlast := isStep_encodePath (c.isStep c.last (by simp)).1
  have hmark : '@' ∈ (encodePath c.last ++ "@" ++ c.version).toList := by simp
  have hne : ∀ t : String, '@' ∉ t.toList → encodePath c.last ++ "@" ++ c.version ≠ t :=
    fun t ht heq => ht (heq ▸ hmark)
  intro s hs
  simp only [names, List.mem_append, List.mem_cons, List.mem_map, List.not_mem_nil, or_false] at hs
  rcases hs with ((rfl | rfl) | ⟨t, ht, rfl⟩) | rfl
  · decide
  · decide
  · exact isStep_encodePath (c.isStep t (by simp [ht])).1
  · refine ⟨⟨hne _ (by decide), hne _ (by decide), fun x hx => ?_⟩, hne _ (by decide)⟩
    simp only [String.toList_append, hw, List.mem_append, List.mem_cons] at hx
    rcases hx with (hx | hx) | rfl | hx
    · exact hlast.1.2.2 x hx
    · obtain rfl : x = '@' := by simpa using hx
      decide
    · decide
    · exact hslash x hx

theorem plain_clean_root : Path.Plain (Path.clean (Path.join c.gopath (cacheName c.name c.version))) := by
  rw [cacheName_eq]
  exact Path.plain_clean_join c.rooted c.isStep_names

theorem clean_root : Path.clean (Path.join c.gopath (cacheName c.name c.version)) = pathOf c.root := by
  rw [cacheName_eq]
  exact Path.clean_join c.rooted c.isStep_names

theorem isName_root : ∀ s ∈ c.root, IsName s := by
  intro s hs
  rcases List.mem_append.mp hs with hs | hs
  · exact isName_of_mem_splitPath hs
  · exact (c.isStep_names s hs).1

/-- The names that lead to a package of a module. -/
theorem dir_eq (hsub : ∀ s ∈ sub, IsStep s) : c.dir sub = pathOf (c.root ++ sub) := by
  rw [dir, place, Path.clean_join c.plain_clean_root hsub, clean_root, splitPath_pathOf c.isName_root]

theorem splitPath_dir (hsub : ∀ s ∈ sub, IsStep s) : splitPath (c.dir sub) = c.root ++ sub := by
  rw [c.dir_eq hsub]
  refine splitPath_pathOf fun s hs => ?_
  rcases List.mem_append.mp hs with hs | hs
  · exact c.isName_root s hs
  · exact (hsub s hs).1

theorem not_mem_encodePath_name : '@' ∉ (encodePath c.name).toList := by
  intro hmem
  have hname : '@' ∈ (encodePath (trail c.path)).toList := by
    rw [c.encodePath_trail_path]
    simp [hmem]
  rcases mem_encodePath hname with hmem | hmem | hmem
  · have hno : ∀ ns : List String, (∀ s ∈ ns, '@' ∉ s.toList) → '@' ∉ (trail ns).toList := by
      intro ns hns
      induction ns with
      | nil => simp
      | cons s ns ih =>
        rw [List.forall_mem_cons] at hns
        simpa using ⟨hns.1, ih hns.2⟩
    exact hno c.path (fun s hs => (c.isStep s hs).2) hmem
  · exact absurd hmem (by decide)
  · exact absurd hmem (by decide)

theorem pathOf_root : pathOf c.root =
    trail (splitPath (Path.clean c.gopath)) ++ "/pkg/mod/" ++ encodePath c.name ++ "@" ++ c.version := by
  rw [pathOf_eq_trail (by simp [root, names]), root, trail_append, trail_names, c.encodePath_trail_path]
  apply String.toList_injective
  simp

theorem takeWhile_append_trail {w : List Char} (hw : ∀ x ∈ w, isSlash x = false) (ns : List String) :
    (w ++ (trail ns).toList).takeWhile (· != '/') = w := by
  have hne : ∀ x ∈ w, (x != '/') = true := by
    intro x hx
    have hslash := hw x hx
    rw [isSlash, Bool.or_eq_false_iff, beq_eq_false_iff_ne] at hslash
    simpa using hslash.1
  rw [List.takeWhile_append_of_pos hne]
  cases ns <;> simp

/-- The directory of a package tells the module by its encoded path. -/
theorem cachedModule?_dir (hsub : ∀ s ∈ sub, IsStep s) :
    cachedModule? (Path.clean (c.dir sub)) = some (pathOf c.root, encodePath c.name, c.version) := by
  obtain ⟨w, hw, hslash⟩ := exists_of_isVersion c.isVersion
  have hversion : c.version = "v" ++ String.ofList w := String.toList_injective (by simpa using hw)
  have hclean : Path.clean (c.dir sub) = pathOf c.root ++ trail sub := by
    rw [dir, place, Path.clean_clean, ← place, ← dir, c.dir_eq hsub, pathOf_eq_trail (by simp [root, names]),
      trail_append, pathOf_eq_trail (by simp [root, names])]
  have houter : Text.contains (trail (splitPath (Path.clean c.gopath)) ++ "/pkg/mod") "/pkg/mod/" = false := by
    have hmod : trail ["pkg", "mod"] = "/pkg/mod" := by decide
    rw [← hmod, ← trail_append, ← pathOf_eq_trail (by simp)]
    exact c.outermost
  have htext : pathOf c.root ++ trail sub = trail (splitPath (Path.clean c.gopath)) ++ "/pkg/mod/" ++
      (encodePath c.name ++ "@v" ++ (String.ofList w ++ trail sub)) := by
    rw [pathOf_root, hversion]
    apply String.toList_injective
    simp
  have hcut := Text.cut?_append (y := encodePath c.name ++ "@v" ++ (String.ofList w ++ trail sub)) (c := '/')
    (by decide) houter
  have hcut' := Text.cut?_append_of_not_mem (p := "@v") (y := String.ofList w ++ trail sub) (c := '@') (q := ['v'])
    (by decide) c.not_mem_encodePath_name
  have htake := takeWhile_append_trail hslash sub
  rw [hclean, htext, cachedModule?, hcut]
  simp only [Option.bind_eq_bind, Option.bind_some, hcut', String.toList_append, String.toList_ofList, htake,
    Option.pure_def]
  rw [← hversion, pathOf_root]

/-! ## Siblings -/

variable {here : List String}

theorem package_eq (sub : List String) : c.package sub = c.name ++ trail sub := by
  rw [package, name, join_append (by simp [path])]

/-- In a module without capitals a package finds its siblings. -/
theorem settled_findInModCache (hp : d.Named) (hlower : ∀ x ∈ c.name.toList, x.isUpper = false)
    (hhere : ∀ s ∈ here, IsStep s) (hsub : ∀ s ∈ sub, IsStep s) (hthere : holdsPackage d (c.dir sub) = true) :
    Settled (shown d) d ok (findInModCache d (c.package sub) (c.dir here))
      (· = some { dir := c.dir sub, importPath := c.package sub, module := some c.name }) := by
  have hrest : ((trail sub != "" && !Text.startsWith (trail sub) "/") || !Go.isVersion c.version) = false := by
    rw [c.isVersion]
    rcases isRest_trail sub with heq | hstarts
    · simp [heq]
    · simp [hstarts]
  have hsplit : splitPath (Path.join (pathOf c.root) (Text.join "/" sub)) = splitPath (c.dir sub) := by
    rw [Path.splitPath_join_steps hsub, splitPath_pathOf c.isName_root, c.splitPath_dir hsub]
  have hclean : Path.clean (Path.join (pathOf c.root) (Text.join "/" sub)) = c.dir sub := by
    have hplain : Path.Plain (Path.clean (pathOf c.root)) := by
      rw [← clean_root, Path.clean_clean]
      exact c.plain_clean_root
    rw [Path.clean_join hplain hsub, ← clean_root, Path.clean_clean, clean_root, splitPath_pathOf c.isName_root,
      c.dir_eq hsub]
  rw [findInModCache, c.cachedModule?_dir hhere]
  simp only [encodePath_of_lower hlower, c.package_eq, Text.after?_append, hrest, Path.dropWhile_trail hsub,
    Bool.false_eq_true, if_false, hclean]
  refine (settled_hasGoFiles_of_holds hp ((holdsPackage_congr hsplit).trans hthere)).bind fun x hx => ?_
  subst hx
  exact .pure rfl

/-- In a module with a capital a package finds none in the cache. -/
theorem findInModCache_of_upper (hupper : ∃ x ∈ c.name.toList, x.isUpper = true) (hhere : ∀ s ∈ here, IsStep s) :
    findInModCache d (c.package sub) (c.dir here) = pure none := by
  have hafter : Text.after? (c.package sub) (encodePath c.name) = none := by
    rw [c.package_eq, Text.after?, not_startsWith_encodePath hupper, if_neg Bool.false_ne_true]
  rw [findInModCache, c.cachedModule?_dir hhere]
  simp only [hafter]

end CachedModule

variable {c : CachedModule} {here sub : List String}

/-- Outside of modules a package of a cached module without capitals is found from every package of that module. -/
theorem findPackage_sibling (hp : d.Named) (hlower : ∀ x ∈ c.name.toList, x.isUpper = false)
    (hhere : ∀ s ∈ here, IsStep s) (hsub : ∀ s ∈ sub, IsStep s) (hoff : b.env.get? "GO111MODULE" = some "off")
    (hstd : holdsPackage d (Path.join b.gorootSrc (c.package sub)) = false)
    (hthere : holdsPackage d (c.dir sub) = true) (e : Expiry) :
    (findPackage d b (c.package sub) (c.dir here) (Vfs.make e)).1 =
      .ok { dir := c.dir sub, importPath := c.package sub, module := some c.name } := by
  have hsteps : ∀ s ∈ c.path ++ sub, IsStep s := by
    intro s hs
    rcases List.mem_append.mp hs with hs | hs
    · exact (c.isStep s hs).1
    · exact hsub s hs
  have hlocal : isLocalImport (c.package sub) = false :=
    isLocalImport_of_isPlainPath (isPlainPath_join (by simp [CachedModule.path]) hsteps)
  obtain ⟨hno, hcoherent⟩ := hasGoFiles_make (b := b) hp (Path.join b.gorootSrc (c.package sub)) e
  have hdisabled : modEnabled d b (c.dir here) = pure false := by simp only [modEnabled, hoff]
  obtain ⟨x, rfl, hcached⟩ : Settled (shown d) d (Noted d b) (findInModCache d (c.package sub) (c.dir here)) _ :=
    c.settled_findInModCache hp hlower hhere hsub hthere
  rw [findPackage_eq_of_not_std hlocal (hno.trans hstd), hdisabled, pure_bind, if_neg Bool.false_ne_true,
    bind_apply (hcached _ hcoherent).2.2]
  rfl

namespace Siblings

def folder : DiskEntry := ⟨.dir, 0⟩

/-- The second of two packages of a module. -/
def disk : Disk := ⟨[
  (["g"], folder), (["g", "pkg"], folder), (["g", "pkg", "mod"], folder), (["g", "pkg", "mod", "m.org"], folder),
  (["g", "pkg", "mod", "m.org", "x@v1.0.0"], folder), (["g", "pkg", "mod", "m.org", "x@v1.0.0", "b"], folder),
  (["g", "pkg", "mod", "m.org", "x@v1.0.0", "b", "b.go"], ⟨.file [] none, 0⟩)]⟩

def settings : BuildContext := ⟨"/r", ["/g"], "linux", "amd64", [], false, ⟨[("GO111MODULE", "off")]⟩⟩

def module : CachedModule where
  gopath := "/g"
  front := ["m.org"]
  last := "x"
  version := "v1.0.0"
  rooted := by decide
  outermost := by decide
  isStep := by decide
  isVersion := by decide

theorem lower : ∀ x ∈ module.name.toList, x.isUpper = false := by
  have hall : module.name.toList.all (!·.isUpper) = true := by decide
  simpa using hall

theorem holdsPackage_std : holdsPackage disk (Path.join settings.gorootSrc (module.package ["b"])) = false := by
  have hsplit : splitPath (Path.join settings.gorootSrc (module.package ["b"])) = ["r", "src", "m.org", "x", "b"] := by
    decide
  refine holdsPackage_of_not_isDir (not_isDir_of_not_locate (e := .notFound) ?_)
  rw [hsplit, Disk.locate_pathOf (by decide) (by decide) (by decide) (by decide)]
  cbv

theorem holdsPackage_dir : holdsPackage disk (module.dir ["b"]) = true := by
  have hsplit : splitPath (module.dir ["b"]) = ["g", "pkg", "mod", "m.org", "x@v1.0.0", "b"] := by decide
  rw [holdsPackage_of_locate (l := ["g", "pkg", "mod", "m.org", "x@v1.0.0", "b"]) (m := 0) _ (by decide)]
  · decide
  · rw [hsplit, Disk.locate_pathOf (by decide) (by decide) (by decide) (by decide)]
    cbv

end Siblings

theorem findPackage_sibling_lower :
    holdsPackage Siblings.disk (Siblings.module.dir ["b"]) = true ∧
      (findPackage Siblings.disk Siblings.settings "m.org/x/b" "/g/pkg/mod/m.org/x@v1.0.0/a" (Vfs.make .never)).1 =
        .ok { dir := "/g/pkg/mod/m.org/x@v1.0.0/b", importPath := "m.org/x/b", module := some "m.org/x" } := by
  have hfound : (findPackage Siblings.disk Siblings.settings (Siblings.module.package ["b"])
      (Siblings.module.dir ["a"]) (Vfs.make .never)).1 = _ :=
    findPackage_sibling (by decide) Siblings.lower (by decide) (by decide) (by decide) Siblings.holdsPackage_std
      Siblings.holdsPackage_dir .never
  have hdir : Siblings.module.dir ["a"] = "/g/pkg/mod/m.org/x@v1.0.0/a" := by decide
  have hdir' : Siblings.module.dir ["b"] = "/g/pkg/mod/m.org/x@v1.0.0/b" := by decide
  have hpackage : Siblings.module.package ["b"] = "m.org/x/b" := by decide
  have hname : Siblings.module.name = "m.org/x" := by decide
  rw [hdir, hdir', hpackage, hname] at hfound
  exact ⟨Siblings.holdsPackage_dir, hfound⟩

end EditorAgent.Go

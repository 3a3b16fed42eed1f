import EditorAgent.Go.Resolve
import EditorAgent.Proofs.Path.Cleaning
import EditorAgent.Proofs.Vfs.Looks

/-!
# What a lookup is told

On a disk that does not change, the steps by which a package is looked up have answers that the disk alone
determines: whether a directory holds a package, which module file a directory sees, what the module
requires, and where it finds a package. They are the same on every coherent tree that is trusted with the
directories that are searched.
-/

namespace EditorAgent.Go

open Vfs

variable {α β : Type} {τ : Trust} {d : Disk} {b : BuildContext} {ok : List String → CacheKey → CacheValue → Prop}

/-- The tree of which nothing was asked yet. -/
abbrev blankTree : Tree := Vfs.make .never

/-- An action that has one answer on all coherent trees. -/
def Settled (τ : Trust) (d : Disk) (ok : List String → CacheKey → CacheValue → Prop) (act : StateM Tree α)
    (P : α → Prop) : Prop :=
  ∃ a, P a ∧ ∀ t, Coherent τ d ok t → Gives τ d ok act t fun x _ => x = a

namespace Settled

variable {act : StateM Tree α} {f : α → StateM Tree β} {P P' : α → Prop} {R : β → Prop}

theorem pure {a : α} (h : P a) : Settled τ d ok (pure a) P := ⟨a, h, fun _ ht => .pure ht rfl⟩

theorem bind (h : Settled τ d ok act P) (hf : ∀ a, P a → Settled τ d ok (f a) R) :
    Settled τ d ok (act >>= f) R := by
  obtain ⟨a, ha, hact⟩ := h
  obtain ⟨x, hx, hfa⟩ := hf a ha
  refine ⟨x, hx, fun t ht => (hact t ht).bind fun _ t' ht' _ hq => ?_⟩
  rw [hq]
  exact hfa t' ht'

theorem mono (h : Settled τ d ok act P) (hP : ∀ a, P a → P' a) : Settled τ d ok act P' := by
  obtain ⟨a, ha, hact⟩ := h
  exact ⟨a, hP a ha, hact⟩

/-- What the answer is known to be it is on every coherent tree. -/
theorem gives {a : α} {t : Tree} (h : Settled τ d ok act (· = a)) (ht : Coherent τ d ok t) :
    Gives τ d ok act t fun x _ => x = a := by
  obtain ⟨_, rfl, hact⟩ := h
  exact hact t ht

/-- The answer is that of a tree of which nothing was asked yet. -/
theorem answer (h : Settled τ d ok act P) :
    P (act blankTree).1 ∧ ∀ t, Coherent τ d ok t → Gives τ d ok act t fun x _ => x = (act blankTree).1 := by
  obtain ⟨a, ha, hact⟩ := h
  have hblank := (hact _ (coherent_make τ d ok .never)).2.2
  rw [hblank]
  exact ⟨ha, hact⟩

theorem foldlM {f : β → α → StateM Tree β} {g : β → α → β} {xs : List α}
    (h : ∀ y, ∀ x ∈ xs, Settled τ d ok (f y x) (· = g y x)) (init : β) :
    Settled τ d ok (xs.foldlM f init) (· = xs.foldl g init) := by
  induction xs generalizing init with
  | nil => exact .pure rfl
  | cons x xs ih =>
    rw [List.foldlM_cons, List.foldl_cons]
    refine (h init x List.mem_cons_self).bind fun y hy => ?_
    rw [hy]
    exact ih (fun z w hw => h z w (List.mem_cons_of_mem _ hw)) _

end Settled

/-! ## Directories -/

/-- A tree finds a directory at a path. -/
def IsDir (d : Disk) (dir : String) : Prop := d.kindAt (pathOf (splitPath dir)) = some .dir

instance (dir : String) : Decidable (IsDir d dir) := inferInstanceAs (Decidable (_ = _))

/-- Whether a directory has an entry that is named like a source other than a test. -/
def holdsPackage (d : Disk) (dir : String) : Bool :=
  IsDir d dir && (d.names (pathOf (splitPath dir))).any isPackageFileName

theorem isDir_of_holdsPackage {dir : String} (h : holdsPackage d dir = true) : IsDir d dir := by
  simp only [holdsPackage, Bool.and_eq_true, decide_eq_true_eq] at h
  exact h.1

theorem isSourceFile_of_isPackageFileName {s : String} (h : isPackageFileName s = true) :
    isSourceFile s = true := by
  simp only [isPackageFileName, Bool.and_eq_true] at h
  exact h.1.2

theorem any_isPackageFileName_eq {names names' : List String}
    (h : ∀ s, isPackageFileName s = true → (s ∈ names ↔ s ∈ names')) :
    names.any isPackageFileName = names'.any isPackageFileName := by
  rw [Bool.eq_iff_iff, List.any_eq_true, List.any_eq_true]
  constructor
  · rintro ⟨s, hs, hp⟩
    exact ⟨s, (h s hp).mp hs, hp⟩
  · rintro ⟨s, hs, hp⟩
    exact ⟨s, (h s hp).mpr hs, hp⟩

/-- A directory that may be asked for its packages. -/
structure Searchable (τ : Trust) (d : Disk) (dir : String) : Prop where
  askable : AskablePath τ d (splitPath dir)
  trusted : ∀ s, isPackageFileName s = true → τ (splitPath dir) s

theorem settled_hasGoFiles (hp : d.Named) {dir : String} (h : Searchable τ d dir) :
    Settled τ d ok (hasGoFiles d dir) (· = holdsPackage d dir) := by
  refine ⟨_, rfl, fun t ht => (gives_namesAt hp ht h.askable).bind fun r t' ht' _ hr => ?_⟩
  rw [Vfs.Lists] at hr
  split at hr
  · next hd =>
    obtain ⟨names, rfl, hnames⟩ := hr
    refine .pure ht' ?_
    rw [any_isPackageFileName_eq fun s hs => hnames s (isSourceFile_of_isPackageFileName hs) (h.trusted s hs)]
    simp [holdsPackage, IsDir, hd]
  · next hd =>
    obtain ⟨cause, rfl⟩ := hr
    exact .pure ht' (by simp [holdsPackage, IsDir, hd])

theorem settled_firstPackage (hp : d.Named) {dirs : List String} (h : ∀ dir ∈ dirs, Searchable τ d dir) :
    Settled τ d ok (ModuleRoot.firstPackage d dirs) (· = dirs.find? (holdsPackage d)) := by
  induction dirs with
  | nil => exact .pure rfl
  | cons dir rest ih =>
    refine (settled_hasGoFiles hp (h dir List.mem_cons_self)).bind fun x hx => ?_
    rw [List.find?_cons, ← hx]
    cases x with
    | true => exact .pure rfl
    | false => exact ih fun x hx => h x (List.mem_cons_of_mem _ hx)

theorem settled_firstDir (hp : d.Named) {dirs : List (String × PackagePath)}
    (h : ∀ x ∈ dirs, AskablePath τ d (splitPath x.1)) :
    Settled τ d ok (firstDir d dirs) (· = (dirs.find? fun x => IsDir d x.1).map (·.2)) := by
  induction dirs with
  | nil => exact .pure rfl
  | cons x rest ih =>
    have hask : Settled τ d ok (Vfs.isDirAt d x.1) (· = decide (IsDir d x.1)) :=
      ⟨_, rfl, fun t ht => gives_isDirAt hp ht (h x List.mem_cons_self)⟩
    refine hask.bind fun y hy => ?_
    rw [List.find?_cons, ← hy]
    cases y with
    | true => exact .pure rfl
    | false => exact ih fun y hy => h y (List.mem_cons_of_mem _ hy)

/-! ## Module files -/

/-- The place of the module file that a directory sees: the nearest entry of that name, if it is a file. -/
def modFileAt (d : Disk) (dir : String) : Option (List String) :=
  (nearest d "go.mod" (splitPath (Path.clean dir)).inits.reverse).filter
    fun ns => decide (d.kindAt (pathOf ns) = some .file)

/-- The module file that a directory sees lies at or above it. -/
theorem exists_of_modFileAt {dir : String} {place : List String} (h : modFileAt d dir = some place) :
    ∃ ns, place = ns ++ ["go.mod"] ∧ ns <+: splitPath (Path.clean dir) ∧
      d.kindAt (pathOf (ns ++ ["go.mod"])) = some .file := by
  rw [modFileAt, Option.filter_eq_some_iff, nearest] at h
  obtain ⟨ns, hns, rfl⟩ := List.mem_map.mp (List.mem_of_find?_eq_some h.1)
  exact ⟨ns, rfl, by simpa using hns, by simpa using h.2⟩

theorem gives_modFile? (hp : d.Named) {dir : String} (hdir : AskablePath τ d (splitPath (Path.clean dir)))
    {t : Tree} (ht : Coherent τ d ok t) :
    Gives τ d ok (modFile? d dir) t fun o t' => Reaches t' o (modFileAt d dir) := by
  refine (gives_nodeAt ht hdir).bind fun n t₁ ht₁ _ hn => ?_
  refine (gives_locate hp (by decide) (by decide) ht₁ hn).bind fun o t₂ ht₂ _ ho => ?_
  rw [modFileAt]
  cases hnear : nearest d "go.mod" (splitPath (Path.clean dir)).inits.reverse with
  | none =>
    rw [hnear] at ho
    cases ho
    exact .pure ht₂ .missing
  | some ns =>
    rw [hnear] at ho
    obtain ⟨hc⟩ := ho
    refine (gives_hasKind hp ht₂ hc .file).bind fun x t₃ ht₃ hframe hx => ?_
    subst hx
    by_cases hk : d.kindAt (pathOf ns) = some .file
    · simp only [hk, decide_true, if_true, Option.filter_some]
      exact .pure ht₃ (.found (hc.shape hframe.toShape))
    · simp only [hk, decide_false, Bool.false_eq_true, if_false, Option.filter_some]
      exact .pure ht₃ .missing

/-- Whether a directory lies in a module. -/
def liesInModule (d : Disk) (b : BuildContext) (dir : String) : Bool :=
  !outsideModules b dir && (modFileAt d dir).isSome

theorem settled_inModule (hp : d.Named) (b : BuildContext) {dir : String}
    (hdir : AskablePath τ d (splitPath (Path.clean dir))) :
    Settled τ d ok (inModule d b dir) (· = liesInModule d b dir) := by
  rw [inModule, liesInModule]
  split
  · next h => exact .pure (by simp [h])
  · next h =>
    refine ⟨_, rfl, fun t ht => (gives_modFile? hp hdir ht).bind fun o t' ht' _ ho => ?_⟩
    refine .pure ht' ?_
    cases hm : modFileAt d dir with
    | none =>
      rw [hm] at ho
      cases ho
      simp
    | some ns =>
      rw [hm] at ho
      cases ho
      simp [h]

theorem splitPath_join_pathOf {ns : List String} (hns : ∀ s ∈ ns, IsName s) {s : String} (hs : IsName s) :
    splitPath (Path.join (pathOf ns) s) = ns ++ [s] := by
  rw [splitPath_join (Path.isAbsolute_of_isName hs), splitPath_pathOf hns, splitPath_of_isName hs]

/-- Code that reads a file is settled if it does not look at the reason of a failure. -/
theorem settled_blobAt_bind (hp : d.Named) {path : String} (h : AskablePath τ d (splitPath path))
    {f : Except VfsError Bytes → StateM Tree β} {R : β → Prop} (failed : StateM Tree β)
    (hok : ∀ data, d.read (pathOf (splitPath path)) = .ok data → Settled τ d ok (f (.ok data)) R)
    (hfailed : (∀ data, d.read (pathOf (splitPath path)) ≠ .ok data) →
      (∀ e, f (.error e) = failed) ∧ Settled τ d ok failed R) :
    Settled τ d ok (Vfs.blobAt d path >>= f) R := by
  cases hread : d.read (pathOf (splitPath path)) with
  | ok data =>
    obtain ⟨a, ha, hact⟩ := hok data hread
    refine ⟨a, ha, fun t ht => (gives_blobAt hp ht h).bind fun r t' ht' _ hr => ?_⟩
    rw [(hr data).mpr hread]
    exact hact t' ht'
  | error e =>
    obtain ⟨heq, a, ha, hact⟩ := hfailed (by simp [hread])
    refine ⟨a, ha, fun t ht => (gives_blobAt hp ht h).bind fun r t' ht' _ hr => ?_⟩
    cases r with
    | ok data => cases ((hr data).mp rfl).symm.trans hread
    | error e =>
      rw [heq]
      exact hact t' ht'

/-- A file that is there can be read. -/
theorem exists_read_of_file {path : String} (h : d.kindAt path = some .file) : ∃ data, d.read path = .ok data := by
  rw [Disk.kindAt] at h
  split at h
  · next e he =>
    obtain ⟨item, modified⟩ := e
    cases item <;> cases h
    next data tool => exact ⟨data, by rw [Disk.read, he]⟩
  · cases h

/-! ## Modules -/

/-- The requirement that a replacement stands for, as the disk has it. -/
def replacement (d : Disk) (dir : String) (r : Replace) : Requirement :=
  let target := Path.clean (Path.join dir r.newPath)
  if r.isLocal ∧ d.kindAt (pathOf (splitPath target ++ ["go.mod"])) = some .file then
    { dir := some target, path := r.oldPath, version := r.newVersion.getD "" }
  else { path := r.newPath, version := r.newVersion.getD "" }

/-- The versions in the `go.sum` of a place. -/
def sumsAt (d : Disk) (ns : List String) : List Require :=
  match d.read (pathOf (ns ++ ["go.sum"])) with
  | .ok data => parseSum (Utf8.lossy data)
  | .error _ => []

/-- The directory of a module in a module cache, below the workspace. -/
def cacheName (path version : String) : String := s!"pkg/mod/{encodePath path}@{version}"

namespace ModuleRoot

/-- Adds what `go.sum` lists for paths without a requirement. -/
def addSums (rs : List (String × Requirement)) (sums : List Require) : List (String × Requirement) :=
  sums.foldl (fun rs r => if rs.any (·.1 == r.path) then rs
    else rs ++ [(r.path, { path := r.path, version := r.version })]) rs

/-- The requirements of a module, as the disk has them. -/
def requirementList (d : Disk) (dir : String) (m : ModFile) (sums : List Require) : List (String × Requirement) :=
  let rs := m.require.foldl (fun rs r => set rs r.path { path := r.path, version := r.version }) []
  let rs := m.replace.foldl (fun rs r => set rs r.oldPath (replacement d dir r)) rs
  addSums (set rs m.module { dir := some dir, path := m.module }) sums

theorem settled_ofReplace (hp : d.Named) {dir : String} {r : Replace}
    (h : r.isLocal = true → AskablePath τ d (splitPath (Path.clean (Path.join dir r.newPath)))) :
    Settled τ d ok (ofReplace d dir r) (· = replacement d dir r) := by
  rw [ofReplace, replacement]
  cases hlocal : r.isLocal with
  | false => exact .pure (by simp)
  | true =>
    have hsplit : splitPath (Path.join (Path.clean (Path.join dir r.newPath)) "go.mod") =
        splitPath (Path.clean (Path.join dir r.newPath)) ++ ["go.mod"] := by
      rw [splitPath_join (by decide), splitPath_of_isName (s := "go.mod") (by decide)]
    have hask := (h hlocal).file (s := "go.mod") (by decide) (by decide)
    have hfile : Settled τ d ok (Vfs.isFileAt d (Path.join (Path.clean (Path.join dir r.newPath)) "go.mod"))
        (· = decide (d.kindAt (pathOf (splitPath (Path.clean (Path.join dir r.newPath)) ++ ["go.mod"])) =
          some .file)) := by
      rw [← hsplit] at hask ⊢
      exact ⟨_, rfl, fun t ht => gives_isFileAt hp ht hask⟩
    refine hfile.bind fun x hx => ?_
    cases x with
    | true => exact .pure (by simp [of_decide_eq_true hx.symm])
    | false => exact .pure (by simp [of_decide_eq_false hx.symm])

section Load

variable {ns : List String}

theorem settled_requirementsOf (hp : d.Named) (hns : ∀ s ∈ ns, IsName s) (hask : AskablePath τ d ns) {m : ModFile}
    (hreplace : ∀ r ∈ m.replace, r.isLocal = true →
      AskablePath τ d (splitPath (Path.clean (Path.join (pathOf ns) r.newPath)))) :
    Settled τ d ok (requirementsOf d (pathOf ns) m)
      (· = requirementList d (pathOf ns) m (sumsAt d ns)) := by
  have hstep : ∀ rs, ∀ r ∈ m.replace,
      Settled τ d ok (do return set rs r.oldPath (← ofReplace d (pathOf ns) r))
        (· = set rs r.oldPath (replacement d (pathOf ns) r)) :=
    fun rs r hr => (settled_ofReplace hp (hreplace r hr)).bind fun x hx => .pure (by rw [hx])
  refine (Settled.foldlM hstep _).bind fun rs hrs => ?_
  subst hrs
  have hsplit := splitPath_join_pathOf hns (s := "go.sum") (by decide)
  refine settled_blobAt_bind hp (hsplit ▸ hask.file (by decide) (by decide)) _ (fun data hread => .pure ?_)
    fun hno => ⟨fun _ => rfl, .pure ?_⟩
  · rw [hsplit] at hread
    rw [requirementList, sumsAt, hread]
    rfl
  · rw [hsplit] at hno
    have hnil : sumsAt d ns = [] := by
      rw [sumsAt]
      split
      · next data hread => exact absurd hread (hno data)
      · rfl
    rw [requirementList, hnil]
    rfl

/-- The module that the text of a module file describes. -/
def ofText (d : Disk) (ns : List String) (data : Bytes) : Except ImportError ModuleRoot :=
  match ModFile.parse (Utf8.lossy data) with
  | .ok m => .ok ⟨pathOf ns, m.module, requirementList d (pathOf ns) m (sumsAt d ns)⟩
  | .error e => .error (.other e.message)

theorem settled_load (hp : d.Named) (hns : ∀ s ∈ ns, IsName s) (hask : AskablePath τ d ns) {data : Bytes}
    (hread : d.read (pathOf (ns ++ ["go.mod"])) = .ok data)
    (hreplace : ∀ m, ModFile.parse (Utf8.lossy data) = .ok m → ∀ r ∈ m.replace, r.isLocal = true →
      AskablePath τ d (splitPath (Path.clean (Path.join (pathOf ns) r.newPath)))) :
    Settled τ d ok (load d (pathOf ns)) (· = ofText d ns data) := by
  have hsplit := splitPath_join_pathOf hns (s := "go.mod") (by decide)
  refine settled_blobAt_bind hp (hsplit ▸ hask.file (by decide) (by decide)) (pure (.error (.other "")))
    (fun data' hread' => ?_) fun hno => absurd hread (hsplit ▸ hno data)
  obtain rfl : data = data' := Except.ok.inj (hread.symm.trans (hsplit ▸ hread'))
  rw [ofText]
  simp only
  split
  · next hm => exact .pure (by rw [hm])
  · next m hm =>
    rw [hm]
    exact (settled_requirementsOf hp hns hask (hreplace m hm)).bind fun rs hrs => .pure (by rw [hrs])

end Load

/-- The directories in which a covered package may be. -/
def places (b : BuildContext) (m : ModuleRoot) (r : Requirement) (importPath sub : String) : List String :=
  match r.dir with
  | some dir => [Path.clean (Path.join dir sub)]
  | none => candidates b m r importPath sub

/-- Where a module finds a package on the disk. -/
def located? (d : Disk) (b : BuildContext) (m : ModuleRoot) (importPath : String) : Option PackagePath :=
  (m.covering? importPath).bind fun (r, matched, sub) =>
    if matched = m.module ∧ sub = "" then none
    else ((places b m r importPath sub).find? (holdsPackage d)).map (⟨·, importPath, false, some matched⟩)

/-- A module has no package for an import path, or looks for it in the places for what covers the path, on every
disk. -/
theorem find_cases_forall (b : BuildContext) (m : ModuleRoot) (importPath : String) :
    (∃ e, ∀ d, m.find d b importPath = pure (.error e) ∧ m.located? d b importPath = none) ∨
      ∃ r q sub e, m.covering? importPath = some (r, q, sub) ∧ ¬ (q = m.module ∧ sub = "") ∧
        ∀ d, m.find d b importPath = do
          match ← firstPackage d (places b m r importPath sub) with
          | some dir => return .ok ⟨dir, importPath, false, some q⟩
          | none => return .error e := by
  simp only [find, located?]
  cases hcov : m.covering? importPath with
  | none => exact .inl ⟨_, fun _ => ⟨rfl, rfl⟩⟩
  | some x =>
    obtain ⟨r, q, sub⟩ := x
    simp only [Option.bind_some]
    by_cases hmain : q = m.module ∧ sub = ""
    · have hboth : (decide (q = m.module) && decide (sub = "")) = true := by simpa using hmain
      simp only [hboth, if_pos hmain, if_true]
      exact .inl ⟨_, fun _ => ⟨rfl, trivial⟩⟩
    · have hboth : (decide (q = m.module) && decide (sub = "")) = false := by simpa using hmain
      simp only [hboth, Bool.false_eq_true, if_false]
      cases hdir : r.dir with
      | some dir =>
        have hplaces : places b m r importPath sub = [Path.clean (Path.join dir sub)] := by simp only [places, hdir]
        simp only [← hplaces]
        exact .inr ⟨r, q, sub, _, rfl, hmain, fun _ => rfl⟩
      | none =>
        have hplaces : places b m r importPath sub = candidates b m r importPath sub := by simp only [places, hdir]
        simp only [← hplaces]
        exact .inr ⟨r, q, sub, _, rfl, hmain, fun _ => rfl⟩

theorem find_cases (d : Disk) (b : BuildContext) (m : ModuleRoot) (importPath : String) :
    (∃ e, m.find d b importPath = pure (.error e) ∧ m.located? d b importPath = none) ∨
      ∃ r q sub e, m.covering? importPath = some (r, q, sub) ∧ ¬ (q = m.module ∧ sub = "") ∧
        m.find d b importPath = do
          match ← firstPackage d (places b m r importPath sub) with
          | some dir => return .ok ⟨dir, importPath, false, some q⟩
          | none => return .error e := by
  rcases find_cases_forall b m importPath with ⟨e, hnone⟩ | ⟨r, q, sub, e, hcov, hmain, hfind⟩
  · exact .inl ⟨e, hnone d⟩
  · exact .inr ⟨r, q, sub, e, hcov, hmain, hfind d⟩

theorem settled_find (hp : d.Named) {m : ModuleRoot} {importPath : String}
    (h : ∀ r q sub, m.covering? importPath = some (r, q, sub) → ¬ (q = m.module ∧ sub = "") →
      ∀ dir ∈ places b m r importPath sub, Searchable τ d dir) :
    Settled τ d ok (m.find d b importPath) fun x => x.toOption = m.located? d b importPath := by
  rcases find_cases d b m importPath with ⟨e, hfind, hnone⟩ | ⟨r, q, sub, e, hcov, hmain, hfind⟩
  · rw [hfind, hnone]
    exact .pure rfl
  · rw [hfind, located?, hcov, Option.bind_some]
    simp only [if_neg hmain]
    refine (settled_firstPackage hp (h r q sub hcov hmain)).bind fun o ho => ?_
    rw [← ho]
    cases o <;> exact .pure rfl

end ModuleRoot

/-! ## The module cache -/

theorem isRest_dropWhile (s : List Char) : IsRest (String.ofList (s.dropWhile (· != '/'))) := by
  cases h : s.dropWhile (· != '/') with
  | nil => exact .inl rfl
  | cons c r =>
    have hc : c = '/' := by
      have := List.head?_dropWhile_not (· != '/') s
      simpa [h] using this
    exact .inr (by simp [Text.startsWith, hc])

theorem exists_rest_of_cachedModule? {dir cached module version : String}
    (h : cachedModule? dir = some (cached, module, version)) : ∃ t, dir = cached ++ t ∧ IsRest t := by
  rw [cachedModule?] at h
  simp only [Option.bind_eq_bind, Option.bind_eq_some_iff, Option.pure_def, Option.some.injEq,
    Prod.mk.injEq] at h
  obtain ⟨⟨before, rest⟩, hcut, ⟨_, versioned⟩, hcut', rfl, rfl, rfl⟩ := h
  refine ⟨_, ?_, isRest_dropWhile versioned.toList⟩
  have hrest := Text.cut?_eq hcut'
  simp only at hrest
  rw [Text.cut?_eq hcut, hrest]
  apply String.toList_injective
  simp [List.takeWhile_append_dropWhile]

/-- A package of the module cache is looked for in its module, if the import path goes by it, on every disk. -/
theorem findInModCache_cases_forall (importPath srcDir : String) :
    (∀ d, findInModCache d importPath srcDir = pure none) ∨
      ∃ dir module version sub, cachedModule? (Path.clean srcDir) = some (dir, module, version) ∧
        importPath = module ++ sub ∧ IsRest sub ∧ ∀ d, findInModCache d importPath srcDir = do
          if ← hasGoFiles d (Path.join dir (String.ofList (sub.toList.dropWhile (· == '/')))) then
            return some { dir := Path.clean (Path.join dir (String.ofList (sub.toList.dropWhile (· == '/')))),
                          importPath, module := some module }
          return none := by
  delta findInModCache
  cases hmod : cachedModule? (Path.clean srcDir) with
  | none => exact .inl fun _ => rfl
  | some x =>
    obtain ⟨dir, module, version⟩ := x
    simp only
    cases hafter : Text.after? importPath module with
    | none => exact .inl fun _ => rfl
    | some sub =>
      simp only
      split
      · exact .inl fun _ => rfl
      · next hcond =>
        have hrest : IsRest sub := by
          by_cases hsub : sub = ""
          · exact .inl hsub
          · exact .inr (by simp_all)
        exact .inr ⟨dir, module, version, sub, rfl, Text.after?_eq hafter, hrest, fun _ => rfl⟩

theorem findInModCache_cases (d : Disk) (importPath srcDir : String) :
    findInModCache d importPath srcDir = pure none ∨
      ∃ dir module version sub, cachedModule? (Path.clean srcDir) = some (dir, module, version) ∧
        importPath = module ++ sub ∧ IsRest sub ∧ findInModCache d importPath srcDir = do
          if ← hasGoFiles d (Path.join dir (String.ofList (sub.toList.dropWhile (· == '/')))) then
            return some { dir := Path.clean (Path.join dir (String.ofList (sub.toList.dropWhile (· == '/')))),
                          importPath, module := some module }
          return none := by
  rcases findInModCache_cases_forall importPath srcDir with
    hnone | ⟨dir, module, version, sub, hmod, himport, hrest, heq⟩
  · exact .inl (hnone d)
  · exact .inr ⟨dir, module, version, sub, hmod, himport, hrest, heq d⟩

/-! ## Notes -/

variable {importPath srcDir : String} {t : Tree} {n : NodeId} {ns : List String} {k : CacheKey}

/-- A note that can only be one truth value is that one. -/
theorem gives_readFlag {x : Bool} {init : StateM Tree Bool} (ht : Coherent τ d ok t) (hn : Stands t n ns)
    (hflag : ∀ y, ok ns k y ↔ y = .flag x) (hinit : Settled τ d ok init (· = x)) :
    Gives τ d ok (readFlag n k init) t fun y _ => y = x := by
  obtain ⟨_, rfl, hinit⟩ := hinit
  refine (gives_readNote ht hn fun t₁ ht₁ => ?_).bind fun y t₁ ht₁ _ hy => ?_
  · exact (hinit t₁ ht₁).bind fun y t₂ ht₂ _ hy => .pure ht₂ ((hflag _).mpr (by rw [hy]))
  · obtain rfl := (hflag y).mp hy
    exact .pure ht₁ rfl

theorem gives_readFound {init : StateM Tree (Except ImportError PackagePath)} (ht : Coherent τ d ok t)
    (hn : Stands t n ns) (hfound : ∀ y, ok ns k y → ∃ r, y = .found r)
    (hinit : ∀ t₁, Coherent τ d ok t₁ → Gives τ d ok init t₁ fun r _ => ok ns k (.found r)) :
    Gives τ d ok (readFound n k init) t fun r _ => ok ns k (.found r) := by
  refine (gives_readNote ht hn fun t₁ ht₁ => ?_).bind fun y t₁ ht₁ _ hy => ?_
  · exact (hinit t₁ ht₁).bind fun r t₂ ht₂ _ hr => .pure ht₂ hr
  · obtain ⟨r, rfl⟩ := hfound y hy
    exact .pure ht₁ hy

/-- Whether modules are in use in a directory. -/
def usesModules (d : Disk) (b : BuildContext) (dir : String) : Bool :=
  match b.env.get? "GO111MODULE" with
  | some "on" => true
  | some "off" => false
  | _ => liesInModule d b dir

theorem settled_modEnabled (hp : d.Named) (hsrc : AskablePath τ d (splitPath (Path.clean srcDir)))
    (hok : ∀ ns x, ok ns (.modEnabled (b.sourceDir srcDir).normal) x ↔
      x = .flag (liesInModule d b (Path.clean srcDir))) :
    Settled τ d ok (modEnabled d b srcDir) (· = usesModules d b (Path.clean srcDir)) := by
  rw [modEnabled]
  split
  · next h => exact .pure (by simp [usesModules, h])
  · next h => exact .pure (by simp [usesModules, h])
  · next hon hoff =>
    have huses : usesModules d b (Path.clean srcDir) = liesInModule d b (Path.clean srcDir) := by
      rw [usesModules]
      split
      · next h => exact absurd h hon
      · next h => exact absurd h hoff
      · rfl
    rw [huses]
    have hagain : AskablePath τ d (splitPath (Path.clean (Path.clean srcDir))) := by rwa [Path.clean_clean]
    exact ⟨_, rfl, fun t ht => (gives_nodeAt ht hsrc).bind fun n t₁ ht₁ _ hn =>
      gives_readFlag ht₁ hn (fun _ => hok _ _) (settled_inModule hp b hagain)⟩

theorem Stands.parent {s : String} (ht : Coherent τ d ok t) (hn : Stands t n (ns ++ [s])) :
    ∃ p, (t.node n).parent = some p ∧ Stands t p ns := by
  have hs := ht.sound n hn.lt
  cases hp : (t.node n).parent with
  | none =>
    obtain rfl := hs.top hp
    have := ht.stands_root.names.symm.trans hn.names
    simp at this
  | some p =>
    obtain ⟨hlt, hne⟩ := hs.parent p hp
    have hnames := names_child hp hlt rfl hne
    rw [hn.names] at hnames
    exact ⟨p, rfl, Nat.lt_trans hlt hn.lt, (List.append_inj' hnames rfl).1.symm⟩

/-- A directory that sees a module file looks packages up with the module, and notes them there. -/
theorem gives_findInModule (hp : d.Named) (hsrc : AskablePath τ d (splitPath (Path.clean srcDir)))
    (hmod : modFileAt d srcDir = some (ns ++ ["go.mod"]))
    (hfound : ∀ y, ok ns (.find (b.sourceDir srcDir).normal importPath) y → ∃ r, y = .found r)
    (hsearch : ∀ t₁, Coherent τ d ok t₁ → Gives τ d ok (searchModule d b (pathOf ns) importPath) t₁
      fun r _ => ok ns (.find (b.sourceDir srcDir).normal importPath) (.found r)) (ht : Coherent τ d ok t) :
    Gives τ d ok (findInModule d b importPath srcDir) t
      fun r _ => ok ns (.find (b.sourceDir srcDir).normal importPath) (.found r) := by
  refine (gives_modFile? hp hsrc ht).bind fun o t₁ ht₁ _ ho => ?_
  rw [hmod] at ho
  obtain ⟨hc⟩ := ho
  obtain ⟨n, hparent, hn⟩ := Stands.parent ht₁ hc
  refine Gives.get ?_
  simp only [hparent]
  rw [hn.path_eq]
  exact gives_readFound ht₁ hn hfound hsearch

/-! ## Notes that say what is so -/

/-- What is noted at the nodes of a tree that packages are looked up in. -/
def Noted (d : Disk) (b : BuildContext) : List String → CacheKey → CacheValue → Prop
  | _, .modEnabled k, .flag x => x = liesInModule d b k.dir
  | ns, .find k importPath, .found r =>
    r = if usesModules d b k.dir then (searchModule d b (pathOf ns) importPath blankTree).1
      else (searchRoots d b importPath k.dir blankTree).1
  | _, _, _ => False

theorem noted_flag_iff {k : SourceDir} {x : CacheValue} :
    Noted d b ns (.modEnabled k) x ↔ x = .flag (liesInModule d b k.dir) := by
  cases x <;> simp [Noted]

theorem noted_find_iff {k : SourceDir} {x : CacheValue} :
    Noted d b ns (.find k importPath) x ↔
      x = .found (if usesModules d b k.dir then (searchModule d b (pathOf ns) importPath blankTree).1
        else (searchRoots d b importPath k.dir blankTree).1) := by
  cases x <;> simp [Noted]

/-- Notes that say what is so under every key of a context. -/
structure Truthful (ok : List String → CacheKey → CacheValue → Prop) (d : Disk) (b : BuildContext) : Prop where
  flag : ∀ ns dir x, ok ns (.modEnabled (b.sourceDir dir).normal) x ↔
    Noted d b ns (.modEnabled (b.sourceDir dir).normal) x
  found : ∀ ns dir importPath x, ok ns (.find (b.sourceDir dir).normal importPath) x ↔
    Noted d b ns (.find (b.sourceDir dir).normal importPath) x

theorem truthful_noted (d : Disk) (b : BuildContext) : Truthful (Noted d b) d b :=
  ⟨fun _ _ _ => .rfl, fun _ _ _ _ => .rfl⟩

theorem Truthful.flag_iff {dir : String} {x : CacheValue} (h : Truthful ok d b) :
    ok ns (.modEnabled (b.sourceDir dir).normal) x ↔ x = .flag (liesInModule d b (Path.clean dir)) :=
  (h.flag ns dir x).trans noted_flag_iff

theorem Truthful.found_iff {dir : String} {x : CacheValue} (h : Truthful ok d b) :
    ok ns (.find (b.sourceDir dir).normal importPath) x ↔
      x = .found (if usesModules d b (Path.clean dir) then (searchModule d b (pathOf ns) importPath blankTree).1
        else (searchRoots d b importPath (Path.clean dir) blankTree).1) :=
  (h.found ns dir importPath x).trans noted_find_iff

theorem settled_findInModule (hp : d.Named) (hok : Truthful ok d b)
    (hsrc : AskablePath τ d (splitPath (Path.clean srcDir))) (hmod : modFileAt d srcDir = some (ns ++ ["go.mod"]))
    (huses : usesModules d b (Path.clean srcDir) = true) {P : Except ImportError PackagePath → Prop}
    (hsearch : Settled τ d ok (searchModule d b (pathOf ns) importPath) P) :
    Settled τ d ok (findInModule d b importPath srcDir) P := by
  refine ⟨_, hsearch.answer.1, fun t ht => ?_⟩
  refine (gives_findInModule hp hsrc hmod (fun y hy => ⟨_, hok.found_iff.mp hy⟩) (fun t₁ ht₁ => ?_) ht).mono
    fun r _ _ _ hr => ?_
  · exact (hsearch.answer.2 t₁ ht₁).mono fun r _ _ _ hr => by rw [hok.found_iff, huses, if_pos rfl, hr]
  · rw [hok.found_iff, huses, if_pos rfl] at hr
    exact CacheValue.found.inj hr

theorem settled_findInGopath (hok : Truthful ok d b)
    (hsrc : AskablePath τ d (splitPath (Path.clean srcDir))) (huses : usesModules d b (Path.clean srcDir) = false)
    {P : Except ImportError PackagePath → Prop}
    (hsearch : Settled τ d ok (searchRoots d b importPath (Path.clean srcDir)) P) :
    Settled τ d ok (findInGopath d b importPath srcDir) P := by
  have huses' : ¬ usesModules d b (Path.clean srcDir) = true := by simp [huses]
  refine ⟨_, hsearch.answer.1, fun t ht => (gives_nodeAt ht hsrc).bind fun n t₁ ht₁ _ hn => ?_⟩
  refine (gives_readFound ht₁ hn (fun y hy => ⟨_, hok.found_iff.mp hy⟩) fun t₂ ht₂ => ?_).mono fun r _ _ _ hr => ?_
  · exact (hsearch.answer.2 t₂ ht₂).mono fun r _ _ _ hr => by rw [hok.found_iff, if_neg huses', hr]
  · rw [hok.found_iff, if_neg huses'] at hr
    exact CacheValue.found.inj hr

end EditorAgent.Go

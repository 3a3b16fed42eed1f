import EditorAgent.Proofs.Disk.NewDirectory
import EditorAgent.Proofs.Go.Lookup
import Mathlib.Data.List.Find

/-!
# What a new directory changes for lookups

A new directory is taken for a source where names are listed, if it is named like one. It hides the module file of
an enclosing directory if it is named like that. Otherwise every question that lookups ask about a path that never
leads up has the answer it had, except whether there is a directory at the new place itself.
-/

namespace EditorAgent.Go

open Vfs

variable {d d' : Disk} {b : BuildContext} {l : Location} {sub dir : String} {ns : List String} {modified : Int}

/-- A directory that gets a new one holds a package then if it held one, or if the new one is named like a source. -/
theorem holdsPackage_newDirectory (h : d.NewDirectory (l ++ [sub]) d')
    (hloc : d.locate (pathOf (splitPath dir)) true = .ok l) (hdir : d.get? l = some ⟨.dir, modified⟩) :
    holdsPackage d' dir = (holdsPackage d dir || isPackageFileName sub) := by
  obtain ⟨modified', hdir'⟩ := h.exists_get? hdir
  have hloc' := h.locate_eq_ok hloc
  have his : IsDir d dir := by
    rw [IsDir, Disk.kindAt_eq_itemAt, Disk.itemAt_of_locate hloc, hdir]
    rfl
  have his' : IsDir d' dir := h.kindAt_eq_some his
  have hmem : ∀ s, s ∈ d'.names (pathOf (splitPath dir)) ↔ s ∈ d.names (pathOf (splitPath dir)) ∨ s = sub := by
    intro s
    rw [Disk.mem_names_iff_of_locate hloc' hdir', Disk.mem_names_iff_of_locate hloc hdir]
    by_cases hs : s = sub
    · simp [hs, Option.isSome_iff_exists.mpr ⟨_, (Disk.exists_dir_of_item h.made).choose_spec⟩]
    · rw [h.isSome_get? (by simpa using hs), or_iff_left hs]
  simp only [holdsPackage, his, his', decide_true, Bool.true_and]
  rw [Bool.eq_iff_iff, Bool.or_eq_true, List.any_eq_true, List.any_eq_true]
  constructor
  · rintro ⟨s, hs, hpackage⟩
    rcases (hmem s).mp hs with hs | rfl
    · exact .inl ⟨s, hs, hpackage⟩
    · exact .inr hpackage
  · rintro (⟨s, hs, hpackage⟩ | hpackage)
    · exact ⟨s, (hmem s).mpr (.inl hs), hpackage⟩
    · exact ⟨sub, (hmem sub).mpr (.inr rfl), hpackage⟩

section Linkless

variable (h : d.NewDirectory (l ++ [sub]) d') (hlink : d.Linkless) (hlink' : d'.Linkless)

include h hlink hlink'

theorem isDir_iff_of_ne (hup : ".." ∉ splitPath dir) (hne : splitPath dir ≠ l ++ [sub]) :
    IsDir d' dir ↔ IsDir d dir := by
  rw [IsDir, IsDir, h.kindAt_eq hlink hlink' (fun _ => isName_of_mem_splitPath) hup hne]

omit hlink' in
/-- Only the directory above lists the new one. -/
theorem mem_names_iff_of_ne (hup : ".." ∉ splitPath dir) (his : IsDir d dir) {s : String} (hs : s ≠ sub) :
    s ∈ d'.names (pathOf (splitPath dir)) ↔ s ∈ d.names (pathOf (splitPath dir)) := by
  obtain ⟨hloc, modified, hdir⟩ := hlink.locate_dir (fun _ => isName_of_mem_splitPath) hup his
  obtain ⟨modified', hdir'⟩ := h.exists_get? hdir
  rw [Disk.mem_names_iff_of_locate (h.locate_eq_ok hloc) hdir', Disk.mem_names_iff_of_locate hloc hdir, h.isSome_get?]
  intro heq
  exact hs (List.singleton_inj.mp (List.append_inj' heq rfl).2)

/-- A new directory that is not named like a source makes no package. -/
theorem holdsPackage_eq_of_newDirectory (hsub : isPackageFileName sub = false) (hup : ".." ∉ splitPath dir) :
    holdsPackage d' dir = holdsPackage d dir := by
  by_cases hne : splitPath dir = l ++ [sub]
  · -- The new directory is empty.
    have hgone : holdsPackage d dir = false := by
      rw [Bool.eq_false_iff]
      intro hholds
      obtain ⟨-, modified, hdir⟩ :=
        hlink.locate_dir (fun _ => isName_of_mem_splitPath) hup (isDir_of_holdsPackage hholds)
      exact h.ne_of_get? hdir hne
    have hempty : holdsPackage d' dir = false := by
      rw [Bool.eq_false_iff]
      intro hholds
      obtain ⟨hloc, modified, hdir⟩ :=
        hlink'.locate_dir (fun _ => isName_of_mem_splitPath) hup (isDir_of_holdsPackage hholds)
      simp only [holdsPackage, Bool.and_eq_true, List.any_eq_true] at hholds
      obtain ⟨-, s, hs, -⟩ := hholds
      rw [Disk.mem_names_iff_of_locate hloc hdir, h.get?_eq_none (by simp [hne]) (by simp [hne])] at hs
      cases hs
    rw [hgone, hempty]
  · rw [holdsPackage, holdsPackage]
    by_cases his : IsDir d dir
    · have his' := (isDir_iff_of_ne h hlink hlink' hup hne).mpr his
      rw [decide_eq_true his, decide_eq_true his']
      refine congrArg _ (any_isPackageFileName_eq fun s hs => ?_)
      refine mem_names_iff_of_ne h hlink hup his ?_
      rintro rfl
      exact Bool.false_ne_true (hsub.symm.trans hs)
    · have his' := mt (isDir_iff_of_ne h hlink hlink' hup hne).mp his
      rw [decide_eq_false his, decide_eq_false his', Bool.false_and, Bool.false_and]

/-! ## Modules -/

theorem kindAt_concat_eq (hns : ∀ s ∈ ns, IsName s) (hup : ".." ∉ ns) {s : String} (hs : IsName s) (hs' : s ≠ "..")
    (hne : s ≠ sub) : d'.kindAt (pathOf (ns ++ [s])) = d.kindAt (pathOf (ns ++ [s])) :=
  h.kindAt_eq hlink hlink' (List.forall_mem_append.mpr ⟨hns, List.forall_mem_singleton.mpr hs⟩)
    (by simpa [Ne.symm hs'] using hup) fun heq => hne (List.singleton_inj.mp (List.append_inj' heq rfl).2)

/-- A new directory that is not named like a module file hides none. -/
theorem modFileAt_eq_of_newDirectory (hmod : sub ≠ "go.mod") (hup : ".." ∉ splitPath (Path.clean dir)) :
    modFileAt d' dir = modFileAt d dir := by
  have hkind : ∀ ns ∈ (splitPath (Path.clean dir)).inits.reverse,
      d'.kindAt (pathOf (ns ++ ["go.mod"])) = d.kindAt (pathOf (ns ++ ["go.mod"])) := by
    intro ns hns
    have hpre : ns <+: splitPath (Path.clean dir) := by simpa using hns
    exact kindAt_concat_eq h hlink hlink' (fun s hs => isName_of_mem_splitPath (hpre.subset hs))
      (fun hm => hup (hpre.subset hm)) (by decide) (by decide) hmod.symm
  have hnearest : nearest d' "go.mod" (splitPath (Path.clean dir)).inits.reverse =
      nearest d "go.mod" (splitPath (Path.clean dir)).inits.reverse := by
    rw [nearest, nearest, List.find?_map, List.find?_map]
    refine congrArg _ (List.find?_congr fun ns hns => ?_)
    simp only [Function.comp, hkind ns hns]
  rw [modFileAt, modFileAt, hnearest]
  cases hfound : nearest d "go.mod" (splitPath (Path.clean dir)).inits.reverse with
  | none => rfl
  | some place =>
    rw [nearest] at hfound
    obtain ⟨ns, hns, rfl⟩ := List.mem_map.mp (List.mem_of_find?_eq_some hfound)
    rw [Option.filter_some, Option.filter_some, hkind ns hns]

theorem usesModules_eq_of_newDirectory (hmod : sub ≠ "go.mod") (hup : ".." ∉ splitPath (Path.clean dir)) :
    usesModules d' b dir = usesModules d b dir := by
  rw [usesModules, usesModules, liesInModule, liesInModule, modFileAt_eq_of_newDirectory h hlink hlink' hmod hup]

theorem sumsAt_eq_of_newDirectory (hns : ∀ s ∈ ns, IsName s) (hup : ".." ∉ ns) : sumsAt d' ns = sumsAt d ns := by
  have hall : ∀ s ∈ ns ++ ["go.sum"], IsName s :=
    List.forall_mem_append.mpr ⟨hns, List.forall_mem_singleton.mpr (by decide)⟩
  have hsteps : ".." ∉ Disk.steps (pathOf (ns ++ ["go.sum"])) :=
    Disk.up_not_mem_steps (by rw [splitPath_pathOf hall]; simpa using hup)
  have hread : ∀ data, d'.read (pathOf (ns ++ ["go.sum"])) = .ok data ↔ d.read (pathOf (ns ++ ["go.sum"])) = .ok data :=
    fun data => h.read_eq_ok_iff hlink hlink' hsteps
  rw [sumsAt, sumsAt]
  cases hr : d.read (pathOf (ns ++ ["go.sum"])) with
  | ok data => rw [(hread data).mpr hr]
  | error e =>
    cases hr' : d'.read (pathOf (ns ++ ["go.sum"])) with
    | ok data => cases hr.symm.trans ((hread data).mp hr')
    | error e' => rfl

theorem replacement_eq_of_newDirectory (hmod : sub ≠ "go.mod") {r : Replace}
    (hup : ".." ∉ splitPath (Path.clean (Path.join dir r.newPath))) : replacement d' dir r = replacement d dir r := by
  rw [replacement, replacement, kindAt_concat_eq h hlink hlink' (fun _ => isName_of_mem_splitPath) hup (by decide)
    (by decide) hmod.symm]

/-- A module file describes the module that it described. -/
theorem ofText_eq_of_newDirectory (hmod : sub ≠ "go.mod") (hns : ∀ s ∈ ns, IsName s) (hup : ".." ∉ ns) {data : Bytes}
    (hreplace : ∀ m, ModFile.parse (Utf8.lossy data) = .ok m → ∀ r ∈ m.replace,
      ".." ∉ splitPath (Path.clean (Path.join (pathOf ns) r.newPath))) :
    ModuleRoot.ofText d' ns data = ModuleRoot.ofText d ns data := by
  rw [ModuleRoot.ofText, ModuleRoot.ofText, sumsAt_eq_of_newDirectory h hlink hlink' hns hup]
  cases hm : ModFile.parse (Utf8.lossy data) with
  | error e => rfl
  | ok m =>
    have hfold : ∀ rs, m.replace.foldl
        (fun rs r => ModuleRoot.set rs r.oldPath (replacement d' (pathOf ns) r)) rs =
          m.replace.foldl (fun rs r => ModuleRoot.set rs r.oldPath (replacement d (pathOf ns) r)) rs := by
      refine fun rs => List.foldl_ext _ _ _ fun rs r hr => ?_
      rw [replacement_eq_of_newDirectory h hlink hlink' hmod (hreplace m hm r hr)]
    simp only [ModuleRoot.requirementList, hfold]

end Linkless
end EditorAgent.Go

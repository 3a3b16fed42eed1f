import EditorAgent.Proofs.Disk.Linkless
import EditorAgent.Proofs.Go.Settled
import EditorAgent.Proofs.Vfs.Ascents
import Mathlib

/-!
# The module file above a directory

Over a disk that does not change, whatever was asked of the tree before, the search for a module file finds the nearest
regular file of the name at or above the directory, unless something else goes by the name on the way to it. That ends
the search, and nothing is found.
-/

namespace EditorAgent.Go

open Vfs

variable {d : Disk} {t : Tree} {dir : String} {ns ms place : List String}

/-! ## The nearest entry -/

theorem nearest_concat (d : Disk) (name : String) (ns : List String) (s : String) :
    nearest d name (ns ++ [s]).inits.reverse =
      if (d.kindAt (pathOf (ns ++ [s] ++ [name]))).isSome then some (ns ++ [s] ++ [name])
      else nearest d name ns.inits.reverse := by
  have hinits : (ns ++ [s]).inits.reverse = (ns ++ [s]) :: ns.inits.reverse := by simp [List.inits_append]
  rw [nearest, hinits, List.map_cons, List.find?_cons]
  cases (d.kindAt (pathOf (ns ++ [s] ++ [name]))).isSome <;> rfl

/-- The nearest entry of a name stands in a directory above, and no deeper one has such an entry. -/
theorem exists_of_nearest {name : String} (h : nearest d name ns.inits.reverse = some place) :
    ∃ ms, place = ms ++ [name] ∧ ms <+: ns ∧ (d.kindAt (pathOf (ms ++ [name]))).isSome ∧
      ∀ ls, ls <+: ns → (d.kindAt (pathOf (ls ++ [name]))).isSome → ls <+: ms := by
  induction ns using List.reverseRecOn with
  | nil =>
    have hroot : nearest d name [].inits.reverse =
        if (d.kindAt (pathOf [name])).isSome then some [name] else none := by
      rw [nearest, List.inits, List.reverse_singleton, List.map_singleton, List.find?_singleton]
      rfl
    rw [hroot, Option.ite_none_right_eq_some] at h
    obtain ⟨hsome, hplace⟩ := h
    exact ⟨[], (Option.some.inj hplace).symm, List.prefix_refl _, hsome, fun ls hls _ => hls⟩
  | append_singleton ns s ih =>
    rw [nearest_concat] at h
    split at h
    · next hsome =>
      exact ⟨ns ++ [s], (Option.some.inj h).symm, List.prefix_refl _, hsome, fun ls hls _ => hls⟩
    · next hnone =>
      obtain ⟨ms, hplace, hms, hsome, hdeepest⟩ := ih h
      refine ⟨ms, hplace, hms.trans (List.prefix_append ns [s]), hsome, fun ls hls hentry => ?_⟩
      rcases List.prefix_concat_iff.mp hls with rfl | hls
      · exact absurd hentry hnone
      · exact hdeepest ls hls hentry

theorem kindAt_of_nearest_eq_none {name : String} (h : nearest d name ns.inits.reverse = none) (hms : ms <+: ns) :
    d.kindAt (pathOf (ms ++ [name])) = none := by
  rw [nearest, List.find?_eq_none] at h
  simpa using h (ms ++ [name]) (List.mem_map_of_mem (List.mem_reverse.mpr ((List.mem_inits _ _).mpr hms)))

/-! ## The search -/

theorem modFile?_leads (h : Known [d] t) (dir : String) :
    Keeps (Known [d]) (modFile? d dir) t fun o t' => Vfs.Leads t' o (modFileAt d dir) := by
  have hnames : ∀ s ∈ splitPath (Path.clean dir), s ≠ "" := fun s hs => (isName_of_mem_splitPath hs).1
  refine (h.nodeAt_leads (Path.clean dir)).bind fun n t₁ h₁ _ hn => ?_
  refine (h₁.locate_leads (by decide) hnames hn).bind fun o t₂ h₂ _ ho => ?_
  rw [modFileAt]
  cases hnear : nearest d "go.mod" (splitPath (Path.clean dir)).inits.reverse with
  | none =>
    rw [hnear] at ho
    cases ho
    exact .pure h₂ .missing
  | some place =>
    rw [hnear] at ho
    cases ho with | @found c _ hc
    obtain ⟨ns, rfl, hns, -⟩ := exists_of_nearest hnear
    have hplace : ∀ s ∈ ns ++ ["go.mod"], s ≠ "" :=
      List.forall_mem_append.mpr ⟨fun s hs => hnames s (hns.subset hs), by decide⟩
    have hfile : Keeps (Known [d]) (Vfs.isFile d c) t₂ fun x t' =>
        x = decide (d.kindAt (pathOf (ns ++ ["go.mod"])) = some .file) ∧
          t'.peekFrom rootId (ns ++ ["go.mod"]) = some c := by
      refine (h₂.stat_of_peekFrom hplace hc).bind fun r t₃ h₃ _ hstat => ?_
      obtain ⟨hanswer, hkept⟩ := hstat
      have hc₃ := hkept _ _ (List.prefix_refl _) hc
      rcases hanswer with ⟨info, rfl, hkind⟩ | ⟨⟨cause, rfl⟩, hkind⟩
      · exact .pure h₃ ⟨by simp [hkind], hc₃⟩
      · exact .pure h₃ ⟨by simp [hkind], hc₃⟩
    refine hfile.bind fun x t₃ h₃ _ hx => ?_
    obtain ⟨rfl, hc₃⟩ := hx
    by_cases hk : d.kindAt (pathOf (ns ++ ["go.mod"])) = some .file
    · simp only [hk, decide_true, if_true, Option.filter_some]
      exact .pure h₃ (.found hc₃)
    · simp only [hk, decide_false, Bool.false_eq_true, if_false, Option.filter_some]
      exact .pure h₃ .missing

/-! ## What is found -/

/-- A directory at or above another, as the tree divides its path, with a regular file by the name of a module file. -/
structure HasModFile (d : Disk) (dir : String) (ns : List String) : Prop where
  above : ns <+: splitPath (Path.clean dir)
  file : d.kindAt (pathOf (ns ++ ["go.mod"])) = some .file

/-- Something else goes by the name of a module file, on the way from a directory to the one above it. -/
def Hidden (d : Disk) (dir : String) (ns : List String) : Prop :=
  ∃ ms kind, ns <+: ms ∧ ms <+: splitPath (Path.clean dir) ∧ d.kindAt (pathOf (ms ++ ["go.mod"])) = some kind ∧
    kind ≠ .file

/-- The search ends at a regular file by the name of a module file, or before it. -/
theorem HasModFile.exists_nearest (h : HasModFile d dir ns) :
    ∃ ms kind, nearest d "go.mod" (splitPath (Path.clean dir)).inits.reverse = some (ms ++ ["go.mod"]) ∧ ns <+: ms ∧
      ms <+: splitPath (Path.clean dir) ∧ d.kindAt (pathOf (ms ++ ["go.mod"])) = some kind := by
  cases hnear : nearest d "go.mod" (splitPath (Path.clean dir)).inits.reverse with
  | none =>
    have hnone := kindAt_of_nearest_eq_none hnear h.above
    rw [h.file] at hnone
    cases hnone
  | some place =>
    obtain ⟨ms, rfl, hms, hsome, hdeepest⟩ := exists_of_nearest hnear
    obtain ⟨kind, hkind⟩ := Option.isSome_iff_exists.mp hsome
    exact ⟨ms, kind, rfl, hdeepest ns h.above (by rw [h.file]; rfl), hms, hkind⟩

theorem modFileAt_of_hasModFile (h : HasModFile d dir ns) (hnearest : ∀ ms, HasModFile d dir ms → ms <+: ns)
    (hshown : ¬ Hidden d dir ns) : modFileAt d dir = some (ns ++ ["go.mod"]) := by
  obtain ⟨ms, kind, hnear, hns, hms, hkind⟩ := h.exists_nearest
  obtain rfl : kind = .file := by
    by_contra hne
    exact hshown ⟨ms, kind, hns, hms, hkind, hne⟩
  obtain rfl : ns = ms := hns.eq_of_length_le (hnearest ms ⟨hms, hkind⟩).length_le
  rw [modFileAt, hnear, Option.filter_some, if_pos (decide_eq_true hkind)]

theorem hidden_of_modFileAt_eq_none (h : modFileAt d dir = none) (hfile : HasModFile d dir ns) : Hidden d dir ns := by
  obtain ⟨ms, kind, hnear, hns, hms, hkind⟩ := hfile.exists_nearest
  refine ⟨ms, kind, hns, hms, hkind, ?_⟩
  rintro rfl
  rw [modFileAt, hnear, Option.filter_some, if_pos (decide_eq_true hkind)] at h
  cases h

theorem not_hidden_of_modFileAt (h : modFileAt d dir = some place) :
    ∃ ns, place = ns ++ ["go.mod"] ∧ HasModFile d dir ns ∧ ¬ Hidden d dir ns := by
  rw [modFileAt, Option.filter_eq_some_iff] at h
  obtain ⟨hnear, hfile⟩ := h
  obtain ⟨ns, rfl, hns, -, hdeepest⟩ := exists_of_nearest hnear
  have hfile : d.kindAt (pathOf (ns ++ ["go.mod"])) = some .file := of_decide_eq_true hfile
  refine ⟨ns, rfl, ⟨hns, hfile⟩, ?_⟩
  rintro ⟨ms, kind, hbelow, hms, hkind, hne⟩
  obtain rfl : ns = ms := hbelow.eq_of_length_le (hdeepest ms hms (by rw [hkind]; rfl)).length_le
  exact hne (Option.some.inj (hkind.symm.trans hfile))

/-- Whatever was asked of a tree over a disk before, the search for a module file answers with the node of the nearest
regular file of the name at or above the directory, and with nothing if there is none. The one exception is that
something else goes by the name and is nearer: then nothing is found. -/
theorem modFile?_nearest (h : Known [d] t) (dir : String) :
    (∀ ns, HasModFile d dir ns → (∀ ms, HasModFile d dir ms → ms <+: ns) → ¬ Hidden d dir ns →
      ∃ c, (modFile? d dir t).1 = some c ∧ (modFile? d dir t).2.path c = pathOf (ns ++ ["go.mod"]) ∧
        (modFile? d dir t).2.peek? (pathOf (ns ++ ["go.mod"])) = some c) ∧
      ((modFile? d dir t).1 = none ↔ ∀ ns, HasModFile d dir ns → Hidden d dir ns) := by
  obtain ⟨hknown, -, hleads⟩ := modFile?_leads h dir
  refine ⟨fun ns hfile hnearest hshown => ?_, fun hnone ns hfile => ?_, fun hall => ?_⟩
  · have hnames : ∀ s ∈ ns ++ ["go.mod"], IsName s :=
      List.forall_mem_append.mpr ⟨fun s hs => isName_of_mem_splitPath (hfile.above.subset hs), by decide⟩
    rw [modFileAt_of_hasModFile hfile hnearest hshown] at hleads
    generalize hanswer : (modFile? d dir t).1 = o at hleads ⊢
    obtain ⟨hc⟩ := hleads
    refine ⟨_, rfl, congrArg pathOf (hknown.linked.names_of_peekFrom (fun s hs => (hnames s hs).1) hc), ?_⟩
    rw [peek?, splitPath_pathOf hnames]
    exact hc
  · refine hidden_of_modFileAt_eq_none ?_ hfile
    rw [hnone] at hleads
    generalize modFileAt d dir = o at hleads ⊢
    cases hleads
    rfl
  · cases hat : modFileAt d dir with
    | none =>
      rw [hat] at hleads
      generalize (modFile? d dir t).1 = o at hleads ⊢
      cases hleads
      rfl
    | some place =>
      obtain ⟨ns, -, hfile, hshown⟩ := not_hidden_of_modFileAt hat
      exact absurd (hall ns hfile) hshown

namespace Estate

/-- A module with a directory in it, and what goes by the name of a module file there. -/
def disk (extra : List (Location × DiskEntry)) : Disk :=
  ⟨[(["m"], ⟨.dir, 1⟩), (["m", "go.mod"], ⟨.file [] none, 1⟩), (["m", "p"], ⟨.dir, 1⟩)] ++ extra⟩

/-- A directory by the name of a module file. -/
def bar : Location × DiskEntry := (["m", "p", "go.mod"], ⟨.dir, 1⟩)

/-- A tree of which the name was asked before. -/
def asked (d : Disk) : Tree := (Vfs.statAt d "/m/p/go.mod" blankTree).2

theorem known_asked {d : Disk} (hd : d.Real) : Known [d] (asked d) := by
  have hblank : Known [d] blankTree := ⟨_, .start hd .never⟩
  exact ((hblank.nodeAt "/m/p/go.mod").bind fun _ _ h _ hc => h.stat hc).1

/-- No link leads away from where the names of module files are looked for. -/
theorem kindAt_eq {extra : List (Location × DiskEntry)} {ns : List String} (hextra : extra ∈ [[], [bar]])
    (hns : ns ∈ [[], ["m"], ["m", "p"]]) :
    (disk extra).kindAt (pathOf (ns ++ ["go.mod"])) = ((disk extra).get? (ns ++ ["go.mod"])).map (·.item.kind) := by
  simp only [List.mem_cons, List.not_mem_nil, or_false] at hextra hns
  rcases hextra with rfl | rfl <;> rcases hns with rfl | rfl | rfl
  all_goals
    rw [Disk.kindAt, Disk.entry, Disk.locate_pathOf (by decide) (by decide) (by decide) (by decide)]
    cbv

theorem above_iff {ns : List String} : ns <+: splitPath (Path.clean "/m/p") ↔ ns ∈ [[], ["m"], ["m", "p"]] := by
  rw [show splitPath (Path.clean "/m/p") = ["m", "p"] by decide, ← List.mem_inits]
  rfl

end Estate

open Estate in
theorem modFile?_nearest_estate :
    (Known [disk []] (asked (disk [])) ∧ Known [disk [bar]] (asked (disk [bar]))) ∧
    (∃ c, (modFile? (disk []) "/m/p" (asked (disk []))).1 = some c ∧
      (modFile? (disk []) "/m/p" (asked (disk []))).2.path c = "/m/go.mod") ∧
    (modFile? (disk [bar]) "/m/p" (asked (disk [bar]))).1 = none := by
  have hopen : Known [disk []] (asked (disk [])) := known_asked ⟨by decide, by decide⟩
  have hbarred : Known [disk [bar]] (asked (disk [bar])) := known_asked ⟨by decide, by decide⟩
  have hfile : (disk []).kindAt (pathOf (["m"] ++ ["go.mod"])) = some .file := kindAt_eq (by simp) (by simp)
  have hnone : (disk []).kindAt (pathOf (["m", "p"] ++ ["go.mod"])) = none := kindAt_eq (by simp) (by simp)
  have hroot : (disk []).kindAt (pathOf ([] ++ ["go.mod"])) = none := kindAt_eq (by simp) (by simp)
  have hdir : (disk [bar]).kindAt (pathOf (["m", "p"] ++ ["go.mod"])) = some .dir := kindAt_eq (by simp) (by simp)
  have hnearest : ∀ ms, HasModFile (disk []) "/m/p" ms → ms <+: ["m"] := by
    intro ms hms
    rcases (by simpa using above_iff.mp hms.above : ms = [] ∨ ms = ["m"] ∨ ms = ["m", "p"]) with rfl | rfl | rfl
    · exact List.nil_prefix
    · exact List.prefix_refl _
    · exact absurd (hnone.symm.trans hms.file) (by decide)
  have hshown : ¬ Hidden (disk []) "/m/p" ["m"] := by
    rintro ⟨ms, kind, -, hms, hkind, hne⟩
    rcases (by simpa using above_iff.mp hms : ms = [] ∨ ms = ["m"] ∨ ms = ["m", "p"]) with rfl | rfl | rfl
    · exact absurd (hroot.symm.trans hkind) (by simp)
    · exact hne (Option.some.inj (hkind.symm.trans hfile))
    · exact absurd (hnone.symm.trans hkind) (by simp)
  obtain ⟨c, hc, hpath, -⟩ :=
    (modFile?_nearest hopen "/m/p").1 ["m"] ⟨above_iff.mpr (by decide), hfile⟩ hnearest hshown
  refine ⟨⟨hopen, hbarred⟩, ⟨c, hc, hpath.trans (by decide)⟩, (modFile?_nearest hbarred "/m/p").2.mpr fun ns hns => ?_⟩
  exact ⟨["m", "p"], .dir, hns.above, List.prefix_refl _, hdir, by decide⟩

end EditorAgent.Go

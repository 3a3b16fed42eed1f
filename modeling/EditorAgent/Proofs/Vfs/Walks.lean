import EditorAgent.Proofs.Path.Normal
import EditorAgent.Proofs.Vfs.Sightings
import Mathlib.Data.List.Perm.Subperm
import Mathlib.Logic.Relation

/-!
# The directories of a scan

A scan visits its root and, down to its depth, the directories that the filter accepts. Each of them has its entries
listed once, after the directory that it is in and before those below it. No link is followed, so a directory is at most
as deep as the disk has entries.
-/

namespace EditorAgent

open Relation

/-! ## Steps down -/

namespace Disk

variable {d : Disk} {p s : String}

theorem isAbsolute_of_isFileName (h : IsFileName s) : Path.isAbsolute s = false := by
  rw [Path.isAbsolute, decide_eq_false_iff_not]
  exact fun hhead => h.2.2.2 (List.mem_of_head? hhead)

theorem moves_join (p : String) (h : IsFileName s) : moves (Path.join p s) = moves p ++ [s] := by
  rw [Path.join, isAbsolute_of_isFileName h, ← moves_of_isFileName h]
  simp only [Bool.false_eq_true, if_false]
  split
  · next hend =>
    rw [Bool.or_eq_true, decide_eq_true_eq] at hend
    rcases hend with rfl | hend
    · simp
    · obtain ⟨q, rfl⟩ := Path.eq_append_slash hend
      have hq : moves (q ++ "/" ++ "") = moves q ++ moves "" := moves_append_slash q ""
      rw [String.append_empty, moves_empty, List.append_nil] at hq
      rw [moves_append_slash, hq]
  · exact moves_append_slash p s

end Disk

namespace Vfs

/-- A directory with the entries that are to be listed in it. -/
abbrev DirListing := String × List (String × FileKind)

variable {d : Disk} {o : ScanOptions} {root dir : String} {k depth fuel : Nat} {e : String × FileKind}
  {x y : DirListing}

theorem exists_list_of_accepted (he : e ∈ accepted d o depth dir) :
    ∃ entries, d.list dir = .ok entries ∧ e ∈ entries := by
  unfold accepted at he
  split at he
  · cases he
  · next entries hl => exact ⟨entries, hl, List.mem_of_mem_filter he⟩

theorem nodup_accepted (hd : d.Real) (o : ScanOptions) (depth : Nat) (dir : String) :
    ((accepted d o depth dir).map (·.1)).Nodup := by
  unfold accepted
  split
  · exact List.nodup_nil
  · next entries hl => exact (List.filter_sublist.map _).nodup (hd.lists dir entries hl).2

/-- One directory is entered from another: the filter accepts it, and it is not too deep to be listed. -/
def Enters (d : Disk) (o : ScanOptions) (x y : Nat × String) : Prop :=
  x.1 + 1 < o.maxDepth ∧ ∃ name, (name, .dir) ∈ accepted d o (x.1 + 1) x.2 ∧ y = (x.1 + 1, Path.join x.2 name)

/-- The directories that a scan lists, each with its depth below the root. -/
def Visits (d : Disk) (o : ScanOptions) (root : String) (k : Nat) (dir : String) : Prop :=
  ReflTransGen (Enters d o) (0, root) (k, dir)

theorem Visits.enter {name : String} (h : Visits d o root k dir) (hdeep : k + 1 < o.maxDepth)
    (hname : (name, .dir) ∈ accepted d o (k + 1) dir) : Visits d o root (k + 1) (Path.join dir name) :=
  h.tail ⟨hdeep, name, hname, rfl⟩

theorem isFileName_of_accepted (hd : d.Real) (he : e ∈ accepted d o depth dir) : Disk.IsFileName e.1 := by
  obtain ⟨entries, hl, hmem⟩ := exists_list_of_accepted he
  obtain ⟨l, -, -, -, rfl⟩ := Disk.exists_locate_of_list hl
  exact (hd.get?_of_mem_below hmem).1

/-! ## How deep directories are -/

/-- A directory that is visited lies below as many different entries of the disk as it is deep. -/
theorem Visits.exists_above (hd : d.Real) (h : Visits d o root k dir) :
    ∃ above : List Location, above.length = k ∧ above.Nodup ∧ above ⊆ d.entries.map (·.1) ∧
      ∀ l, d.locate dir true = .ok l → ∀ a ∈ above, a.length ≤ l.length := by
  rw [Visits] at h
  generalize hx : (k, dir) = x at h
  induction h generalizing k dir with
  | refl =>
    obtain ⟨rfl, rfl⟩ := Prod.mk.inj hx
    exact ⟨[], rfl, List.nodup_nil, List.nil_subset _, by simp⟩
  | @tail y z _ hstep ih =>
    obtain ⟨-, name, hname, rfl⟩ := hstep
    obtain ⟨rfl, rfl⟩ := Prod.mk.inj hx
    obtain ⟨above, hlength, hnodup, hsub, habove⟩ := ih rfl
    obtain ⟨entries, hl, hmem⟩ := exists_list_of_accepted hname
    obtain ⟨l, modified, hlocate, hdir, rfl⟩ := Disk.exists_locate_of_list hl
    obtain ⟨hfile, x, hget, -⟩ := hd.get?_of_mem_below hmem
    have hlong : ∀ a ∈ above, a.length ≤ l.length := habove l hlocate
    have hkey : l ++ [name] ∈ d.entries.map (·.1) := by
      rw [Disk.get?, if_neg (by simp)] at hget
      obtain ⟨entry, hentry, -⟩ := Option.map_eq_some_iff.mp hget
      exact List.mem_map.mpr ⟨entry, List.mem_of_find?_eq_some hentry, by simpa using List.find?_some hentry⟩
    refine ⟨(l ++ [name]) :: above, by rw [List.length_cons, hlength], List.nodup_cons.mpr ⟨fun hin => ?_, hnodup⟩,
      List.cons_subset.mpr ⟨hkey, hsub⟩, fun l' hl' a ha => ?_⟩
    · exact absurd (hlong _ hin) (by simp)
    · have hbelow := hd.locate_of_listed hlocate hdir hmem (by simp) (Disk.moves_join y.2 hfile) hl'
      rw [hbelow, List.length_append]
      rcases List.mem_cons.mp ha with rfl | ha
      · simp
      · exact Nat.le_add_right_of_le (hlong a ha)

theorem Visits.le_length (hd : d.Real) (h : Visits d o root k dir) : k ≤ d.entries.length := by
  obtain ⟨above, rfl, hnodup, hsub, -⟩ := h.exists_above hd
  simpa using (List.subperm_of_subset hnodup hsub).length_le

/-! ## Which directories are listed -/

theorem listings_succ (d : Disk) (o : ScanOptions) (fuel depth : Nat) (dir : String) :
    ∃ deeper : List (String × FileKind),
      (∀ e, e ∈ deeper ↔ e ∈ accepted d o depth dir ∧ e.2 = .dir ∧ depth < o.maxDepth) ∧
        deeper.Perm ((accepted d o depth dir).filter fun e => e.2 = .dir && depth < o.maxDepth) ∧
        listings d o (fuel + 1) depth dir =
          (dir, accepted d o depth dir) ::
            deeper.flatMap fun e => listings d o fuel (depth + 1) (Path.join dir e.1) := by
  refine ⟨_, fun e => ?_, List.mergeSort_perm _ _, rfl⟩
  simp [List.mem_mergeSort]

theorem reach_of_mem_listings (hx : x ∈ listings d o fuel (k + 1) dir) :
    ∃ j, ReflTransGen (Enters d o) (k, dir) (j, x.1) ∧ x.2 = accepted d o (j + 1) x.1 := by
  induction fuel generalizing k dir with
  | zero => cases hx
  | succ fuel ih =>
    obtain ⟨deeper, hdeeper, -, heq⟩ := listings_succ d o fuel (k + 1) dir
    rw [heq] at hx
    rcases List.mem_cons.mp hx with rfl | hx
    · exact ⟨k, .refl, rfl⟩
    · obtain ⟨⟨name, kind⟩, hmem, hx⟩ := List.mem_flatMap.mp hx
      obtain ⟨haccepted, rfl, hdeep⟩ := (hdeeper _).mp hmem
      obtain ⟨j, hreach, hentries⟩ := ih hx
      exact ⟨j, .head ⟨hdeep, name, haccepted, rfl⟩ hreach, hentries⟩

theorem mem_listings_of_reach {j : Nat} (h : ReflTransGen (Enters d o) (j, root) (k, dir)) (hfuel : k < j + fuel) :
    (dir, accepted d o (k + 1) dir) ∈ listings d o fuel (j + 1) root := by
  have hle : ∀ {x y : Nat × String}, ReflTransGen (Enters d o) x y → x.1 ≤ y.1 := by
    intro x y hxy
    induction hxy with
    | refl => exact Nat.le_refl _
    | tail _ hstep ih =>
      obtain ⟨-, name, -, rfl⟩ := hstep
      exact Nat.le_succ_of_le ih
  induction fuel generalizing j root with
  | zero => exact absurd (hle h) (by simpa using hfuel)
  | succ fuel ih =>
    obtain ⟨deeper, hdeeper, -, heq⟩ := listings_succ d o fuel (j + 1) root
    rw [heq]
    rcases ReflTransGen.cases_head h with heq | ⟨y, ⟨hdeep, name, hname, rfl⟩, hrest⟩
    · cases heq
      exact List.mem_cons_self
    · exact List.mem_cons_of_mem _ (List.mem_flatMap.mpr
        ⟨(name, .dir), (hdeeper _).mpr ⟨hname, rfl, hdeep⟩, ih hrest (by omega)⟩)

/-- A scan lists the directories that it visits. -/
theorem mem_listings_iff (hd : d.Real) :
    x ∈ listings d o (d.entries.length + 1) 1 root ↔
      ∃ k, Visits d o root k x.1 ∧ x.2 = accepted d o (k + 1) x.1 := by
  refine ⟨reach_of_mem_listings, fun ⟨k, h, hentries⟩ => ?_⟩
  have hle := h.le_length hd
  have hmem : (x.1, accepted d o (k + 1) x.1) ∈ listings d o (d.entries.length + 1) 1 root :=
    mem_listings_of_reach h (by omega)
  rwa [← hentries] at hmem

/-! ## In which order -/

/-- No directory that is visited has a backslash in its name, but for the root. -/
def Undivided (d : Disk) (o : ScanOptions) (root : String) : Prop :=
  ∀ k dir name, Visits d o root k dir → k + 1 < o.maxDepth → (name, .dir) ∈ accepted d o (k + 1) dir →
    '\\' ∉ name.toList

theorem undivided_of_plain (hplain : ∀ x ∈ d.entries, ∀ s ∈ x.1, '\\' ∉ s.toList) (o : ScanOptions) (root : String) :
    Undivided d o root := by
  intro k dir name _ _ hname
  obtain ⟨entries, hl, hmem⟩ := exists_list_of_accepted hname
  obtain ⟨l, -, -, -, rfl⟩ := Disk.exists_locate_of_list hl
  obtain ⟨x, hx, hname⟩ := List.mem_filterMap.mp hmem
  split_ifs at hname
  obtain ⟨s, hs, heq⟩ := Option.map_eq_some_iff.mp hname
  obtain rfl : s = name := congrArg Prod.fst heq
  exact hplain x hx s (List.mem_of_getLast? hs)

theorem splitPath_entered (hd : d.Real) (hplain : Undivided d o root) {name : String} (h : Visits d o root k dir)
    (hdeep : k + 1 < o.maxDepth) (hname : (name, .dir) ∈ accepted d o (k + 1) dir) :
    splitPath (Path.join dir name) = splitPath dir ++ [name] := by
  have hfile : Disk.IsFileName name := isFileName_of_accepted hd hname
  have hslash := hplain k dir name h hdeep hname
  have hisName : IsName name := by
    refine ⟨hfile.1, hfile.2.1, fun c hc => ?_⟩
    have hne : c ≠ '/' := fun heq => hfile.2.2.2 (heq ▸ hc)
    have hne' : c ≠ '\\' := fun heq => hslash (heq ▸ hc)
    simp [isSlash, hne, hne']
  rw [splitPath_join (Disk.isAbsolute_of_isFileName hfile), splitPath_of_isName hisName]

/-- What is reached from a directory is spelled with its names first. -/
theorem prefix_of_reach (hd : d.Real) (hplain : Undivided d o root) (h : Visits d o root k dir) {j : Nat} {p : String}
    (hreach : ReflTransGen (Enters d o) (k, dir) (j, p)) : splitPath dir <+: splitPath p := by
  generalize hx : (j, p) = x at hreach
  induction hreach generalizing j p with
  | refl =>
    cases hx
    exact List.prefix_rfl
  | @tail y z hbefore hstep ih =>
    obtain ⟨hdeep, name, hname, rfl⟩ := hstep
    cases hx
    have hy : Visits d o root y.1 y.2 := h.trans hbefore
    rw [splitPath_entered hd hplain hy hdeep hname]
    exact (ih rfl).trans (List.prefix_append _ _)

/-- Directories come after one that lists them, and none comes after one that is below it or is itself. `done` came
before. -/
inductive Orderly (r : List String) : List DirListing → List DirListing → Prop
  | nil (done) : Orderly r done []
  | cons {done xs x} (hroot : r <+: splitPath x.1)
      (hlisted : splitPath x.1 = r ∨ ∃ y ∈ done, ∃ e ∈ y.2, splitPath x.1 = splitPath y.1 ++ [e.1])
      (hnew : ∀ y ∈ done, ¬ splitPath x.1 <+: splitPath y.1) (hrest : Orderly r (x :: done) xs) :
      Orderly r done (x :: xs)

theorem Orderly.append {r : List String} {done xs ys : List DirListing}
    (h : Orderly r done xs) (h' : Orderly r (xs.reverse ++ done) ys) : Orderly r done (xs ++ ys) := by
  induction h with
  | nil => exact h'
  | cons hroot hlisted hnew _ ih =>
    refine .cons hroot hlisted hnew (ih ?_)
    simpa using h'

/-- Blocks are put one after another if each is orderly after anything else than what is spelled with its name. -/
theorem Orderly.flatMap {r : List String} (ns : List String) {es : List (String × FileKind)}
    {f : String × FileKind → List DirListing} {done : List DirListing}
    (hf : ∀ e ∈ es, ∀ before, done ⊆ before → (∀ y ∈ before, ¬ ns ++ [e.1] <+: splitPath y.1) →
      Orderly r before (f e))
    (hbelow : ∀ e ∈ es, ∀ y ∈ f e, ns ++ [e.1] <+: splitPath y.1) (hnodup : (es.map (·.1)).Nodup)
    (hfar : ∀ e ∈ es, ∀ y ∈ done, ¬ ns ++ [e.1] <+: splitPath y.1) : Orderly r done (es.flatMap f) := by
  induction es generalizing done with
  | nil => exact .nil _
  | cons e es ih =>
    obtain ⟨hname, hrest⟩ := List.nodup_cons.mp hnodup
    refine (hf e List.mem_cons_self done (List.Subset.refl _) (hfar e List.mem_cons_self)).append ?_
    refine ih (fun a ha before hsub => hf a (List.mem_cons_of_mem _ ha) before
        (List.Subset.trans (List.subset_append_right _ _) hsub))
      (fun a ha => hbelow a (List.mem_cons_of_mem _ ha)) hrest fun a ha y hy hprefix => ?_
    rcases List.mem_append.mp hy with hy | hy
    · -- Of one path only one name comes next.
      have hother := hbelow e List.mem_cons_self y (List.mem_reverse.mp hy)
      have hsame := (List.prefix_of_prefix_length_le hprefix hother (by simp)).eq_of_length (by simp)
      exact hname (List.mem_map.mpr ⟨a, ha, by simpa using hsame⟩)
    · exact hfar a (List.mem_cons_of_mem _ ha) y hy hprefix

theorem orderly_listings (hd : d.Real) (hplain : Undivided d o root) (h : Visits d o root k dir) {done : List DirListing}
    (hlisted : splitPath dir = splitPath root ∨ ∃ y ∈ done, ∃ e ∈ y.2, splitPath dir = splitPath y.1 ++ [e.1])
    (hnew : ∀ y ∈ done, ¬ splitPath dir <+: splitPath y.1) :
    Orderly (splitPath root) done (listings d o fuel (k + 1) dir) := by
  induction fuel generalizing k dir done with
  | zero => exact .nil _
  | succ fuel ih =>
    obtain ⟨deeper, hdeeper, hperm, heq⟩ := listings_succ d o fuel (k + 1) dir
    have hnodup : (deeper.map (·.1)).Nodup :=
      (hperm.map _).nodup_iff.mpr ((List.filter_sublist.map _).nodup (nodup_accepted hd o (k + 1) dir))
    have hentered : ∀ e ∈ deeper, Visits d o root (k + 1) (Path.join dir e.1) ∧
        splitPath (Path.join dir e.1) = splitPath dir ++ [e.1] := by
      rintro ⟨name, kind⟩ he
      obtain ⟨haccepted, rfl, hdeep⟩ := (hdeeper _).mp he
      exact ⟨h.enter hdeep haccepted, splitPath_entered hd hplain h hdeep haccepted⟩
    rw [heq]
    refine .cons (prefix_of_reach hd hplain .refl h) hlisted hnew (.flatMap (splitPath dir) ?_ ?_ hnodup ?_)
    · intro e he before hsub hfar
      obtain ⟨hvisits, hspelled⟩ := hentered e he
      exact ih hvisits (.inr ⟨_, hsub List.mem_cons_self, e, ((hdeeper e).mp he).1, hspelled⟩) (hspelled ▸ hfar)
    · intro e he y hy
      obtain ⟨hvisits, hspelled⟩ := hentered e he
      obtain ⟨j, hreach, -⟩ := reach_of_mem_listings hy
      exact hspelled ▸ prefix_of_reach hd hplain hvisits hreach
    · intro e _ y hy hprefix
      rcases List.mem_cons.mp hy with rfl | hy
      · exact absurd hprefix.length_le (by simp)
      · exact hnew y hy ((List.prefix_append _ _).trans hprefix)

end Vfs
end EditorAgent

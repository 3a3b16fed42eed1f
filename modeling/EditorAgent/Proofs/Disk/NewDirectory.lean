import EditorAgent.Proofs.Disk.Dates

/-!
# New directories

A directory that is made where nothing stood is empty. Whatever a path led to before, it leads to still. Without
links, and without steps up, no path leads to anything else than before but the one that leads to the new directory
itself: no file can be read that could not be read before, and no directory lists anything new but the one above.
-/

namespace EditorAgent.Disk

open Vfs

variable {d d' : Disk} {l here place : Location} {e : DiskEntry} {x : Location × DiskEntry} {links : Nat} {t : Int}
  {xs : List String} {p s : String} {data : Bytes}

/-- A name in a directory, at which nothing stands. -/
structure Vacant (d : Disk) (l : Location) (s : String) : Prop where
  name : s ≠ ""
  dir : ∃ modified, d.get? l = some ⟨.dir, modified⟩
  above : ∀ m, m <+: l → (d.get? m).isSome
  free : ∀ m, l ++ [s] <+: m → d.get? m = none

/-- A disk with a directory where nothing stood. -/
structure NewDirectory (d : Disk) (place : Location) (d' : Disk) : Prop where
  free : ∀ l, place <+: l → d.get? l = none
  made : (d'.get? place).map (·.item) = some .dir
  kept : ∀ l, l ≠ place → (d'.get? l).map (·.item) = (d.get? l).map (·.item)

/-! ## Making a directory -/

/-- What changes entries and leaves them where they are keeps what is found at a place, changed. -/
theorem find?_map_of_loc {f : Location × DiskEntry → Location × DiskEntry} (hf : ∀ x, (f x).1 = x.1)
    (xs : List (Location × DiskEntry)) (l : Location) :
    (xs.map f).find? (·.1 = l) = (xs.find? (·.1 = l)).map f := by
  have hkey : ((fun x : Location × DiskEntry => decide (x.1 = l)) ∘ f) = fun x => decide (x.1 = l) := by
    funext x
    simp [hf]
  rw [List.find?_map, hkey]

theorem get?_set (hplace : place ≠ []) (e : DiskEntry) (l : Location) :
    (d.set place e).get? l = if l = place then some e else d.get? l := by
  by_cases hroot : l = []
  · rw [if_neg (hroot ▸ hplace.symm), get?, get?, if_pos hroot, if_pos hroot]
  · rw [get?, get?, if_neg hroot, if_neg hroot, set]
    split
    · next hany =>
      rw [find?_map_of_loc (fun x => by split <;> simp_all), Option.map_map]
      cases hfind : d.entries.find? (·.1 = l) with
      | none =>
        have hl : l ≠ place := by
          rintro rfl
          obtain ⟨x, hx, hkey⟩ := List.any_eq_true.mp hany
          exact List.find?_eq_none.mp hfind x hx hkey
        simp [hl]
      | some x =>
        have hxl : x.1 = l := by simpa using List.find?_some hfind
        by_cases hl : l = place <;> simp [hxl, hl]
    · next hany =>
      rw [List.find?_append]
      by_cases hl : l = place
      · subst hl
        have hnone : d.entries.find? (·.1 = l) = none := by
          rw [List.find?_eq_none]
          exact fun x hx hkey => hany (List.any_eq_true.mpr ⟨x, hx, hkey⟩)
        simp [hnone]
      · simp [hl, Ne.symm hl]

theorem item_stamp (here : Location) (t : Int) (l : Location) :
    ((d.stamp here t).get? l).map (·.item) = (d.get? l).map (·.item) := by
  by_cases hroot : l = []
  · rw [get?, get?, if_pos hroot, if_pos hroot]
  · rw [get?, get?, if_neg hroot, if_neg hroot, stamp, find?_map_of_loc (fun x => by split <;> simp_all),
      Option.map_map, Option.map_map, Option.map_map]
    refine Option.map_congr fun x _ => ?_
    by_cases hx : x.1 = here <;> simp [hx]

namespace Vacant

variable (h : d.Vacant l s)

include h

theorem get?_eq_none : d.get? (l ++ [s]) = none := h.free _ List.prefix_rfl

/-- One directory is made. -/
theorem mkdirs_eq (t : Int) : d.mkdirs (l ++ [s]) t = (d.set (l ++ [s]) ⟨.dir, t⟩).stamp l t := by
  have hmissing : (((List.range (l ++ [s]).length).map fun k => (l ++ [s]).take (k + 1)).filter
      fun p => (d.get? p).isNone) = [l ++ [s]] := by
    rw [List.length_append, List.length_singleton, List.range_succ, List.map_append, List.filter_append]
    have habove : (((List.range l.length).map fun k => (l ++ [s]).take (k + 1)).filter fun p => (d.get? p).isNone) =
        [] := by
      refine List.filter_eq_nil_iff.mpr fun p hp => ?_
      obtain ⟨k, hk, rfl⟩ := List.mem_map.mp hp
      rw [List.take_append_of_le_length (List.mem_range.mp hk)]
      simpa [← Option.isSome_iff_ne_none] using h.above _ (List.take_prefix (k + 1) l)
    have hself : (l ++ [s]).take (l.length + 1) = l ++ [s] := List.take_of_length_le (by simp)
    rw [habove, List.map_singleton, hself, List.filter_cons_of_pos (by simp [h.get?_eq_none])]
    rfl
  rw [mkdirs]
  simp only [hmissing, List.foldl_cons, List.foldl_nil, List.dropLast_concat]

theorem newDirectory (t : Int) : NewDirectory d (l ++ [s]) (d.mkdirs (l ++ [s]) t) := by
  rw [h.mkdirs_eq]
  refine ⟨h.free, ?_, fun m hm => ?_⟩
  · rw [item_stamp, get?_set (by simp), if_pos rfl]
    rfl
  · rw [item_stamp, get?_set (by simp), if_neg hm]

/-- What stands on a disk with one more directory is that, or stood there before. -/
theorem mem_mkdirs (hx : x ∈ (d.mkdirs (l ++ [s]) t).entries) :
    (x.1 = l ++ [s] ∧ x.2.item = .dir) ∨ ∃ y ∈ d.entries, y.1 = x.1 ∧ y.2.item = x.2.item := by
  rw [h.mkdirs_eq] at hx
  have hset : ∀ y ∈ (d.set (l ++ [s]) ⟨.dir, t⟩).entries, y.1 = x.1 → y.2.item = x.2.item →
      (x.1 = l ++ [s] ∧ x.2.item = .dir) ∨ ∃ y ∈ d.entries, y.1 = x.1 ∧ y.2.item = x.2.item := by
    intro y hy hloc hitem
    rcases mem_set hy with hy | rfl
    · exact .inr ⟨y, hy, hloc, hitem⟩
    · exact .inl ⟨hloc.symm, hitem.symm⟩
  rcases mem_stamp hx with hx | ⟨hxl, -, y, hy, hyl, hitem⟩
  · exact hset x hx rfl rfl
  · exact hset y hy (hyl.trans hxl.symm) hitem

theorem linkless_mkdirs (hlink : d.Linkless) (t : Int) : (d.mkdirs (l ++ [s]) t).Linkless := by
  intro x hx
  rcases h.mem_mkdirs hx with ⟨-, hitem⟩ | ⟨y, hy, -, hitem⟩
  · simp [hitem, Item.kind]
  · exact hitem ▸ hlink y hy

/-- What all names on a disk have in common, they have with one more directory if its name has it, too. -/
theorem forall_names_mkdirs {P : String → Prop} (hnames : ∀ e ∈ d.entries, ∀ n ∈ e.1, P n) (hs : P s) (t : Int) :
    ∀ e ∈ (d.mkdirs (l ++ [s]) t).entries, ∀ n ∈ e.1, P n := by
  have hl : ∀ n ∈ l, P n := by
    intro n hn
    obtain ⟨modified, hdir⟩ := h.dir
    exact hnames _ (mem_entries_of_get? hdir (List.ne_nil_of_mem hn)) n hn
  intro x hx
  rcases h.mem_mkdirs hx with ⟨hloc, -⟩ | ⟨y, hy, hloc, -⟩
  · rw [hloc]
    exact List.forall_mem_append.mpr ⟨hl, List.forall_mem_singleton.mpr hs⟩
  · exact hloc ▸ hnames y hy

end Vacant

theorem exists_dir_of_item (h : (d.get? l).map (·.item) = some .dir) :
    ∃ modified, d.get? l = some ⟨.dir, modified⟩ := by
  obtain ⟨⟨item, modified⟩, hget, hitem⟩ := Option.map_eq_some_iff.mp h
  obtain rfl : item = .dir := hitem
  exact ⟨modified, hget⟩

/-- The steps of a path are among its names. -/
theorem up_not_mem_steps (h : ".." ∉ splitPath p) : ".." ∉ steps p := by
  intro hup
  rw [steps, List.mem_append] at hup
  rcases hup with hup | hup
  · refine h ?_
    rw [splitPath_flatMap_split]
    exact List.mem_flatMap.mpr ⟨"..", (List.mem_filter.mp hup).1, by decide⟩
  · split_ifs at hup <;> simp at hup

/-- What stands where a path leads. -/
def itemAt (d : Disk) (p : String) : Option Item :=
  match d.entry p with
  | .ok e => some e.item
  | .error _ => none

theorem itemAt_of_locate (hloc : d.locate p true = .ok l) : d.itemAt p = (d.get? l).map (·.item) := by
  rw [itemAt, entry, hloc]
  dsimp only
  cases d.get? l <;> rfl

theorem itemAt_of_error {cause : DiskError} (hloc : d.locate p true = .error cause) : d.itemAt p = none := by
  rw [itemAt, entry, hloc]

theorem kindAt_eq_itemAt (d : Disk) (p : String) : d.kindAt p = (d.itemAt p).map Item.kind := by
  rw [kindAt, itemAt]
  cases d.entry p <;> rfl

theorem isFile_eq_kindAt (d : Disk) (p : String) : d.isFile p = decide (d.kindAt p = some .file) := by
  rw [isFile, kindAt]
  cases d.entry p with
  | error cause => rfl
  | ok e =>
    obtain ⟨item, modified⟩ := e
    cases item <;> rfl

theorem exists_entry_of_dir (hkind : d.kindAt p = some .dir) : ∃ modified, d.entry p = .ok ⟨.dir, modified⟩ := by
  rw [kindAt] at hkind
  split at hkind
  · next e he =>
    obtain ⟨item, modified⟩ := e
    cases item <;> cases hkind
    exact ⟨modified, he⟩
  · cases hkind

theorem read_eq_ok_iff_itemAt : d.read p = .ok data ↔ readItem (d.itemAt p) = .ok data := by
  rw [read, itemAt]
  cases d.entry p with
  | error cause => simp [readItem]
  | ok e =>
    obtain ⟨item, modified⟩ := e
    cases item <;> rfl

namespace NewDirectory

variable (h : NewDirectory d place d')

include h

theorem ne_of_get? (hget : d.get? l = some e) : l ≠ place := by
  rintro rfl
  cases (h.free _ List.prefix_rfl).symm.trans hget

theorem exists_get? (hget : d.get? l = some e) : ∃ modified, d'.get? l = some ⟨e.item, modified⟩ := by
  have hkept := h.kept l (h.ne_of_get? hget)
  rw [hget] at hkept
  obtain ⟨⟨item, modified⟩, hget', hitem⟩ := Option.map_eq_some_iff.mp hkept
  obtain rfl : item = e.item := hitem
  exact ⟨modified, hget'⟩

theorem isSome_get? (hl : l ≠ place) : (d'.get? l).isSome = (d.get? l).isSome := by
  have hkept := congrArg Option.isSome (h.kept l hl)
  rwa [Option.isSome_map, Option.isSome_map] at hkept

theorem get?_eq_none (hl : place <+: l) (hne : l ≠ place) : d'.get? l = none := by
  have hsome := h.isSome_get? hne
  rw [h.free l hl] at hsome
  simpa using hsome

/-! ## What paths lead to -/

/-- Steps lead where they led. -/
theorem follow_eq_ok (hf : d.follow true links here xs = .ok l) : d'.follow true links here xs = .ok l := by
  fun_induction d.follow true links here xs with
  | case1 links here =>
    rw [follow]
    exact hf
  | case2 links here rest _ hdir ih =>
    obtain ⟨modified, hdir'⟩ := h.exists_get? hdir
    simpa only [follow, hdir', if_true] using ih hf
  | case3 links here rest _ hdir hdot ih =>
    obtain ⟨modified, hdir'⟩ := h.exists_get? hdir
    simpa only [follow, hdir', if_neg hdot, if_true] using ih hf
  | case8 here s rest _ hdir hdot hup hshort target _ hlink hlast links start ih =>
    obtain ⟨modified, hdir'⟩ := h.exists_get? hdir
    obtain ⟨modified', hlink'⟩ := h.exists_get? hlink
    simpa only [follow, hdir', if_neg hdot, if_neg hup, if_neg hshort, hlink', Bool.not_true, Bool.and_false,
      Bool.false_eq_true, if_false, start, dite_eq_ite] using ih hf
  | case9 links here s rest _ hdir hdot hup hshort x hlink hx ih =>
    obtain ⟨modified, hdir'⟩ := h.exists_get? hdir
    obtain ⟨modified', hx'⟩ := h.exists_get? hx
    obtain ⟨item, modified''⟩ := x
    cases item with
    | link target => exact (hlink target modified'' rfl).elim
    | _ => simpa only [follow, hdir', if_neg hdot, if_neg hup, if_neg hshort, hx'] using ih hf
  | case6 links here s rest _ hdir hdot hup hshort target _ hlink hlast => simp at hlast
  | _ => cases hf

theorem locate_eq_ok (hl : d.locate p true = .ok l) : d'.locate p true = .ok l := by
  rw [locate] at hl ⊢
  split_ifs at hl ⊢
  exact h.follow_eq_ok hl

theorem exists_entry (he : d.entry p = .ok e) : ∃ modified, d'.entry p = .ok ⟨e.item, modified⟩ := by
  obtain ⟨l, hloc, hget⟩ := exists_leadsTo he
  obtain ⟨modified, hget'⟩ := h.exists_get? hget
  exact ⟨modified, by rw [entry, h.locate_eq_ok hloc]; simp only [hget']⟩

theorem kindAt_eq_some {kind : FileKind} (hkind : d.kindAt p = some kind) : d'.kindAt p = some kind := by
  rw [kindAt] at hkind ⊢
  split at hkind
  · next e he =>
    obtain ⟨modified, he'⟩ := h.exists_entry he
    rw [he']
    exact hkind
  · cases hkind

section Linkless

variable (hlink : d.Linkless) (hlink' : d'.Linkless)

include hlink' in
/-- The new directory leads nowhere but up. -/
theorem eq_of_follow (hup : ".." ∉ xs) (hf : d'.follow true links place xs = .ok l) : l = place := by
  induction xs with
  | nil =>
    rw [follow] at hf
    exact (Except.ok.inj hf).symm
  | cons s xs ih =>
    obtain ⟨modified, hdir⟩ := exists_dir_of_follow hf
    have hnone : d'.get? (place ++ [s]) = none := h.get?_eq_none (List.prefix_append _ _) (by simp)
    have hs : s ≠ ".." := fun hs => hup (hs ▸ List.mem_cons_self)
    rw [hlink'.follow_cons hdir, if_neg hs, hnone] at hf
    simp only [Option.isSome_none, Bool.false_eq_true, if_false] at hf
    split_ifs at hf
    exact ih (fun hm => hup (List.mem_cons_of_mem _ hm)) hf

include hlink hlink' in
/-- Without steps up, nothing but the new directory is reached that was not reached before. -/
theorem follow_of_ne (hup : ".." ∉ xs) (hhere : here ≠ place) (hl : l ≠ place)
    (hf : d'.follow true links here xs = .ok l) : d.follow true links here xs = .ok l := by
  induction xs generalizing here with
  | nil =>
    rw [follow] at hf ⊢
    exact hf
  | cons s xs ih =>
    have hrest : ".." ∉ xs := fun hm => hup (List.mem_cons_of_mem _ hm)
    have hs : s ≠ ".." := fun hs => hup (hs ▸ List.mem_cons_self)
    obtain ⟨modified, hdir'⟩ := exists_dir_of_follow hf
    obtain ⟨modified', hdir⟩ : ∃ m, d.get? here = some ⟨.dir, m⟩ :=
      exists_dir_of_item (by rw [← h.kept here hhere, hdir']; rfl)
    rw [hlink'.follow_cons hdir', if_neg hs] at hf
    rw [hlink.follow_cons hdir, if_neg hs]
    by_cases hplace : here ++ [s] = place
    · -- Steps into the new directory end there.
      rw [hplace] at hf
      split_ifs at hf ⊢ with hdot
      · exact ih hrest hhere hf
      all_goals exact absurd (h.eq_of_follow hlink' hrest hf) hl
    · rw [h.isSome_get? hplace] at hf
      split_ifs at hf ⊢ with hdot
      · exact ih hrest hhere hf
      · exact ih hrest hplace hf

include hlink hlink' in
theorem locate_of_ne (hup : ".." ∉ steps p) (hl : l ≠ place) (hloc : d'.locate p true = .ok l) :
    d.locate p true = .ok l := by
  have hroot : [] ≠ place := h.ne_of_get? (e := ⟨.dir, 0⟩) rfl
  rw [locate] at hloc ⊢
  split_ifs at hloc ⊢
  exact h.follow_of_ne hlink hlink' hup hroot hl hloc

include hlink hlink' in
/-- A path leads to what it led to, or to the new directory. -/
theorem itemAt_cases (hup : ".." ∉ steps p) :
    d'.itemAt p = d.itemAt p ∨
      d'.locate p true = .ok place ∧ d'.itemAt p = some .dir ∧ d.itemAt p = none := by
  cases hloc : d'.locate p true with
  | error cause =>
    cases hloc' : d.locate p true with
    | error cause' => exact .inl (by rw [itemAt_of_error hloc, itemAt_of_error hloc'])
    | ok l => cases hloc.symm.trans (h.locate_eq_ok hloc')
  | ok l =>
    by_cases hl : l = place
    · subst hl
      refine .inr ⟨rfl, (itemAt_of_locate hloc).trans h.made, ?_⟩
      cases hloc' : d.locate p true with
      | error cause => exact itemAt_of_error hloc'
      | ok l' =>
        obtain rfl : l' = l := Except.ok.inj ((h.locate_eq_ok hloc').symm.trans hloc)
        rw [itemAt_of_locate hloc', h.free _ List.prefix_rfl]
        rfl
    · have hloc' := h.locate_of_ne hlink hlink' hup hl hloc
      exact .inl (by rw [itemAt_of_locate hloc, itemAt_of_locate hloc', h.kept l hl])

include hlink hlink' in
/-- What can be read could be read before. -/
theorem read_eq_ok_iff (hup : ".." ∉ steps p) : d'.read p = .ok data ↔ d.read p = .ok data := by
  rw [read_eq_ok_iff_itemAt, read_eq_ok_iff_itemAt]
  rcases h.itemAt_cases hlink hlink' hup with heq | ⟨-, hmade, hnone⟩
  · rw [heq]
  · simp [hmade, hnone, readItem]

include hlink hlink' in
/-- A plain path to another place leads to what it led to. -/
theorem itemAt_eq {ns : List String} (hns : ∀ n ∈ ns, IsName n) (hup : ".." ∉ ns) (hne : ns ≠ place) :
    d'.itemAt (pathOf ns) = d.itemAt (pathOf ns) := by
  rcases h.itemAt_cases hlink hlink' (up_not_mem_steps (by rwa [splitPath_pathOf hns])) with heq | ⟨hloc, -, -⟩
  · exact heq
  · exact absurd (hlink'.locate_eq hns hup hloc).symm hne

include hlink hlink' in
theorem kindAt_eq {ns : List String} (hns : ∀ n ∈ ns, IsName n) (hup : ".." ∉ ns) (hne : ns ≠ place) :
    d'.kindAt (pathOf ns) = d.kindAt (pathOf ns) := by
  rw [kindAt_eq_itemAt, kindAt_eq_itemAt, h.itemAt_eq hlink hlink' hns hup hne]

end Linkless
end NewDirectory
end EditorAgent.Disk

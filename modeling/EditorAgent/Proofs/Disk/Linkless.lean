import EditorAgent.Proofs.Vfs.Looks

/-!
# Disks without links

Without links the names in a path are the location it leads to, so different plain paths lead to different
places.
-/

namespace EditorAgent.Disk

open Vfs

variable {d : Disk} {l here : Location} {e : DiskEntry} {ns : List String}

def Linkless (d : Disk) : Prop := ∀ e ∈ d.entries, e.2.item.kind ≠ .symlink

instance (d : Disk) : Decidable d.Linkless := inferInstanceAs (Decidable (∀ e ∈ d.entries, _))

theorem mem_entries_of_get? (h : d.get? l = some e) (hl : l ≠ []) : (l, e) ∈ d.entries := by
  rw [get?, if_neg hl] at h
  obtain ⟨x, hx, rfl⟩ := Option.map_eq_some_iff.mp h
  obtain rfl : x.1 = l := by simpa using List.find?_some hx
  exact List.mem_of_find?_eq_some hx

theorem Linkless.get?_ne_link (h : d.Linkless) (hl : l ≠ []) {target : String} {modified : Int} :
    d.get? l ≠ some ⟨.link target, modified⟩ := by
  intro hg
  exact h _ (mem_entries_of_get? hg hl) rfl

/-- A step from a directory. -/
theorem Linkless.follow_cons (h : d.Linkless) {last : Bool} {links : Nat} {s : String} {rest : List String}
    {modified : Int} (hdir : d.get? here = some ⟨.dir, modified⟩) :
    d.follow last links here (s :: rest) =
      if s = "." then d.follow last links here rest
      else if s = ".." then d.follow last links here.dropLast rest
      else if maxName < s.utf8ByteSize then .error .nameTooLong
      else if (d.get? (here ++ [s])).isSome then d.follow last links (here ++ [s]) rest
      else .error .notFound := by
  rw [follow, hdir]
  simp only
  split
  · rfl
  · split
    · rfl
    · split
      · rfl
      · cases hget : d.get? (here ++ [s]) with
        | none => rfl
        | some e =>
          obtain ⟨item, m⟩ := e
          cases item with
          | link target => exact absurd hget (h.get?_ne_link (by simp))
          | _ => rfl

theorem exists_dir_of_follow {last : Bool} {links : Nat} {s : String} {rest : List String}
    (hf : d.follow last links here (s :: rest) = .ok l) : ∃ modified, d.get? here = some ⟨.dir, modified⟩ := by
  rw [follow] at hf
  split at hf
  · next modified hget => exact ⟨modified, hget⟩
  · cases hf

theorem Linkless.follow_eq (h : d.Linkless) {last : Bool} {links : Nat} {steps : List String}
    (hup : ".." ∉ steps) (hf : d.follow last links here steps = .ok l) :
    l = here ++ steps.filter (· != ".") := by
  induction steps generalizing here with
  | nil =>
    rw [follow] at hf
    cases hf
    simp
  | cons s rest ih =>
    have hrest : ".." ∉ rest := fun hm => hup (List.mem_cons_of_mem _ hm)
    have hs : s ≠ ".." := fun hm => hup (hm ▸ List.mem_cons_self)
    obtain ⟨modified, hdir⟩ := exists_dir_of_follow hf
    rw [h.follow_cons hdir, if_neg hs] at hf
    split_ifs at hf with hdot
    · rw [ih hrest hf, List.filter_cons_of_neg (by simp [hdot])]
    · rw [ih hrest hf, List.filter_cons_of_pos (by simpa using hdot)]
      simp

/-- Steps are taken one after another. -/
theorem Linkless.follow_append (h : d.Linkless) {last : Bool} {links : Nat} {first rest : List String}
    (hf : d.follow last links here first = .ok l) :
    d.follow last links here (first ++ rest) = d.follow last links l rest := by
  induction first generalizing here with
  | nil =>
    rw [follow] at hf
    cases hf
    rfl
  | cons s first ih =>
    obtain ⟨modified, hdir⟩ := exists_dir_of_follow hf
    rw [h.follow_cons hdir] at hf
    rw [List.cons_append, h.follow_cons hdir]
    split_ifs at hf ⊢
    all_goals exact ih hf

theorem steps_pathOf (hns : ∀ s ∈ ns, IsName s) (hne : ns ≠ []) : steps (pathOf ns) = ns := by
  have hsplit : Text.split (· == '/') (pathOf ns) = "" :: ns := by
    have hl : (pathOf ns).toList = '/' :: (Text.join "/" ns).toList := by simp [pathOf]
    have hj := split_join_names hns hne
    rw [Text.split] at hj
    rw [Text.split, hl, Text.splitChars, if_pos (by decide), List.map_cons, hj]
  have hfilter : ns.filter (· != "") = ns := List.filter_eq_self.mpr fun t ht => by simpa using (hns t ht).1
  rw [steps, hsplit, Path.endsWith_slash_pathOf hns hne]
  simpa using hfilter

/-- A path is followed by its names, if it is not too long. -/
theorem locate_pathOf (hns : ∀ s ∈ ns, IsName s) (hne : ns ≠ []) (hlength : (pathOf ns).utf8ByteSize < maxPath)
    (hnul : '\x00' ∉ (pathOf ns).toList) (last : Bool) :
    d.locate (pathOf ns) last = d.follow last maxLinks [] ns := by
  rw [locate, if_neg (by simpa using hnul), if_neg (by simp [pathOf]), if_neg (Nat.not_le.mpr hlength),
    steps_pathOf hns hne]

/-- A plain path leads to the location that its names spell. -/
theorem Linkless.locate_eq (h : d.Linkless) (hns : ∀ s ∈ ns, IsName s) (hup : ".." ∉ ns)
    (hl : d.locate (pathOf ns) true = .ok l) : l = ns := by
  have hloc : d.follow true maxLinks [] (steps (pathOf ns)) = .ok l := by
    rw [locate] at hl
    split_ifs at hl
    exact hl
  by_cases hne : ns = []
  · subst hne
    have hsteps : steps (pathOf []) = ["."] := by decide
    rw [hsteps] at hloc
    exact h.follow_eq (by decide) hloc
  · rw [steps_pathOf hns hne] at hloc
    rw [h.follow_eq hup hloc]
    simpa using fun s hs => (hns s hs).2.1

theorem Linkless.get?_of_entry (h : d.Linkless) (hns : ∀ s ∈ ns, IsName s) (hup : ".." ∉ ns)
    (he : d.entry (pathOf ns) = .ok e) : d.get? ns = some e := by
  rw [entry] at he
  split at he
  · cases he
  · next l hl =>
    split at he
    · next hg =>
      cases he
      rw [← h.locate_eq hns hup hl, hg]
    · cases he

/-- The places of the directories. -/
def directories (d : Disk) : List Location := [] :: (d.entries.filter fun e => e.2.item.kind = .dir).map (·.1)

theorem length_directories_le (d : Disk) : d.directories.length ≤ d.entries.length + 1 := by
  rw [directories, List.length_cons, List.length_map]
  exact Nat.succ_le_succ (List.length_filter_le _ _)

theorem Linkless.mem_directories (h : d.Linkless) (hns : ∀ s ∈ ns, IsName s) (hup : ".." ∉ ns)
    (hk : d.kindAt (pathOf ns) = some .dir) : ns ∈ d.directories := by
  rw [kindAt] at hk
  split at hk
  · next e he =>
    have hg := h.get?_of_entry hns hup he
    by_cases hne : ns = []
    · exact hne ▸ List.mem_cons_self
    · refine List.mem_cons_of_mem _ (List.mem_map.mpr ⟨(ns, e), List.mem_filter.mpr ⟨?_, ?_⟩, rfl⟩)
      · exact mem_entries_of_get? hg hne
      · simpa using hk
  · cases hk

/-! ## What stands in a directory -/

/-- What a path that leads to a directory lists is what stands right below that. -/
theorem mem_names_iff_of_locate {path s : String} {modified : Int} (hloc : d.locate path true = .ok l)
    (hdir : d.get? l = some ⟨.dir, modified⟩) : s ∈ d.names path ↔ (d.get? (l ++ [s])).isSome = true := by
  have hlist : d.list path = .ok (d.below l) := by
    rw [list, hloc]
    simp only [hdir]
  rw [names, hlist, get?, if_neg (by simp), Option.isSome_map, List.find?_isSome, List.mem_map]
  simp only [below, List.mem_filterMap, decide_eq_true_eq]
  constructor
  · rintro ⟨x, ⟨e, he, hx⟩, rfl⟩
    split_ifs at hx with hcond
    obtain ⟨n, hn, rfl⟩ := Option.map_eq_some_iff.mp hx
    refine ⟨e, he, ?_⟩
    rw [← hcond.2]
    exact (List.dropLast_append_getLast? n hn).symm
  · rintro ⟨e, he, heq⟩
    exact ⟨(s, e.2.item.kind), ⟨e, he, by simp [heq]⟩, rfl⟩

section Directory

variable {s : String} (hlink : d.Linkless) (hns : ∀ s ∈ ns, IsName s) (hup : ".." ∉ ns)
  (hdir : d.kindAt (pathOf ns) = some .dir)

include hlink hns hup hdir

theorem Linkless.locate_dir : d.locate (pathOf ns) true = .ok ns ∧ ∃ modified, d.get? ns = some ⟨.dir, modified⟩ := by
  rw [kindAt] at hdir
  split at hdir
  · next e he =>
    have hg := hlink.get?_of_entry hns hup he
    obtain ⟨item, modified⟩ := e
    have hitem : item = .dir := by
      cases item <;> simp_all [Item.kind]
    rw [entry] at he
    split at he
    · cases he
    · next l hl => exact ⟨hlink.locate_eq hns hup hl ▸ hl, modified, hitem ▸ hg⟩
  · cases hdir

/-- A directory lists what stands right below it. -/
theorem Linkless.mem_names_iff : s ∈ d.names (pathOf ns) ↔ (d.get? (ns ++ [s])).isSome = true := by
  obtain ⟨hloc, modified, hg⟩ := hlink.locate_dir hns hup hdir
  exact mem_names_iff_of_locate hloc hg

theorem Linkless.follow_concat (hs : IsName s) (hs' : s ≠ "..") :
    d.follow true maxLinks [] (ns ++ [s]) =
      if maxName < s.utf8ByteSize then .error .nameTooLong
      else if (d.get? (ns ++ [s])).isSome then .ok (ns ++ [s]) else .error .notFound := by
  obtain ⟨hloc, modified, hg⟩ := hlink.locate_dir hns hup hdir
  have hfollow : d.follow true maxLinks [] ns = .ok ns := by
    by_cases hne : ns = []
    · rw [hne, follow]
    · rw [locate, steps_pathOf hns hne] at hloc
      split_ifs at hloc
      exact hloc
  rw [hlink.follow_append hfollow, hlink.follow_cons hg, if_neg hs.2.1, if_neg hs', follow]

end Directory

/-- What is read at a place that is found. -/
def readItem : Option Item → Except DiskError Bytes
  | some (.file data _) => .ok data
  | some .dir => .error .isDirectory
  | some _ => .ok []
  | none => .error .notFound

/-- What is read in a directory depends on what stands there alone. -/
theorem Linkless.read_concat {s : String} (hlink : d.Linkless) (hns : ∀ s ∈ ns, IsName s) (hup : ".." ∉ ns)
    (hdir : d.kindAt (pathOf ns) = some .dir) (hs : IsName s) (hs' : s ≠ "..") :
    d.read (pathOf (ns ++ [s])) =
      if (pathOf (ns ++ [s])).toList.contains '\x00' then .error .nulInName
      else if maxPath ≤ (pathOf (ns ++ [s])).utf8ByteSize then .error .nameTooLong
      else if maxName < s.utf8ByteSize then .error .nameTooLong
      else readItem ((d.get? (ns ++ [s])).map (·.item)) := by
  have hall : ∀ t ∈ ns ++ [s], IsName t := by simpa [or_imp, forall_and] using ⟨hns, hs⟩
  have hempty : pathOf (ns ++ [s]) ≠ "" := by simp [pathOf]
  rw [read, entry, locate, if_neg hempty, steps_pathOf hall (by simp), hlink.follow_concat hns hup hdir hs hs']
  split_ifs with hnul hlong hname hget
  · rfl
  · rfl
  · rfl
  · obtain ⟨e, he⟩ := Option.isSome_iff_exists.mp hget
    obtain ⟨item, modified⟩ := e
    simp only [he, Option.map_some]
    cases item <;> rfl
  · simp only [Option.not_isSome_iff_eq_none.mp hget, Option.map_none]
    rfl

end EditorAgent.Disk

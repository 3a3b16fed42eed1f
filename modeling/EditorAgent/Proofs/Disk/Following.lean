import EditorAgent.Proofs.Disk.Linkless
import EditorAgent.Proofs.Path.Below

/-!
# How paths are followed

The steps of a path are taken one after another, through links too. A step to the place itself leads nowhere
else, so what a path leads to, and what a directory lists, is told by the other steps. A tree spells every path by
these alone, and is told the same by the disk, unless the path treats a file as a directory.
-/

namespace EditorAgent.Disk

open Vfs

variable {d : Disk} {l here : Location} {e : DiskEntry} {s p q : String} {xs : List String} {links : Nat}

/-! ## Steps -/

/-- Where the first steps lead, or that they fail, does not depend on those that come after. -/
theorem follow_append (d : Disk) (links : Nat) (here : Location) (xs : List String) :
    (∃ k l, ∀ ys, d.follow true links here (xs ++ ys) = d.follow true k l ys) ∨
      ∃ cause, ∀ ys, d.follow true links here (xs ++ ys) = .error cause := by
  fun_induction d.follow true links here xs with
  | case1 links here => exact .inl ⟨links, here, fun _ => rfl⟩
  | case2 links here rest _ hdir ih => simpa only [List.cons_append, follow, hdir, if_true] using ih
  | case3 links here rest _ hdir hdot ih => simpa only [List.cons_append, follow, hdir, if_neg hdot, if_true] using ih
  | case4 links here s rest _ hdir hdot hup hlong =>
    refine .inr ⟨.nameTooLong, fun ys => ?_⟩
    simp only [List.cons_append, follow, hdir, if_neg hdot, if_neg hup, if_pos hlong]
  | case5 links here s rest _ hdir hdot hup hshort hnone =>
    refine .inr ⟨.notFound, fun ys => ?_⟩
    simp only [List.cons_append, follow, hdir, if_neg hdot, if_neg hup, if_neg hshort, hnone]
  | case6 links here s rest _ hdir hdot hup hshort target _ hlink hlast => simp at hlast
  | case7 here s rest _ hdir hdot hup hshort target _ hlink hlast =>
    refine .inr ⟨.linkLoop, fun ys => ?_⟩
    simp only [List.cons_append, follow, hdir, if_neg hdot, if_neg hup, if_neg hshort, hlink, Bool.not_true,
      Bool.and_false, Bool.false_eq_true, if_false]
  | case8 here s rest _ hdir hdot hup hshort target _ hlink hlast links start ih =>
    simpa only [List.cons_append, follow, hdir, if_neg hdot, if_neg hup, if_neg hshort, hlink, Bool.not_true,
      Bool.and_false, Bool.false_eq_true, if_false, List.append_assoc, start, dite_eq_ite] using ih
  | case9 links here s rest _ hdir hdot hup hshort e hlink he ih =>
    obtain ⟨item, modified⟩ := e
    cases item with
    | link target => exact (hlink target modified rfl).elim
    | _ => simpa only [List.cons_append, follow, hdir, if_neg hdot, if_neg hup, if_neg hshort, he] using ih
  | case10 links here s rest hdir =>
    refine .inr ⟨.notDirectory, fun ys => ?_⟩
    rw [List.cons_append, follow]
    split
    · next modified he => exact (hdir modified he).elim
    · rfl

/-- Steps to the place itself are left out, or one of them is taken where there is no directory. -/
theorem follow_moves (d : Disk) (links : Nat) (here : Location) (xs : List String) :
    d.follow true links here xs = d.follow true links here (xs.filter (· != ".")) ∨
      d.follow true links here xs = .error .notDirectory := by
  induction xs generalizing links here with
  | nil => exact .inl rfl
  | cons s xs ih =>
    by_cases hs : s = "."
    · subst hs
      rw [List.filter_cons_of_neg (by simp)]
      cases hget : d.get? here with
      | none => exact .inr (by simp only [follow, hget])
      | some e =>
        obtain ⟨item, modified⟩ := e
        cases item with
        | dir =>
          have hstay : d.follow true links here ("." :: xs) = d.follow true links here xs := by
            simp only [follow, hget, if_true]
          exact hstay ▸ ih links here
        | _ => exact .inr (by simp only [follow, hget])
    · rw [List.filter_cons_of_pos (by simpa using hs)]
      rcases follow_append d links here [s] with ⟨k, l, hstep⟩ | ⟨cause, hstep⟩
      · have hcons : ∀ ys, d.follow true links here (s :: ys) = d.follow true k l ys := hstep
        rw [hcons, hcons]
        exact ih k l
      · have hcons : ∀ ys, d.follow true links here (s :: ys) = .error cause := hstep
        rw [hcons, hcons]
        exact .inl rfl

/-- What is entered on the way is no link, and neither is what is reached. -/
theorem kind_ne_symlink_of_follow (h : d.follow true links here xs = .ok l)
    (hhere : ∀ pre, pre <+: here → ∀ e, d.get? pre = some e → e.item.kind ≠ .symlink) (he : d.get? l = some e) :
    e.item.kind ≠ .symlink := by
  fun_induction d.follow true links here xs with
  | case1 links here =>
    cases h
    exact hhere _ List.prefix_rfl e he
  | case2 links here rest _ hdir ih => exact ih h hhere
  | case3 links here rest _ hdir hdot ih =>
    exact ih h fun pre hpre => hhere pre (hpre.trans (List.dropLast_prefix here))
  | case8 here s rest _ hdir hdot hup hshort target _ hlink hlast links start ih =>
    refine ih h fun pre hpre => ?_
    unfold start at hpre
    split at hpre
    · obtain rfl := List.prefix_nil.mp hpre
      rintro _ ⟨⟩
      simp [Item.kind]
    · exact hhere pre hpre
  | case9 links here s rest _ hdir hdot hup hshort x hlink hx ih =>
    refine ih h fun pre hpre y hy => ?_
    rcases List.prefix_concat_iff.mp hpre with rfl | hpre
    · obtain rfl := Option.some.inj (hx.symm.trans hy)
      obtain ⟨item, modified⟩ := x
      cases item with
      | link target => exact (hlink target modified rfl).elim
      | _ => simp [Item.kind]
    · exact hhere pre hpre y hy
  | case6 links here s rest _ hdir hdot hup hshort target _ hlink hlast => simp at hlast
  | _ => cases h

/-- A path leads to no link. -/
theorem kind_ne_symlink_of_entry (h : d.entry p = .ok e) : e.item.kind ≠ .symlink := by
  rw [entry] at h
  split at h
  · cases h
  · next l hl =>
    split at h
    · next x hget =>
      cases h
      rw [locate] at hl
      split_ifs at hl
      refine kind_ne_symlink_of_follow hl (fun pre hpre => ?_) hget
      obtain rfl := List.prefix_nil.mp hpre
      rintro _ ⟨⟩
      simp [Item.kind]
    · cases h

/-! ## Moves -/

/-- The steps of a path that lead to another place. -/
def moves (path : String) : List String := (steps path).filter (· != ".")

theorem moves_eq (path : String) :
    moves path = ((path.toList.splitOnP (· == '/')).map String.ofList).filter fun s => s != "" && s != "." := by
  rw [moves, steps, List.filter_append, List.filter_filter, Text.split, Text.splitChars_eq_splitOnP]
  have hclosing : (if Text.endsWith path "/" then ["."] else []).filter (· != ".") = [] := by
    split <;> rfl
  rw [hclosing, List.append_nil]
  exact List.filter_congr fun s _ => Bool.and_comm ..

theorem moves_append_slash (p q : String) : moves (p ++ "/" ++ q) = moves p ++ moves q := by
  have h : (p ++ "/" ++ q).toList = p.toList ++ '/' :: q.toList := by simp
  rw [moves_eq, moves_eq, moves_eq, h, List.splitOnP_append_cons _ _ (by decide)]
  simp

@[simp] theorem moves_empty : moves "" = [] := by decide

/-- A name that an entry of a directory may have. -/
def IsFileName (s : String) : Prop := s ≠ "" ∧ s ≠ "." ∧ s ≠ ".." ∧ '/' ∉ s.toList

instance (s : String) : Decidable (IsFileName s) := inferInstanceAs (Decidable (_ ∧ _))

theorem moves_of_isFileName (h : IsFileName s) : moves s = [s] := by
  have hslash : ∀ c ∈ s.toList, (c == '/') = false := by
    intro c hc
    have hne : c ≠ '/' := fun heq => h.2.2.2 (heq ▸ hc)
    simpa using hne
  rw [moves_eq, List.splitOnP_eq_singleton hslash]
  simp [h.1, h.2.1]

theorem moves_pathOf (ns : List String) : moves (pathOf ns) = ns.flatMap moves := by
  by_cases hne : ns = []
  · subst hne
    decide
  · rw [pathOf_eq_trail hne]
    induction ns with
    | nil => exact absurd rfl hne
    | cons s ns ih =>
      by_cases hns : ns = []
      · subst hns
        have h : trail [s] = "" ++ "/" ++ s := by simp
        rw [h, moves_append_slash, moves_empty, List.nil_append, List.flatMap_singleton]
      · -- The first name ends where the slash of the next one stands.
        obtain ⟨t, ts, rfl⟩ := List.exists_cons_of_ne_nil hns
        have h : trail (s :: t :: ts) = "" ++ "/" ++ (s ++ "/" ++ Text.join "/" (t :: ts)) := by
          rw [trail_cons, ← slash_append_join hns]
          simp [String.append_assoc]
        have hrest : trail (t :: ts) = "" ++ "/" ++ Text.join "/" (t :: ts) := by
          rw [← slash_append_join hns]
          simp
        have ih := ih hns
        rw [hrest, moves_append_slash, moves_empty, List.nil_append] at ih
        rw [h, moves_append_slash, moves_append_slash, moves_empty, List.nil_append, List.flatMap_cons, ← ih]

/-- Where a path leads, its moves lead. -/
theorem follow_of_locate (h : d.locate p true = .ok l) : d.follow true maxLinks [] (moves p) = .ok l := by
  rw [locate] at h
  split_ifs at h
  rcases follow_moves d maxLinks [] (steps p) with hmoves | herror
  · rwa [hmoves] at h
  · rw [herror] at h
    cases h

/-! ## What a directory lists -/

/-- Every location has one entry, and names that entries may have lead to it. -/
structure Real (d : Disk) : Prop where
  keys : (d.entries.map (·.1)).Nodup
  named : ∀ e ∈ d.entries, ∀ s ∈ e.1, IsFileName s

theorem get?_of_mem (hkeys : (d.entries.map (·.1)).Nodup) {x : Location × DiskEntry} (hx : x ∈ d.entries)
    (hne : x.1 ≠ []) : d.get? x.1 = some x.2 := by
  rw [get?, if_neg hne]
  cases hfind : d.entries.find? (·.1 = x.1) with
  | none => simpa using List.find?_eq_none.mp hfind x hx
  | some y =>
    have hy : y.1 = x.1 := by simpa using List.find?_some hfind
    rw [List.inj_on_of_nodup_map hkeys (List.mem_of_find?_eq_some hfind) hx hy]
    rfl

theorem Real.get?_of_mem_below (h : d.Real) {kind : FileKind} (hs : (s, kind) ∈ d.below l) :
    IsFileName s ∧ ∃ e, d.get? (l ++ [s]) = some e ∧ e.item.kind = kind := by
  obtain ⟨x, hx, hs⟩ := List.mem_filterMap.mp hs
  split_ifs at hs with hcond
  obtain ⟨t, ht, heq⟩ := Option.map_eq_some_iff.mp hs
  cases heq
  have hloc : x.1 = l ++ [s] := by
    rw [← hcond.2]
    exact (List.dropLast_append_getLast? s ht).symm
  exact ⟨h.named x hx s (List.mem_of_getLast? ht), x.2, hloc ▸ get?_of_mem h.keys hx hcond.1, rfl⟩

theorem exists_locate_of_list {entries : List (String × FileKind)} (h : d.list p = .ok entries) :
    ∃ l modified, d.locate p true = .ok l ∧ d.get? l = some ⟨.dir, modified⟩ ∧ entries = d.below l := by
  rw [list] at h
  split at h
  · cases h
  · next l hl =>
    split at h
    · next modified hget =>
      cases h
      exact ⟨l, modified, hl, hget, rfl⟩
    · cases h
    · cases h

/-- What a directory lists stands right below it, unless it is a link. -/
theorem Real.locate_of_listed (h : d.Real) {kind : FileKind} {l' : Location} {modified : Int}
    (hl : d.locate p true = .ok l) (hdir : d.get? l = some ⟨.dir, modified⟩) (hmem : (s, kind) ∈ d.below l)
    (hkind : kind ≠ .symlink) (hmoves : moves q = moves p ++ [s]) (hl' : d.locate q true = .ok l') : l' = l ++ [s] := by
  obtain ⟨⟨-, hdot, hup, -⟩, x, hget, rfl⟩ := h.get?_of_mem_below hmem
  have hp := follow_of_locate hl
  have hq := follow_of_locate hl'
  rw [hmoves] at hq
  rcases follow_append d maxLinks [] (moves p) with ⟨k, l₁, hfirst⟩ | ⟨cause, hfirst⟩
  · have hl₁ : l₁ = l := by
      have hnil := hfirst []
      rw [List.append_nil, hp, follow] at hnil
      exact (Except.ok.inj hnil).symm
    subst hl₁
    obtain ⟨item, modified'⟩ := x
    -- The last step is taken in the directory and ends at what was listed there.
    rw [hfirst, follow] at hq
    cases item with
    | link target => exact absurd rfl hkind
    | _ =>
      simp only [hdir, if_neg hdot, if_neg hup, hget] at hq
      split_ifs at hq
      rw [follow] at hq
      cases hq
      rfl
  · rw [hfirst] at hq
    cases hq

/-- What is found at a place that a directory lists is of the kind that was listed, unless that is a link. -/
theorem Real.kind_of_listed (h : d.Real) {entries : List (String × FileKind)} {kind : FileKind}
    (hlist : d.list p = .ok entries) (hmem : (s, kind) ∈ entries) (hkind : kind ≠ .symlink)
    (hmoves : moves q = moves p ++ [s]) (he : d.entry q = .ok e) : e.item.kind = kind := by
  obtain ⟨l, modified, hl, hdir, rfl⟩ := exists_locate_of_list hlist
  obtain ⟨-, x, hget, rfl⟩ := h.get?_of_mem_below hmem
  rw [entry] at he
  split at he
  · cases he
  · next l' hl' =>
    rw [h.locate_of_listed hl hdir hmem hkind hmoves hl', hget] at he
    cases he
    rfl

/-! ## The spelling of a tree -/

/-- A tree divides a path as the disk does, if no name in it holds the other slash. -/
theorem moves_eq_splitPath (h : '\\' ∉ p.toList) : moves p = splitPath p := by
  have hsplit : p.toList.splitOnP (· == '/') = p.toList.splitOnP isSlash := by
    generalize p.toList = cs at h
    induction cs with
    | nil => simp
    | cons c cs ih =>
      rw [List.mem_cons, not_or] at h
      have hc : isSlash c = (c == '/') := by
        have hne : c ≠ '\\' := fun heq => h.1 heq.symm
        simp [isSlash, hne]
      rw [List.splitOnP_cons_eq_if_modifyHead, List.splitOnP_cons_eq_if_modifyHead, hc, ih h.2]
  rw [moves_eq, splitPath_eq, hsplit]

theorem mem_trail {ns : List String} {c : Char} : c ∈ (trail ns).toList ↔ ∃ s ∈ ns, c = '/' ∨ c ∈ s.toList := by
  induction ns with
  | nil => simp
  | cons s ns ih => simp [ih, or_assoc]

theorem size_trail_filter_le (keep : String → Bool) (ns : List String) :
    (trail (ns.filter keep)).utf8ByteSize ≤ (trail ns).utf8ByteSize := by
  induction ns with
  | nil => exact Nat.le_refl _
  | cons s ns ih =>
    rw [List.filter_cons]
    split <;> simp only [trail_cons, String.utf8ByteSize_append] <;> omega

theorem toList_trail_split (cs : List Char) :
    (trail ((cs.splitOnP (· == '/')).map String.ofList)).toList = '/' :: cs := by
  induction cs with
  | nil => simp
  | cons c cs ih =>
    obtain ⟨first, parts, hparts⟩ := List.exists_cons_of_ne_nil (List.splitOnP_ne_nil (· == '/') cs)
    rw [hparts] at ih
    rw [List.splitOnP_cons_eq_if_modifyHead, hparts]
    by_cases hc : c = '/' <;> simp_all

/-- An absolute path is made of the texts that stand after its slashes. -/
theorem exists_trail (habs : Path.isAbsolute p = true) :
    ∃ ns, p = trail ns ∧ moves p = ns.filter fun s => s != "" && s != "." := by
  obtain ⟨cs, hcs⟩ : ∃ cs, p.toList = '/' :: cs := by
    rw [Path.isAbsolute, decide_eq_true_eq] at habs
    obtain ⟨cs, hcs⟩ := List.head?_eq_some_iff.mp habs
    exact ⟨cs, hcs⟩
  refine ⟨(cs.splitOnP (· == '/')).map String.ofList, ?_, ?_⟩
  · rw [← String.toList_inj, toList_trail_split, hcs]
  · rw [moves_eq, hcs, List.splitOnP_cons_eq_if_modifyHead, if_pos (by decide)]
    rfl

theorem contains_pathOf_iff {ns : List String} {c : Char} (hc : c ≠ '/') :
    c ∈ (pathOf ns).toList ↔ ∃ s ∈ ns, c ∈ s.toList := by
  by_cases hne : ns = []
  · subst hne
    simpa [pathOf, Text.join] using hc
  · simp [pathOf_eq_trail hne, mem_trail, hc]

/-- The tree's spelling of an absolute path has no byte that the path does not have, and leaves out slashes and dots
alone. -/
theorem pathOf_splitPath (habs : Path.isAbsolute p = true) (hslash : '\\' ∉ p.toList) :
    (pathOf (splitPath p)).utf8ByteSize ≤ p.utf8ByteSize ∧
      ((pathOf (splitPath p)).toList.contains '\x00' = p.toList.contains '\x00') := by
  obtain ⟨ns, hp, hmoves⟩ := exists_trail habs
  rw [moves_eq_splitPath hslash] at hmoves
  constructor
  · by_cases hne : splitPath p = []
    · have hsize : (pathOf (splitPath p)).utf8ByteSize = 1 := by rw [hne]; decide
      have hpos : p.utf8ByteSize ≠ 0 := by
        rw [ne_eq, String.utf8ByteSize_eq_zero_iff]
        rintro rfl
        exact absurd habs (by decide)
      omega
    · rw [pathOf_eq_trail hne, hmoves]
      conv_rhs => rw [hp]
      exact size_trail_filter_le _ ns
  · rw [Bool.eq_iff_iff, List.contains_iff_mem, List.contains_iff_mem, contains_pathOf_iff (by decide), hmoves]
    conv_rhs => rw [hp, mem_trail]
    constructor
    · rintro ⟨s, hs, hc⟩
      exact ⟨s, List.mem_of_mem_filter hs, .inr hc⟩
    · rintro ⟨s, hs, hc⟩
      have hc := hc.resolve_left (by decide)
      refine ⟨s, List.mem_filter.mpr ⟨hs, ?_⟩, hc⟩
      rw [Bool.and_eq_true, bne_iff_ne, bne_iff_ne]
      constructor <;> rintro rfl
      · simp at hc
      · simp at hc

theorem follow_steps_pathOf {ns : List String} (h : ∀ s ∈ ns, IsName s) :
    d.follow true maxLinks [] (steps (pathOf ns)) = d.follow true maxLinks [] ns := by
  by_cases hne : ns = []
  · subst hne
    have hsteps : steps (pathOf []) = ["."] := by decide
    have hroot : d.get? [] = some ⟨.dir, 0⟩ := rfl
    simp only [hsteps, follow, hroot, if_true]
  · rw [steps_pathOf h hne]

/-- A path leads where the tree's spelling of it leads. -/
theorem locate_spelled (habs : Path.isAbsolute p = true) (hslash : '\\' ∉ p.toList)
    (hlength : p.utf8ByteSize < maxPath) :
    d.locate p true = d.locate (pathOf (splitPath p)) true ∨ d.locate p true = .error .notDirectory := by
  obtain ⟨hsize, hnul⟩ := pathOf_splitPath habs hslash
  have hp : p ≠ "" := by
    rintro rfl
    exact absurd habs (by decide)
  rw [locate, locate, hnul, if_neg hp, if_neg (show pathOf (splitPath p) ≠ "" by simp [pathOf]),
    if_neg (Nat.not_le.mpr hlength), if_neg (Nat.not_le.mpr (Nat.lt_of_le_of_lt hsize hlength)),
    follow_steps_pathOf fun s => isName_of_mem_splitPath, ← moves_eq_splitPath hslash]
  split
  · exact .inl rfl
  · exact follow_moves d maxLinks [] (steps p)

/-- What a path leads to is what the tree's spelling of it leads to. -/
theorem entry_spelled (habs : Path.isAbsolute p = true) (hslash : '\\' ∉ p.toList)
    (hlength : p.utf8ByteSize < maxPath) :
    d.entry p = d.entry (pathOf (splitPath p)) ∨ d.entry p = .error .notDirectory := by
  rcases locate_spelled (d := d) habs hslash hlength with hsame | hfile
  · exact .inl (by rw [entry, entry, hsame])
  · exact .inr (by rw [entry, hfile])

/-- What is found at a path is found, and listed, at the tree's spelling of it. -/
theorem spelled_of_entry (habs : Path.isAbsolute p = true) (hslash : '\\' ∉ p.toList) (he : d.entry p = .ok e) :
    d.entry (pathOf (splitPath p)) = .ok e ∧ d.list (pathOf (splitPath p)) = d.list p := by
  have hlength : p.utf8ByteSize < maxPath := by
    by_contra hlong
    rw [entry, locate, if_pos (Nat.le_of_not_lt hlong)] at he
    split_ifs at he
  rcases locate_spelled (d := d) habs hslash hlength with hsame | hfile
  · refine ⟨?_, by rw [list, list, hsame]⟩
    rw [entry, ← hsame, ← entry, he]
  · rw [entry, hfile] at he
    cases he

/-! ## What a path leads through -/

theorem size_pathOf_le_append (ns ms : List String) : (pathOf ns).utf8ByteSize ≤ (pathOf (ns ++ ms)).utf8ByteSize := by
  by_cases hne : ns = []
  · rw [hne, pathOf, pathOf, String.utf8ByteSize_append, String.utf8ByteSize_append]
    exact Nat.add_le_add_left (Nat.zero_le _) _
  · rw [pathOf_eq_trail hne, pathOf_eq_trail (by simp [hne]), trail_append, String.utf8ByteSize_append]
    exact Nat.le_add_right _ _

/-- What leads somewhere leads through each place above it. -/
theorem exists_locate_above {ns ms : List String} (h : ∀ s ∈ ns ++ ms, IsName s)
    (hl : d.locate (pathOf (ns ++ ms)) true = .ok l) :
    ∃ k l', d.locate (pathOf ns) true = .ok l' ∧ d.follow true k l' ms = .ok l := by
  have hns : ∀ s ∈ ns, IsName s := fun s hs => h s (List.mem_append_left _ hs)
  rw [locate] at hl
  split_ifs at hl with hnul hempty hlong
  rw [follow_steps_pathOf h] at hl
  have hnul' : '\x00' ∉ (pathOf ns).toList := by
    rw [contains_pathOf_iff (by decide)]
    rintro ⟨s, hs, hc⟩
    have hmem := (contains_pathOf_iff (by decide)).mpr ⟨s, List.mem_append_left ms hs, hc⟩
    exact hnul (List.contains_iff_mem.mpr hmem)
  have hshort : ¬ maxPath ≤ (pathOf ns).utf8ByteSize := fun hle => hlong (hle.trans (size_pathOf_le_append ns ms))
  rcases follow_append d maxLinks [] ns with ⟨k, l', hsplit⟩ | ⟨cause, hfails⟩
  · have hhere := hsplit []
    rw [List.append_nil, follow] at hhere
    refine ⟨k, l', ?_, hsplit ms ▸ hl⟩
    rw [locate, if_neg (by simpa using hnul'), if_neg (by simp [pathOf]), if_neg hshort, follow_steps_pathOf hns, hhere]
  · rw [hfails] at hl
    cases hl

/-- What is found below a directory is listed there. -/
theorem mem_names_of_entry {ns : List String} (h : ∀ t ∈ ns ++ [s], IsName t) (hup : s ≠ "..")
    (he : d.entry (pathOf (ns ++ [s])) = .ok e) : s ∈ d.names (pathOf ns) := by
  rw [entry] at he
  split at he
  · cases he
  · next l hl =>
    obtain ⟨k, l', hloc, hlast⟩ := exists_locate_above h hl
    obtain ⟨modified, hdir⟩ := exists_dir_of_follow hlast
    refine (mem_names_iff_of_locate hloc hdir).mpr ?_
    cases hget : d.get? (l' ++ [s]) with
    | some x => rfl
    | none =>
      rw [follow, hdir] at hlast
      simp only [if_neg (h s (by simp)).2.1, if_neg hup, hget] at hlast
      split at hlast <;> cases hlast

end EditorAgent.Disk

import EditorAgent.Proofs.Go.Settled
import Mathlib.Data.List.MinMax

/-!
# What a module requires

The requirements of a module are written one over the other, and an import path is matched by cutting its
last elements off. Both come to a plain rule: a path stands for the module itself, else for its last
replacement, else for its last requirement, else for its first line in `go.sum`; and the longest such path
that covers an import path governs it.
-/

namespace EditorAgent.Go

open Vfs

/-! ## Providing -/

/-- What a module file and the versions of `go.sum` provide for a path. -/
def provided (d : Disk) (dir : String) (m : ModFile) (sums : List Require) (path : String) : Option Requirement :=
  if path = m.module then some { dir := some dir, path }
  else match m.replace.reverse.find? (·.oldPath = path) with
    | some r => some (replacement d dir r)
    | none => ((m.require.reverse ++ sums).find? (·.path = path)).map fun r => { path := r.path, version := r.version }

/-- The paths for which something is provided. -/
def ModFile.keys (m : ModFile) (sums : List Require) : List String :=
  m.module :: (m.replace.map (·.oldPath) ++ m.require.map (·.path) ++ sums.map (·.path))

variable {d : Disk} {dir p q importPath : String} {m : ModFile} {sums : List Require}

theorem isSome_provided_iff (d : Disk) (dir : String) : (provided d dir m sums p).isSome ↔ p ∈ m.keys sums := by
  rw [provided, ModFile.keys]
  by_cases hmain : p = m.module
  · simp [hmain]
  · rw [if_neg hmain]
    cases hreplace : m.replace.reverse.find? (·.oldPath = p) with
    | some r =>
      have hr : r ∈ m.replace ∧ r.oldPath = p := by
        have := List.mem_of_find?_eq_some hreplace
        exact ⟨by simpa using this, by simpa using List.find?_some hreplace⟩
      simpa using .inr (.inl ⟨r, hr⟩)
    | none =>
      have hno : ∀ r ∈ m.replace, r.oldPath ≠ p := by simpa using hreplace
      simp only [Option.isSome_map, List.find?_isSome, List.mem_append, List.mem_reverse, decide_eq_true_eq,
        List.mem_cons, hmain, List.mem_map, false_or]
      grind

namespace ModuleRoot

/-- The requirement of a path in a list of them. -/
def lookup (rs : List (String × Requirement)) (p : String) : Option Requirement :=
  (rs.find? (·.1 == p)).map (·.2)

theorem lookup_set (rs : List (String × Requirement)) (path p : String) (r : Requirement) :
    lookup (set rs path r) p = if path = p then some r else lookup rs p := by
  by_cases h : path = p
  · simp [lookup, set, h]
  · have hfind : (rs.filter (·.1 != path)).find? (·.1 == p) = rs.find? (·.1 == p) := by
      rw [List.find?_filter]
      congr 1
      funext x
      by_cases hx : x.1 = p
      · simp [hx, Ne.symm h]
      · simp [hx]
    simp [lookup, set, h, hfind]

/-- Of several requirements of a path the last one counts. -/
theorem lookup_foldl_set {α : Type} (f : α → String) (g : α → Requirement) (xs : List α)
    (rs : List (String × Requirement)) (p : String) :
    lookup (xs.foldl (fun rs x => set rs (f x) (g x)) rs) p =
      ((xs.reverse.find? (f · = p)).map g).or (lookup rs p) := by
  induction xs generalizing rs with
  | nil => rfl
  | cons x xs ih =>
    rw [List.foldl_cons, ih, lookup_set, List.reverse_cons, List.find?_append]
    cases xs.reverse.find? (f · = p) with
    | some y => rfl
    | none => by_cases hx : f x = p <;> simp [hx]

theorem any_eq_isSome_lookup (rs : List (String × Requirement)) (p : String) :
    rs.any (·.1 == p) = (lookup rs p).isSome := by
  rw [lookup, Option.isSome_map, Bool.eq_iff_iff, List.any_eq_true, List.find?_isSome]

/-- Of several lines of `go.sum` for a path the first one counts, if nothing else does. -/
theorem lookup_addSums (rs : List (String × Requirement)) (sums : List Require) (p : String) :
    lookup (addSums rs sums) p = (lookup rs p).or
      ((sums.find? (·.path = p)).map fun r => { path := r.path, version := r.version }) := by
  induction sums generalizing rs with
  | nil => simp [addSums]
  | cons r sums ih =>
    have hstep : addSums rs (r :: sums) = addSums (if rs.any (·.1 == r.path) then rs
        else rs ++ [(r.path, { path := r.path, version := r.version })]) sums := rfl
    rw [hstep, ih, any_eq_isSome_lookup]
    by_cases hr : r.path = p
    · subst hr
      cases hl : lookup rs r.path with
      | some x => simp [hl]
      | none =>
        have hl' : rs.find? (·.1 == r.path) = none := by simpa [lookup] using hl
        simp [lookup, hl']
    · have hother : lookup (rs ++ [(r.path, { path := r.path, version := r.version })]) p = lookup rs p := by
        simp [lookup, List.find?_append, hr]
      split
      · simp [hr]
      · simp [hr, hother]

/-- What the files provide for a path is what the list of requirements holds for it. -/
theorem lookup_requirementList (d : Disk) (dir : String) (m : ModFile) (sums : List Require) (p : String) :
    lookup (requirementList d dir m sums) p = provided d dir m sums p := by
  rw [requirementList, lookup_addSums, lookup_set, lookup_foldl_set, lookup_foldl_set, provided]
  by_cases hmain : m.module = p
  · simp [hmain]
  · rw [if_neg hmain, if_neg (Ne.symm hmain)]
    cases m.replace.reverse.find? (·.oldPath = p) with
    | some r => rfl
    | none =>
      rw [List.find?_append]
      cases m.require.reverse.find? (·.path = p) with
      | some r => rfl
      | none => simp [lookup]

end ModuleRoot

/-! ## Covering -/

/-- A path at or above an import path. -/
def Covers (q importPath : String) : Prop := q = importPath ∨ Text.startsWith importPath (q ++ "/") = true

instance (q importPath : String) : Decidable (Covers q importPath) := inferInstanceAs (Decidable (_ ∨ _))

theorem covers_iff : Covers q p ↔ q = p ∨ ∃ t, p = q ++ "/" ++ t := by
  refine or_congr Iff.rfl ⟨fun h => ⟨_, Text.after?_eq (by rw [Text.after?, if_pos h])⟩, ?_⟩
  rintro ⟨t, rfl⟩
  simp [Text.startsWith]

theorem Covers.length_le (h : Covers q p) : q.length ≤ p.length := by
  rcases covers_iff.mp h with rfl | ⟨t, rfl⟩
  · exact Nat.le_refl _
  · simp only [String.length_append]
    omega

theorem Covers.exists_rest (h : Covers q p) : ∃ t, p = q ++ t ∧ IsRest t := by
  rcases covers_iff.mp h with rfl | ⟨t, rfl⟩
  · exact ⟨"", by simp, .inl rfl⟩
  · exact ⟨"/" ++ t, by simp [String.append_assoc], .inr (by simp [Text.startsWith])⟩

/-- A path that covers one cut at its last slash. -/
theorem Covers.append {r a : String} (ha : '/' ∉ a.toList) :
    Covers q (r ++ "/" ++ a) ↔ q = r ++ "/" ++ a ∨ Covers q r := by
  rw [covers_iff, covers_iff]
  refine or_congr Iff.rfl ⟨?_, ?_⟩
  · rintro ⟨t, ht⟩
    have hlist : r.toList ++ '/' :: a.toList = q.toList ++ '/' :: t.toList := by
      simpa using congrArg String.toList ht
    rcases List.append_eq_append_iff.mp hlist with ⟨l, hq, hl⟩ | ⟨l, hr, hl⟩
    · cases l with
      | nil => exact .inl (String.toList_injective (by simpa using hq))
      | cons c l =>
        -- The slash after the covering path would be one of the last element.
        obtain ⟨-, hl⟩ := List.cons.inj hl
        exact absurd (hl ▸ by simp) ha
    · cases l with
      | nil => exact .inl (String.toList_injective (by simpa using hr.symm))
      | cons c l =>
        obtain ⟨rfl, -⟩ := List.cons.inj hl
        exact .inr ⟨String.ofList l, String.toList_injective (by simpa using hr)⟩
  · rintro (rfl | ⟨t, rfl⟩)
    · exact ⟨a, rfl⟩
    · exact ⟨t ++ "/" ++ a, by simp [String.append_assoc]⟩

namespace ModuleRoot

theorem prefixes_succ (n : Nat) (p : String) :
    prefixes (n + 1) p = [p] ∧ '/' ∉ p.toList ∨
      ∃ r a, prefixes (n + 1) p = p :: prefixes n r ∧ p = r ++ "/" ++ a ∧ '/' ∉ a.toList := by
  rw [prefixes]
  cases hcut : Text.cutLast? p "/" with
  | none => exact .inl ⟨rfl, Text.cutLastChars_none (by simpa [Text.cutLast?] using hcut)⟩
  | some x =>
    obtain ⟨r, a⟩ := x
    refine .inr ⟨r, a, rfl, Text.cutLast?_eq hcut, ?_⟩
    obtain ⟨x, hx, hra⟩ := Option.map_eq_some_iff.mp hcut
    cases hra
    rw [String.toList_ofList]
    exact Text.not_mem_of_cutLastChars (c := '/') hx

/-- Cutting the last elements off a path gives the paths that cover it. -/
theorem covers_of_mem_prefixes {n : Nat} (h : q ∈ prefixes n p) : Covers q p := by
  induction n generalizing p with
  | zero => simp [prefixes] at h
  | succ n ih =>
    rcases prefixes_succ n p with ⟨heq, -⟩ | ⟨r, a, heq, rfl, ha⟩
    · rw [heq] at h
      exact .inl (by simpa using h)
    · rw [heq] at h
      exact (Covers.append ha).mpr ((List.mem_cons.mp h).imp id ih)

theorem mem_prefixes_of_covers {n : Nat} (hn : p.length < n) (h : Covers q p) : q ∈ prefixes n p := by
  induction n generalizing p with
  | zero => omega
  | succ n ih =>
    rcases prefixes_succ n p with ⟨heq, hslash⟩ | ⟨r, a, heq, rfl, ha⟩
    · rcases covers_iff.mp h with rfl | ⟨t, rfl⟩
      · simp [heq]
      · simp at hslash
    · rw [heq]
      rcases (Covers.append ha).mp h with rfl | h
      · exact List.mem_cons_self
      · refine List.mem_cons_of_mem _ (ih ?_ h)
        simp only [String.length_append] at hn
        have : ("/" : String).length = 1 := rfl
        omega

/-- The longer paths come first. -/
theorem pairwise_prefixes (n : Nat) (p : String) : (prefixes n p).Pairwise fun q q' => q'.length < q.length := by
  induction n generalizing p with
  | zero => simp [prefixes]
  | succ n ih =>
    rcases prefixes_succ n p with ⟨heq, -⟩ | ⟨r, a, heq, rfl, -⟩
    · simp [heq]
    · rw [heq, List.pairwise_cons]
      refine ⟨fun q hq => ?_, ih r⟩
      have hle := (covers_of_mem_prefixes hq).length_le
      simp only [String.length_append]
      have : ("/" : String).length = 1 := rfl
      omega

end ModuleRoot

/-- What covers an import path is required by a path above it, and the rest leads on from there. -/
theorem ModuleRoot.of_covering? {m : ModuleRoot} {r : Requirement} {sub : String}
    (h : m.covering? importPath = some (r, q, sub)) :
    lookup m.requirements q = some r ∧
      ∃ t, importPath = q ++ t ∧ IsRest t ∧ sub = String.ofList (t.toList.dropWhile (· == '/')) := by
  obtain ⟨p, hp, hx⟩ := List.exists_of_findSome?_eq_some h
  obtain ⟨x, hfind, heq⟩ := Option.map_eq_some_iff.mp hx
  cases heq
  obtain ⟨t, rfl, ht⟩ := (covers_of_mem_prefixes hp).exists_rest
  have hdrop : (q ++ t).toList.drop q.length = t.toList := by
    rw [String.toList_append, ← String.length_toList, List.drop_left]
  exact ⟨by rw [lookup, hfind, Option.map_some], t, rfl, ht, by rw [hdrop]⟩

/-- The longest path that covers an import path, of those for which something is provided. -/
def governing? (m : ModFile) (sums : List Require) (importPath : String) : Option String :=
  ((m.keys sums).filter (Covers · importPath)).argmax String.length

/-- The rest of an import path after a path that covers it. -/
def suffix (importPath q : String) : String := String.ofList (importPath.toList.drop (q.length + 1))

/-- An import path without empty elements and without ones that stay where they are or lead up. -/
def IsPlainPath (importPath : String) : Prop :=
  ∀ e ∈ Text.split (· == '/') importPath, e ≠ "" ∧ e ≠ "." ∧ e ≠ ".."

instance (importPath : String) : Decidable (IsPlainPath importPath) := inferInstanceAs (Decidable (∀ e ∈ _, _))

theorem Covers.suffix_eq (h : Covers q importPath) (hplain : IsPlainPath importPath) :
    String.ofList ((importPath.toList.drop q.length).dropWhile (· == '/')) = suffix importPath q := by
  rcases covers_iff.mp h with rfl | ⟨t, rfl⟩
  · have hnil : q.toList.drop q.length = [] := by rw [← String.length_toList, List.drop_length]
    have hnil' : q.toList.drop (q.length + 1) = [] := by rw [← List.drop_drop, hnil, List.drop_nil]
    rw [suffix, hnil, hnil']
    rfl
  · have hdrop : (q ++ "/" ++ t).toList.drop q.length = '/' :: t.toList := by
      have hlist : (q ++ "/" ++ t).toList = q.toList ++ '/' :: t.toList := by simp
      rw [hlist, ← String.length_toList, List.drop_left]
    have hdrop' : (q ++ "/" ++ t).toList.drop (q.length + 1) = t.toList := by
      rw [← List.drop_drop, hdrop]
      rfl
    have ht : t.toList.dropWhile (· == '/') = t.toList := by
      cases hc : t.toList with
      | nil => rfl
      | cons c r =>
        -- A second slash would make an empty element.
        have hslash : c ≠ '/' := by
          rintro rfl
          refine (hplain "" ?_).1 rfl
          rw [Path.split_append_slash]
          simp [Text.split, hc, Text.splitChars]
        simp [hslash]
    rw [suffix, hdrop, hdrop', List.dropWhile_cons_of_pos (by simp), ht]

/-- Matching an import path finds what the path that governs it is provided with. -/
theorem covering?_requirementList (hplain : IsPlainPath importPath) :
    ModuleRoot.covering? ⟨dir, m.module, ModuleRoot.requirementList d dir m sums⟩ importPath =
      (governing? m sums importPath).bind fun q =>
        (provided d dir m sums q).map fun r => (r, q, suffix importPath q) := by
  have hlookup : ∀ p, ((ModuleRoot.requirementList d dir m sums).find? (·.1 == p)).map (fun r =>
      (r.2, p, String.ofList ((importPath.toList.drop p.length).dropWhile (· == '/')))) =
      (provided d dir m sums p).map fun r =>
        (r, p, String.ofList ((importPath.toList.drop p.length).dropWhile (· == '/'))) := by
    intro p
    rw [← ModuleRoot.lookup_requirementList, ModuleRoot.lookup, Option.map_map]
    rfl
  rw [ModuleRoot.covering?]
  simp only [hlookup]
  cases hgov : governing? m sums importPath with
  | none =>
    rw [Option.bind_none, List.findSome?_eq_none_iff]
    intro p hp
    have hnone : p ∉ m.keys sums := by
      intro hk
      have := List.argmax_eq_none.mp hgov
      rw [List.filter_eq_nil_iff] at this
      exact this p hk (by simpa using ModuleRoot.covers_of_mem_prefixes hp)
    rw [← isSome_provided_iff d dir, Option.not_isSome_iff_eq_none] at hnone
    rw [hnone, Option.map_none]
  | some q =>
    obtain ⟨hkey, hcov⟩ : q ∈ m.keys sums ∧ Covers q importPath := by
      simpa using List.argmax_mem hgov
    obtain ⟨r, hr⟩ := Option.isSome_iff_exists.mp ((isSome_provided_iff d dir).mpr hkey)
    obtain ⟨longer, shorter, hsplit⟩ := List.append_of_mem
      (ModuleRoot.mem_prefixes_of_covers (Nat.lt_succ_self importPath.length) hcov)
    rw [Option.bind_some, hr, Option.map_some, List.findSome?_eq_some_iff]
    refine ⟨longer, q, shorter, hsplit, by rw [hr, Option.map_some, hcov.suffix_eq hplain], fun p hp => ?_⟩
    -- A longer path that is provided for would govern.
    have hlt : q.length < p.length := by
      have := ModuleRoot.pairwise_prefixes (importPath.length + 1) importPath
      rw [hsplit, List.pairwise_append] at this
      exact this.2.2 p hp q List.mem_cons_self
    have hnone : p ∉ m.keys sums := by
      intro hk
      have hcov' : Covers p importPath := ModuleRoot.covers_of_mem_prefixes (hsplit ▸ List.mem_append_left _ hp)
      have := List.le_of_mem_argmax (List.mem_filter.mpr ⟨hk, by simpa using hcov'⟩) hgov
      omega
    rw [← isSome_provided_iff d dir, Option.not_isSome_iff_eq_none] at hnone
    rw [hnone, Option.map_none]

end EditorAgent.Go

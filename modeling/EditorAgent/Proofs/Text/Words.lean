import EditorAgent.Proofs.Path.Names
import Mathlib.Data.List.TakeWhile

/-!
# Words

White space around a text does not matter where it is trimmed, and white space between words only parts them.
-/

namespace EditorAgent.Text

/-! ## Trimming -/

theorem dropWhile_append_eq {p : Char → Bool} {cs ds : List Char} (hcs : ∀ c ∈ cs, p c = true)
    (hds : ∀ c ∈ ds.head?, p c = false) : (cs ++ ds).dropWhile p = ds := by
  rw [List.dropWhile_append_of_pos hcs]
  cases ds with
  | nil => rfl
  | cons d ds => exact List.dropWhile_cons_of_neg (by simpa using hds d rfl)

theorem trimChars_append {p : Char → Bool} {after : List Char} (hafter : ∀ c ∈ after, p c = true) (s : List Char) :
    trimChars p (s ++ after) = trimChars p s := by
  rw [trimChars, trimChars, List.dropWhile_append]
  split
  · next hnone =>
    rw [List.isEmpty_iff.mp hnone, List.dropWhile_eq_nil_iff.mpr hafter]
  · rw [List.reverse_append, List.dropWhile_append_of_pos fun c hc => hafter c (List.mem_reverse.mp hc)]

/-- What is around a text that neither begins nor ends with such characters is cut off. -/
theorem trimChars_around {p : Char → Bool} {before s after : List Char} (hbefore : ∀ c ∈ before, p c = true)
    (hafter : ∀ c ∈ after, p c = true) (hfirst : ∀ c ∈ s.head?, p c = false) (hlast : ∀ c ∈ s.getLast?, p c = false) :
    trimChars p (before ++ s ++ after) = s := by
  have hlast' : ∀ c ∈ s.reverse.head?, p c = false := by rwa [List.head?_reverse]
  have hend : s.reverse.dropWhile p = s.reverse := by
    rw [← List.nil_append s.reverse]
    exact dropWhile_append_eq nofun hlast'
  rw [trimChars_append hafter, trimChars, dropWhile_append_eq hbefore hfirst, hend, List.reverse_reverse]

/-! ## Words -/

theorem words_ofList (s : List Char) :
    words (String.ofList s) = ((s.splitOnP isBlank).map String.ofList).filter (· != "") := by
  rw [words, split, splitChars_eq_splitOnP, String.toList_ofList]

theorem words_cons_of_isBlank {c : Char} (h : isBlank c = true) (s : List Char) :
    words (String.ofList (c :: s)) = words (String.ofList s) := by
  rw [words_ofList, words_ofList, List.splitOnP_cons_eq_if_modifyHead, if_pos h]
  rfl

theorem words_blanks_append {u : List Char} (hu : ∀ c ∈ u, isBlank c = true) (s : List Char) :
    words (String.ofList (u ++ s)) = words (String.ofList s) := by
  induction u with
  | nil => rfl
  | cons c u ih =>
    rw [List.cons_append, words_cons_of_isBlank (hu c List.mem_cons_self)]
    exact ih fun d hd => hu d (List.mem_cons_of_mem _ hd)

theorem words_trimStart (s : String) : words (trimStart s) = words s := by
  have hblanks : ∀ c ∈ s.toList.takeWhile isBlank, isBlank c = true := List.all_eq_true.mp List.all_takeWhile
  have hwords := words_blanks_append hblanks (s.toList.dropWhile isBlank)
  rw [List.takeWhile_append_dropWhile, String.ofList_toList] at hwords
  exact hwords.symm

/-- A run of characters that white space or nothing follows is a word, unless it is empty. -/
theorem words_append {u r : List Char} (hu : ∀ c ∈ u, isBlank c = false) (hr : ∀ c ∈ r.head?, isBlank c = true) :
    words (String.ofList (u ++ r)) = (if u = [] then [] else [String.ofList u]) ++ words (String.ofList r) := by
  have hone : words (String.ofList u) = if u = [] then [] else [String.ofList u] := by
    rw [words_ofList, List.splitOnP_eq_singleton hu]
    by_cases hnil : u = [] <;> simp [hnil]
  rw [← hone]
  cases r with
  | nil => rw [List.append_nil]; exact (List.append_nil _).symm
  | cons c r =>
    rw [words_cons_of_isBlank (hr c rfl), words_ofList, words_ofList, words_ofList,
      List.splitOnP_append_cons _ _ (hr c rfl), List.map_append, List.filter_append]

/-- A text is such a run, and the rest. -/
theorem exists_run (t : String) : ∃ u r : List Char, t = String.ofList (u ++ r) ∧
    (∀ c ∈ u, isBlank c = false) ∧ ∀ c ∈ r.head?, isBlank c = true := by
  refine ⟨t.toList.takeWhile (!isBlank ·), t.toList.dropWhile (!isBlank ·), ?_, fun c hc => ?_, fun c hc => ?_⟩
  · rw [List.takeWhile_append_dropWhile, String.ofList_toList]
  · simpa using List.all_eq_true.mp List.all_takeWhile c hc
  · have hhead := List.head?_dropWhile_not (!isBlank ·) t.toList
    simpa [Option.mem_def.mp hc] using hhead

/-- What stands before a text without white space in between belongs to its first word. -/
theorem words_prepend {p : String} (hne : p ≠ "") (hp : ∀ c ∈ p.toList, isBlank c = false) (t : String) :
    ∃ more ws, words (p ++ t) = (p ++ more) :: ws ∧ words t = if more = "" then ws else more :: ws := by
  obtain ⟨u, r, rfl, hu, hr⟩ := exists_run t
  have happend : p ++ String.ofList (u ++ r) = String.ofList ((p.toList ++ u) ++ r) :=
    String.toList_injective (by simp)
  have hpu : ∀ c ∈ p.toList ++ u, isBlank c = false := by simpa [or_imp, forall_and] using ⟨hp, hu⟩
  have hword : String.ofList (p.toList ++ u) = p ++ String.ofList u := String.toList_injective (by simp)
  refine ⟨String.ofList u, words (String.ofList r), ?_, ?_⟩
  · rw [happend, words_append hpu hr, if_neg (by simp [hne]), hword, List.singleton_append]
  · rw [words_append hu hr]
    by_cases hnil : u = [] <;> simp [hnil]

/-- After its leading white space a text begins with its first word. -/
theorem exists_trimStart_eq_append {s w : String} {ws : List String} (h : words s = w :: ws) :
    ∃ t, trimStart s = w ++ t := by
  obtain ⟨u, r, hrun, hu, hr⟩ := exists_run (trimStart s)
  rw [← words_trimStart, hrun, words_append hu hr] at h
  by_cases hnil : u = []
  · -- nothing is left that could open with white space
    subst hnil
    have hhead := List.head?_dropWhile_not isBlank s.toList
    rw [List.nil_append, trimStart, String.ofList_inj] at hrun
    rw [hrun] at hhead
    cases r with
    | nil => cases h
    | cons c r => simp [hr c rfl] at hhead
  · rw [if_neg hnil, List.singleton_append, List.cons.injEq] at h
    exact ⟨String.ofList r, by rw [hrun, ← h.1]; exact String.toList_injective (by simp)⟩

end EditorAgent.Text

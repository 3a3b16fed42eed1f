import EditorAgent.Proofs.Path.Segments

/-!
# The parent of a path

However it is spelled, an absolute path is its parent and one more component. If there is no `..` in it, the parent is
cleaned to a directory in which the path is that of its file name.
-/

namespace EditorAgent.Path

variable {p q name : String}

/-! ## Cutting the last component off -/

/-- The components of the elements from a place on, by the places of the elements. -/
theorem relativeComponents_drop (k : Nat) (es : List String) :
    relativeComponents false (es.drop k) =
      ((List.range (es.length - k)).map (k + ·)).filterMap fun i => component? false (es.getD i "") := by
  induction es generalizing k with
  | nil => simp [relativeComponents]
  | cons e es ih =>
    cases k with
    | zero =>
      have hrest := ih 0
      rw [List.drop_zero] at hrest
      rw [List.drop_zero, relativeComponents, hrest, List.length_cons, Nat.sub_zero, Nat.sub_zero,
        List.range_succ_eq_map]
      cases he : component? false e <;> simp [he]
    | succ k =>
      rw [List.drop_succ_cons, ih, List.length_cons, Nat.succ_sub_succ]
      simp [Nat.add_right_comm]

/-- Above the last place but one that counts there is one more. -/
theorem filter_range_of_reverse {P : Nat → Bool} {n i j : Nat} {l : List Nat}
    (h : ((List.range n).filter P).reverse = j :: i :: l) :
    ((List.range (n - (i + 1))).map (i + 1 + ·)).filter P = [j] := by
  have hl : (List.range n).filter P = l.reverse ++ i :: [j] := by
    rw [← List.reverse_inj, h]
    simp
  have hmem : i ∈ (List.range n).filter P := hl ▸ List.mem_append_right _ List.mem_cons_self
  obtain ⟨hlt, hi⟩ := List.mem_filter.mp hmem
  obtain ⟨m, rfl⟩ := Nat.exists_eq_add_of_le (Nat.succ_le_of_lt (List.mem_range.mp hlt))
  rw [Nat.add_sub_cancel_left]
  have hsplit : (List.range (i + 1 + m)).filter P =
      (List.range i).filter P ++ i :: ((List.range m).map (i + 1 + ·)).filter P := by
    rw [List.range_add, List.filter_append, List.range_succ, List.filter_append, List.filter_singleton, hi]
    simp
  have hbelow : i ∉ (List.range i).filter P := by simp
  have habove : i ∉ ((List.range m).map (i + 1 + ·)).filter P := by
    intro hi
    obtain ⟨k, -, hk⟩ := List.mem_map.mp (List.mem_of_mem_filter hi)
    omega
  exact ((List.append_cons_inj_of_notMem hbelow habove).mp (hsplit.symm.trans hl)).2.2

/-- What stays of the elements has all components but the last. -/
theorem exists_component_of_parentElements {n : Nat} (habs : isAbsolute p = true) (h : parentElements p = some n) :
    ∃ c, relativeComponents false (elements p) = relativeComponents false ((elements p).take n) ++ [c] := by
  rw [parentElements, habs] at h
  simp only [Bool.not_true, Bool.and_false] at h
  generalize elements p = es at h ⊢
  -- One element counts from where the others are cut off.
  have hlast : ∃ j, ((List.range (es.length - n)).map (n + ·)).filter
      (fun i => (component? false (es.getD i "")).isSome) = [j] := by
    split at h
    · cases h
    · next j hl =>
      cases h
      refine ⟨j, ?_⟩
      simpa [List.reverse_eq_iff] using hl
    · next j i l hl =>
      cases h
      exact ⟨j, filter_range_of_reverse hl⟩
  obtain ⟨j, hj⟩ := hlast
  have hfilter := congrArg (List.filterMap fun i => component? false (es.getD i "")) hj
  have hsome : ∀ i, (if (component? false (es.getD i "")).isSome = true then component? false (es.getD i "") else none) =
      component? false (es.getD i "") := by
    intro i
    cases component? false (es.getD i "") <;> rfl
  rw [List.filterMap_filter] at hfilter
  simp only [hsome] at hfilter
  have hmem : j ∈ ((List.range (es.length - n)).map (n + ·)).filter
      (fun i => (component? false (es.getD i "")).isSome) := hj ▸ List.mem_singleton_self j
  obtain ⟨c, hc⟩ := Option.isSome_iff_exists.mp (List.mem_filter.mp hmem).2
  refine ⟨c, ?_⟩
  conv_lhs => rw [← List.take_append_drop n es]
  rw [relativeComponents_append (.inl rfl), relativeComponents_drop, hfilter, List.filterMap_cons, hc]
  rfl

/-- However it is spelled, an absolute path is its parent and one more component. -/
theorem components_of_parent? (habs : isAbsolute p = true) (h : parent? p = some q) :
    isAbsolute q = true ∧ ∃ c, components p = components q ++ [c] := by
  obtain ⟨n, hn, rfl⟩ := Option.map_eq_some_iff.mp h
  rw [habs, if_pos rfl]
  refine ⟨by simp [isAbsolute], ?_⟩
  obtain ⟨c, hc⟩ := exists_component_of_parentElements habs hn
  refine ⟨c, ?_⟩
  have hrest : tailComponents (Text.join "/" ((elements p).take n)) = relativeComponents false ((elements p).take n) := by
    by_cases hnil : (elements p).take n = []
    · rw [hnil]
      exact tailComponents_empty
    · have hslash : ∀ e ∈ (elements p).take n, '/' ∉ e.toList := fun e he hmem =>
        Bool.noConfusion (not_slash_of_mem_elements (List.mem_of_mem_take he) '/' hmem)
      rw [tailComponents]
      exact congrArg _ (Text.split_join hslash hnil)
  rw [components_slash_append, hrest, components, if_pos habs, hc]
  rfl

/-! ## Paths without `..` -/

/-- A directory that is cleaned is what it was, for the most part. -/
theorem components_clean_of_names {ns : List String} (h : components p = .root :: ns.map .name) :
    components (clean p) = components p := by
  have hclean : cleanComponents (components p) = components p := by
    have hroot : cleanComponents [.root] = [.root] := by decide
    rw [h, ← List.singleton_append, cleanComponents_append_names, hroot]
  have hne : cleanComponents (components p) ≠ [] := by
    rw [hclean, h]
    exact List.cons_ne_nil _ _
  have heq : clean p = ofComponents (cleanComponents (components p)) := by
    rw [clean]
    split
    · next hnil => exact absurd hnil hne
    · rfl
  rw [heq, components_ofComponents_clean, hclean]

/-- The file of a name in a directory. -/
structure Lies (p dir name : String) : Prop where
  absolute : isAbsolute dir = true
  components : Path.components p = Path.components dir ++ [.name name]

namespace Lies

variable {dir : String}

theorem isElement (h : Lies p dir name) : IsElement (.name name) :=
  isElement_of_mem_components (h.components ▸ List.mem_append_right _ (List.mem_singleton_self _)) (by simp) (by simp)

/-- The name leads from the directory to the path. -/
theorem components_join (h : Lies p dir name) : Path.components (join dir name) = Path.components p := by
  have hne : dir ≠ "" := by
    rintro rfl
    exact absurd h.absolute (by decide)
  have hname : isAbsolute name = false := isAbsolute_of_not_slash h.isElement.2
  rw [Path.components_join hne hname, h.components]
  exact congrArg _ (tailComponents_text h.isElement)

/-- A tree goes through the directory and then to the name. -/
theorem splitPath_eq (h : Lies p dir name) (hback : '\\' ∉ p.toList) : Vfs.splitPath p = Vfs.splitPath dir ++ [name] := by
  have hname : Vfs.IsName name := isName_of_mem_components hback (h.components ▸ by simp)
  rw [Vfs.splitPath_eq_flatMap_components, h.components, List.flatMap_append, ← Vfs.splitPath_eq_flatMap_components]
  simpa [Component.text] using Vfs.splitPath_of_isName hname

end Lies

/-- An absolute path without `..` is that of its file name in its parent, which cleaning does not change. -/
theorem lies_of_fileName? (habs : isAbsolute p = true) (hup : ".." ∉ elements p) (hname : fileName? p = some name)
    (hq : parent? p = some q) : Lies p q name ∧ Lies p (clean q) name := by
  obtain ⟨hqabs, c, hc⟩ := components_of_parent? habs hq
  obtain ⟨ns, hns⟩ := exists_names_of_not_up hup
  have hp : components p = .root :: ns.map .name := by rw [components, if_pos habs, hns]
  obtain rfl : c = .name name := by
    rw [fileName?, hc, List.getLast?_concat] at hname
    cases c <;> cases hname
    rfl
  rcases List.eq_nil_or_concat ns with rfl | ⟨ms, s, rfl⟩
  · have hlast := congrArg List.getLast? (hc.symm.trans hp)
    rw [List.getLast?_concat] at hlast
    cases hlast
  · rw [List.concat_eq_append, List.map_append, ← List.cons_append] at hp
    have hclean := components_clean_of_names (List.append_inj' (hc.symm.trans hp) rfl).1
    exact ⟨⟨hqabs, hc⟩, isAbsolute_clean hqabs, by rw [hc, hclean]⟩

end EditorAgent.Path

import EditorAgent.Proofs.Path.Names

/-!
# Normal spellings

The normal spelling of a path has the components of the path, so two paths are the same exactly if they are
spelled alike when normal.
-/

namespace EditorAgent.Path

open Vfs

/-- An element of a path that means something wherever it stands. -/
def IsElement (c : Component) : Prop :=
  component? false c.text = some c ∧ ∀ x ∈ c.text.toList, (x == '/') = false

/-- The components of a path that is appended to another. -/
def tailComponents (q : String) : List Component := relativeComponents false (Text.split (· == '/') q)

theorem relativeComponents_append {opening : Bool} {es : List String} (h : opening = false ∨ es ≠ [])
    (fs : List String) :
    relativeComponents opening (es ++ fs) = relativeComponents opening es ++ relativeComponents false fs := by
  induction es generalizing opening with
  | nil =>
    obtain rfl : opening = false := by simpa using h
    simp [relativeComponents]
  | cons x es ih => simp [relativeComponents, ih (.inl rfl)]

theorem split_append_slash (p q : String) :
    Text.split (· == '/') (p ++ "/" ++ q) = Text.split (· == '/') p ++ Text.split (· == '/') q := by
  have h : (p ++ "/" ++ q).toList = p.toList ++ '/' :: q.toList := by simp
  simp only [Text.split, Text.splitChars_eq_splitOnP]
  rw [h, List.splitOnP_append_cons _ _ (by decide)]
  simp

theorem isAbsolute_append {p : String} (hp : p ≠ "") (q : String) : isAbsolute (p ++ q) = isAbsolute p := by
  obtain ⟨c, r, hr⟩ := List.exists_cons_of_ne_nil (show p.toList ≠ [] by simpa using hp)
  simp [isAbsolute, hr]

theorem isAbsolute_of_not_slash {e : String} (h : ∀ x ∈ e.toList, (x == '/') = false) : isAbsolute e = false := by
  rw [isAbsolute, decide_eq_false_iff_not]
  intro hx
  simpa using h '/' (List.mem_of_mem_head? hx)

theorem components_append_slash {p : String} (hp : p ≠ "") (q : String) :
    components (p ++ "/" ++ q) = components p ++ tailComponents q := by
  have habs : isAbsolute (p ++ "/" ++ q) = isAbsolute p := by rw [String.append_assoc, isAbsolute_append hp]
  have hne := Text.split_ne_nil (· == '/') p
  rw [components, components, habs, elements, elements, habs, split_append_slash]
  cases isAbsolute p with
  | true =>
    rw [if_pos rfl, if_pos rfl, if_pos rfl, if_pos rfl, List.drop_append_of_le_length (List.length_pos_iff.mpr hne),
      relativeComponents_append (.inl rfl), List.cons_append]
    rfl
  | false => exact relativeComponents_append (.inr hne) _

/-- A path that ends in a slash, other than the root, is spelled with one too many. -/
theorem eq_append_slash {p : String} (h : Text.endsWith p "/" = true) : ∃ q, p = q ++ "/" := by
  rw [Text.endsWith, List.isPrefixOf_iff_prefix, List.reverse_prefix] at h
  obtain ⟨r, hr⟩ := h
  refine ⟨String.ofList r, String.toList_injective ?_⟩
  rw [← hr]
  simp

theorem components_slash_append (q : String) : components ("/" ++ q) = .root :: tailComponents q := by
  have hroot : isAbsolute ("/" ++ q) = true := by simp [isAbsolute]
  have hsplit : Text.split (· == '/') ("/" ++ q) = "" :: Text.split (· == '/') q := by
    simp [Text.split, Text.splitChars]
  rw [components, hroot, if_pos rfl, elements, hroot, if_pos rfl, hsplit, tailComponents]
  rfl

@[simp] theorem tailComponents_empty : tailComponents "" = [] := by decide

/-- A path that is appended is read after the one that is there. -/
theorem components_join {p q : String} (hp : p ≠ "") (hq : isAbsolute q = false) :
    components (join p q) = components p ++ tailComponents q := by
  rw [join, hq, if_neg (by simp)]
  split
  · next h =>
    obtain ⟨r, rfl⟩ := eq_append_slash (by simpa [hp] using h)
    by_cases hr : r = ""
    · subst hr
      have hslash : components "/" = [.root] := by decide
      simp [components_slash_append, hslash]
    · have hnil : r ++ "/" = r ++ "/" ++ "" := by simp
      rw [components_append_slash hr, hnil, components_append_slash hr]
      simp
  · exact components_append_slash hp q

/-- Only the empty path has no components. -/
theorem eq_empty_of_components {p : String} (h : components p = []) : p = "" := by
  by_contra hp
  obtain ⟨c, cs, hc⟩ := List.exists_cons_of_ne_nil (show p.toList ≠ [] by simpa using hp)
  have habs : isAbsolute p = false := by
    by_contra habs
    rw [components, if_pos (by simpa using habs)] at h
    cases h
  have hslash : ¬ (c == '/') = true := by simpa [isAbsolute, hc] using habs
  obtain ⟨part, parts, hparts⟩ := List.exists_cons_of_ne_nil (List.splitOnP_ne_nil (· == '/') cs)
  have hsplit : Text.split (· == '/') p = String.ofList (c :: part) :: parts.map String.ofList := by
    rw [Text.split, Text.splitChars_eq_splitOnP, hc, List.splitOnP_cons_eq_if_modifyHead, hparts, if_neg hslash]
    rfl
  have hfirst : component? true (String.ofList (c :: part)) ≠ none := by
    rw [component?, if_neg (by simp)]
    split_ifs <;> simp_all
  rw [components, habs, if_neg (by simp), elements, habs, if_neg (by simp), hsplit, relativeComponents,
    List.append_eq_nil_iff, Option.toList_eq_nil_iff] at h
  exact hfirst h.1

/-- What a path is appended to matters by its components alone. -/
theorem components_join_congr {p q s : String} (h : components p = components q) (hs : isAbsolute s = false) :
    components (join p s) = components (join q s) := by
  by_cases hp : p = ""
  · have hq : q = "" := eq_empty_of_components (h.symm.trans (by rw [hp]; decide))
    rw [hp, hq]
  · have hq : q ≠ "" := fun hq => hp (eq_empty_of_components (h.trans (by rw [hq]; decide)))
    rw [components_join hp hs, components_join hq hs, h]

theorem tailComponents_text {c : Component} (hc : IsElement c) : tailComponents c.text = [c] := by
  have hsplit : Text.split (· == '/') c.text = [c.text] := by
    simp [Text.split, Text.splitChars_eq_splitOnP, List.splitOnP_eq_singleton hc.2]
  rw [tailComponents, hsplit, relativeComponents, hc.1]
  rfl

theorem components_foldl {cs : List Component} (h : ∀ c ∈ cs, IsElement c) {p : String} (hp : p ≠ "") :
    components (cs.foldl (fun p c => join p c.text) p) = components p ++ cs := by
  induction cs generalizing p with
  | nil => simp
  | cons c cs ih =>
    have hc := h c List.mem_cons_self
    have hone : components (join p c.text) = components p ++ [c] := by
      rw [components_join hp (isAbsolute_of_not_slash hc.2), tailComponents_text hc]
    have hjoin : join p c.text ≠ "" := by
      intro he
      have hnil : components "" = [] := by decide
      simp [he, hnil] at hone
    rw [List.foldl_cons, ih (fun x hx => h x (List.mem_cons_of_mem _ hx)) hjoin, hone]
    simp

theorem text_of_component? {opening : Bool} {e : String} {c : Component} (h : component? opening e = some c) :
    c.text = e := by
  unfold component? at h
  split_ifs at h <;> cases h <;> simp_all [Component.text]

theorem isElement_of_mem {es : List String} (hes : ∀ e ∈ es, ∀ x ∈ e.toList, (x == '/') = false) {c : Component}
    (h : c ∈ relativeComponents false es) : IsElement c := by
  induction es with
  | nil => simp [relativeComponents] at h
  | cons e es ih =>
    rw [relativeComponents, List.mem_append, Option.mem_toList] at h
    rcases h with h | h
    · have htext := text_of_component? h
      exact ⟨htext ▸ h, htext ▸ hes e List.mem_cons_self⟩
    · exact ih (fun e he => hes e (List.mem_cons_of_mem _ he)) h

theorem not_slash_of_mem_elements {p e : String} (h : e ∈ elements p) : ∀ x ∈ e.toList, (x == '/') = false := by
  have hm : e ∈ Text.split (· == '/') p := by
    rw [elements] at h
    split at h
    · exact List.mem_of_mem_drop h
    · exact h
  rw [Text.split, Text.splitChars_eq_splitOnP] at hm
  obtain ⟨part, hpart, rfl⟩ := List.mem_map.mp hm
  simpa using Text.eq_false_of_mem_splitOnP hpart

theorem IsElement.opening {c : Component} (h : IsElement c) : component? true c.text = some c := by
  have hc := h.1
  unfold component? at hc ⊢
  split_ifs at hc ⊢ <;> simp_all

/-- A first component that may open a path is followed by elements. -/
theorem components_ofComponents {c : Component} {cs : List Component} (hc : component? true c.text = some c)
    (hslash : ∀ x ∈ c.text.toList, (x == '/') = false) (hcs : ∀ c ∈ cs, IsElement c) :
    components (ofComponents (c :: cs)) = c :: cs := by
  have hne : c.text ≠ "" := by
    intro h
    simp [h, component?] at hc
  have habs := isAbsolute_of_not_slash hslash
  have hone : components c.text = [c] := by
    rw [components, habs, if_neg (by simp), elements, habs, if_neg (by simp), Text.split,
      Text.splitChars_eq_splitOnP, List.splitOnP_eq_singleton hslash]
    simp [relativeComponents, hc]
  have hjoin : join "" c.text = c.text := by simp [join, habs]
  rw [ofComponents, List.foldl_cons, hjoin, components_foldl hcs hne, hone]
  rfl

theorem components_relative {es : List String} (hes : ∀ e ∈ es, ∀ x ∈ e.toList, (x == '/') = false) :
    components (ofComponents (relativeComponents true es)) = relativeComponents true es := by
  cases es with
  | nil => decide
  | cons e es =>
    have hrest : ∀ c ∈ relativeComponents false es, IsElement c :=
      fun c => isElement_of_mem fun e he => hes e (List.mem_cons_of_mem _ he)
    rw [relativeComponents]
    cases hc : component? true e with
    | some c =>
      have htext := text_of_component? hc
      exact components_ofComponents (htext ▸ hc) (htext ▸ hes e List.mem_cons_self) hrest
    | none =>
      rw [Option.toList_none, List.nil_append]
      cases hcs : relativeComponents false es with
      | nil => decide
      | cons c cs =>
        rw [hcs] at hrest
        have hc := hrest c List.mem_cons_self
        exact components_ofComponents hc.opening hc.2 fun c hc => hrest c (List.mem_cons_of_mem _ hc)

theorem components_normal (p : String) : components (normal p) = components p := by
  rw [normal]
  cases habs : isAbsolute p with
  | true =>
    have hp : components p = .root :: relativeComponents false (elements p) := by rw [components, habs, if_pos rfl]
    have hroot : join "" Component.root.text = "/" := by decide
    have hslash : components "/" = [.root] := by decide
    rw [hp, ofComponents, List.foldl_cons, hroot,
      components_foldl (fun c => isElement_of_mem fun e => not_slash_of_mem_elements) (by decide), hslash]
    rfl
  | false =>
    have hp : components p = relativeComponents true (elements p) := by simp [components, habs]
    rw [hp]
    exact components_relative fun e => not_slash_of_mem_elements

theorem same_iff_normal_eq {p q : String} : same p q = true ↔ normal p = normal q := by
  rw [same, beq_iff_eq]
  refine ⟨fun h => by rw [normal, normal, h], fun h => ?_⟩
  rw [← components_normal p, h, components_normal]

end EditorAgent.Path

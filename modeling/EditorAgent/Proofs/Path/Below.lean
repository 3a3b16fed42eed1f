import EditorAgent.Proofs.Path.Cleaning

/-!
# Paths that are written out

A path that names lead to is the text in which a slash stands before each of them, so what was joined can be
cut apart again: at the first place where a text stands, or at the end of a base that the path begins with.
-/

namespace EditorAgent

namespace Text

/-! ## First occurrences -/

/-- A text is cut where another stands if it does not stand earlier, not even in part. -/
theorem cutChars_append {c : Char} {p x y : List Char} (h : cutChars (p ++ [c]) (x ++ p) = none) :
    cutChars (p ++ [c]) (x ++ (p ++ [c]) ++ y) = some (x, y) := by
  induction x with
  | nil =>
    obtain ⟨e, r, her⟩ := List.exists_cons_of_ne_nil (show p ++ [c] ≠ [] by simp)
    have hpre : (p ++ [c]).isPrefixOf (e :: (r ++ y)) = true := by
      rw [← List.cons_append, ← her, List.isPrefixOf_iff_prefix]
      exact List.prefix_append _ _
    have hdrop : (e :: (r ++ y)).drop (p ++ [c]).length = y := by rw [← List.cons_append, ← her, List.drop_left]
    rw [List.nil_append]
    conv_lhs => rw [her, List.cons_append, cutChars, ← her, if_pos hpre, hdrop]
  | cons e x ih =>
    rw [List.cons_append, cutChars] at h
    split at h
    · cases h
    · next hno =>
      have hno' : ¬ (p ++ [c]).isPrefixOf (e :: (x ++ (p ++ [c]) ++ y)) = true := by
        rw [List.isPrefixOf_iff_prefix] at hno ⊢
        intro hpre
        -- The prefix is too short to reach what is appended.
        refine hno (List.prefix_of_prefix_length_le hpre ?_ (by simp))
        exact ⟨c :: y, by simp⟩
      rw [List.cons_append, List.cons_append, cutChars, if_neg hno', ih (by simpa using h)]
      rfl

theorem cutChars_append_of_not_mem {c : Char} {p x y : List Char} (h : c ∉ x) :
    cutChars (c :: p) (x ++ (c :: p) ++ y) = some (x, y) := by
  induction x with
  | nil =>
    have hpre : (c :: p).isPrefixOf (c :: (p ++ y)) = true := by
      rw [List.isPrefixOf_iff_prefix, ← List.cons_append]
      exact List.prefix_append _ _
    rw [List.nil_append, List.cons_append, cutChars, if_pos hpre]
    simp
  | cons e x ih =>
    rw [List.mem_cons, not_or] at h
    have hne : (c == e) = false := by simpa using h.1
    rw [List.cons_append, List.cons_append, cutChars, List.isPrefixOf_cons_cons, hne, Bool.false_and,
      if_neg Bool.false_ne_true, ih h.2]
    rfl

theorem cut?_append {x p q y : String} {c : Char} (hp : p.toList = q.toList ++ [c])
    (h : contains (x ++ q) p = false) : cut? (x ++ p ++ y) p = some (x, y) := by
  have hnone : cutChars (q.toList ++ [c]) (x.toList ++ q.toList) = none := by
    rwa [contains, Option.isSome_eq_false_iff, Option.isNone_iff_eq_none, hp, String.toList_append] at h
  rw [cut?, String.toList_append, String.toList_append, hp, cutChars_append hnone]
  simp

theorem cut?_append_of_not_mem {x p y : String} {c : Char} {q : List Char} (hp : p.toList = c :: q)
    (h : c ∉ x.toList) : cut? (x ++ p ++ y) p = some (x, y) := by
  rw [cut?, String.toList_append, String.toList_append, hp, cutChars_append_of_not_mem h]
  simp

theorem after?_append (p t : String) : after? (p ++ t) p = some t := by
  have hstarts : startsWith (p ++ t) p = true := by simp [startsWith]
  have hdrop : (p ++ t).toList.drop p.length = t.toList := by
    rw [String.toList_append, ← String.length_toList, List.drop_left]
  rw [after?, if_pos hstarts, hdrop, String.ofList_toList]

end Text

namespace Vfs

/-! ## Trails -/

/-- Names with a slash before each. -/
def trail (ns : List String) : String := ns.foldr (fun s t => "/" ++ s ++ t) ""

@[simp] theorem trail_nil : trail [] = "" := rfl

@[simp] theorem trail_cons (s : String) (ns : List String) : trail (s :: ns) = "/" ++ s ++ trail ns := rfl

@[simp] theorem trail_append (ns ms : List String) : trail (ns ++ ms) = trail ns ++ trail ms := by
  induction ns with
  | nil => simp
  | cons s ns ih => simp [ih, String.append_assoc]

theorem slash_append_join {ns : List String} (h : ns ≠ []) : "/" ++ Text.join "/" ns = trail ns := by
  induction ns with
  | nil => exact absurd rfl h
  | cons s ns ih =>
    cases ns with
    | nil => simp [Text.join]
    | cons t ts => rw [Text.join_cons_cons, trail_cons, ← ih (by simp)]; simp [String.append_assoc]

theorem pathOf_eq_trail {ns : List String} (h : ns ≠ []) : pathOf ns = trail ns := slash_append_join h

/-- More names follow with a slash. -/
theorem join_append {ns : List String} (h : ns ≠ []) (ms : List String) :
    Text.join "/" (ns ++ ms) = Text.join "/" ns ++ trail ms := by
  have hboth : "/" ++ Text.join "/" (ns ++ ms) = trail (ns ++ ms) := slash_append_join (by simp [h])
  rw [trail_append, ← slash_append_join h, String.append_assoc] at hboth
  exact (String.append_right_inj _).mp hboth

theorem isRest_trail (ns : List String) : IsRest (trail ns) := by
  cases ns with
  | nil => exact .inl rfl
  | cons s ns => exact .inr (by simp [Text.startsWith])

/-- A name by which a path goes on down. -/
def IsStep (s : String) : Prop := IsName s ∧ s ≠ ".."

instance (s : String) : Decidable (IsStep s) := inferInstanceAs (Decidable (_ ∧ _))

end Vfs

namespace Path

open Vfs

/-! ## Names appended -/

theorem isAbsolute_join {ns : List String} (h : ∀ s ∈ ns, IsStep s) : isAbsolute (Text.join "/" ns) = false := by
  cases ns with
  | nil => decide
  | cons s ns =>
    have hs := (h s List.mem_cons_self).1
    cases ns with
    | nil => simpa [Text.join] using isAbsolute_of_isName hs
    | cons t ts =>
      rw [Text.join_cons_cons, String.append_assoc, isAbsolute_append hs.1]
      exact isAbsolute_of_isName hs

theorem dropWhile_trail {ns : List String} (h : ∀ s ∈ ns, IsStep s) :
    String.ofList ((trail ns).toList.dropWhile (· == '/')) = Text.join "/" ns := by
  by_cases hne : ns = []
  · subst hne
    decide
  · have habs := isAbsolute_join h
    have hdrop : (Text.join "/" ns).toList.dropWhile (· == '/') = (Text.join "/" ns).toList := by
      rw [isAbsolute, decide_eq_false_iff_not] at habs
      cases hc : (Text.join "/" ns).toList with
      | nil => rfl
      | cons x xs =>
        rw [hc, List.head?_cons, Option.some.injEq] at habs
        exact List.dropWhile_cons_of_neg (by simpa using habs)
    rw [← slash_append_join hne, String.toList_append]
    have hslash : ("/" : String).toList = ['/'] := by decide
    rw [hslash, List.singleton_append, List.dropWhile_cons_of_pos (by simp), hdrop, String.ofList_toList]

theorem tailComponents_join {ns : List String} (h : ∀ s ∈ ns, IsStep s) :
    tailComponents (Text.join "/" ns) = ns.map .name := by
  by_cases hne : ns = []
  · subst hne
    decide
  · rw [tailComponents, split_join_names (fun s hs => (h s hs).1) hne]
    exact relativeComponents_names (fun s hs => (h s hs).1) fun hup => (h _ hup).2 rfl

theorem splitPath_join_steps {p : String} {ns : List String} (h : ∀ s ∈ ns, IsStep s) :
    splitPath (join p (Text.join "/" ns)) = splitPath p ++ ns := by
  rw [splitPath_join (isAbsolute_join h), splitPath_join_names fun s hs => (h s hs).1]

/-- Names that are joined to a path stand at its end when it is cleaned. -/
theorem clean_join {p : String} (hp : Plain (clean p)) {ns : List String} (h : ∀ s ∈ ns, IsStep s) :
    clean (join p (Text.join "/" ns)) = pathOf (splitPath (clean p) ++ ns) := by
  have hnames : ∀ s ∈ splitPath (clean p) ++ ns, IsName s := by
    intro s hs
    rcases List.mem_append.mp hs with hs | hs
    · exact isName_of_mem_splitPath hs
    · exact (h s hs).1
  have hclean : cleanComponents (components p) = .root :: (splitPath (clean p)).map .name := by
    rw [← cleanComponents_clean, hp.components_eq, cleanComponents_names]
  have hall : cleanComponents (components (join p (Text.join "/" ns))) =
      .root :: (splitPath (clean p) ++ ns).map .name := by
    rw [cleanComponents_join p (isAbsolute_join h), tailComponents_join h, cleanComponents_append_names, hclean,
      List.map_append, List.cons_append]
  rw [clean, hall]
  exact ofComponents_names hnames

theorem plain_clean_join {p : String} (hp : Plain (clean p)) {ns : List String} (h : ∀ s ∈ ns, IsStep s) :
    Plain (clean (join p (Text.join "/" ns))) := by
  rw [clean_join hp h]
  refine plain_pathOf (fun s hs => ?_) fun hup => ?_
  · rcases List.mem_append.mp hs with hs | hs
    · exact isName_of_mem_splitPath hs
    · exact (h s hs).1
  · rcases List.mem_append.mp hup with hup | hup
    · exact hp.2 hup
    · exact (h _ hup).2 rfl

/-- Names that are joined to a written out path follow its names. -/
theorem clean_join_pathOf {ns ms : List String} (hns : ∀ s ∈ ns, IsStep s) (hms : ∀ s ∈ ms, IsStep s) :
    clean (join (pathOf ns) (Text.join "/" ms)) = pathOf (ns ++ ms) := by
  have hplain := plain_pathOf (fun s hs => (hns s hs).1) fun hup => (hns _ hup).2 rfl
  rw [clean_join (hplain.clean_eq.symm ▸ hplain) hms, hplain.clean_eq, splitPath_pathOf fun s hs => (hns s hs).1]

/-! ## Spellings of plain paths -/

/-- A spelling of a plain path. -/
def Direct (p : String) : Prop := Plain (normal p)

instance (p : String) : Decidable (Direct p) := inferInstanceAs (Decidable (Plain _))

theorem splitPath_congr {p q : String} (h : components p = components q) : splitPath p = splitPath q := by
  rw [splitPath_eq_flatMap_components, splitPath_eq_flatMap_components, h]

namespace Direct

variable {p base rel : String}

theorem components_eq (h : Direct p) : components p = .root :: (splitPath p).map .name := by
  rw [← splitPath_congr (components_normal p), ← components_normal]
  exact Plain.components_eq h

theorem clean_eq (h : Direct p) : clean p = pathOf (splitPath p) := by
  rw [clean, h.components_eq, cleanComponents_names]
  exact ofComponents_names fun s hs => isName_of_mem_splitPath hs

theorem splitPath_clean (h : Direct p) : splitPath (clean p) = splitPath p := by
  rw [h.clean_eq, splitPath_pathOf fun s hs => isName_of_mem_splitPath hs]

theorem isStep (h : Direct p) : ∀ s ∈ splitPath p, IsStep s := by
  have hsplit := splitPath_congr (components_normal p)
  intro s hs
  exact ⟨isName_of_mem_splitPath hs, fun hup => h.2 (hsplit ▸ hup ▸ hs)⟩

/-- The path below a base is spelled by the names after those of the base. -/
theorem names_of_relative? (h : Direct p) (hbase : components base ≠ []) (hrel : relative? p base = some rel) :
    ∃ bs rs, splitPath p = bs ++ rs ∧ components base = .root :: bs.map .name ∧ rel = Text.join "/" rs := by
  obtain ⟨cs, hcs, rfl⟩ := Option.map_eq_some_iff.mp hrel
  rw [below?] at hcs
  split at hcs
  · next hpre =>
    obtain rfl := Option.some.inj hcs
    obtain ⟨c, cs, hc⟩ := List.exists_cons_of_ne_nil hbase
    rw [List.isPrefixOf_iff_prefix, h.components_eq, hc, List.cons_prefix_cons] at hpre
    obtain ⟨rfl, rest, hrest⟩ := hpre
    obtain ⟨bs, rs, hnames, rfl, rfl⟩ := List.map_eq_append_iff.mp hrest.symm
    refine ⟨bs, rs, hnames, hc, ?_⟩
    have hdrop :
        (Component.root :: (bs ++ rs).map Component.name).drop (Component.root :: bs.map Component.name).length =
        rs.map .name := by simp
    rw [h.components_eq, hc, hnames, hdrop, List.map_map]
    congr 1
    exact List.map_id _
  · cases hcs

/-- What is below a base leads back. -/
theorem components_join_relative? (h : Direct p) (hbase : components base ≠ []) (hrel : relative? p base = some rel) :
    components (join base rel) = components p := by
  obtain ⟨bs, rs, hnames, hcomponents, rfl⟩ := h.names_of_relative? hbase hrel
  have hsteps : ∀ s ∈ rs, IsStep s := fun s hs => h.isStep s (hnames ▸ List.mem_append_right _ hs)
  have hne : base ≠ "" := by
    rintro rfl
    exact hbase (by decide)
  rw [components_join hne (isAbsolute_join hsteps), tailComponents_join hsteps, hcomponents, h.components_eq, hnames,
    List.map_append, List.cons_append]

end Direct
end Path
end EditorAgent

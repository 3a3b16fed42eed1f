import EditorAgent.Path.Clean
import EditorAgent.Text.Search
import EditorAgent.Vfs.Basic
import Mathlib.Data.List.Basic

/-!
# The names in a path

A file tree knows a path by the names in it, `Vfs.splitPath`. Joining and cleaning paths only ever puts
together names that were there before; a plain path is spelled by its names alone.
-/

namespace EditorAgent

namespace Text

theorem splitChars_eq_splitOnP (p : Char → Bool) (s : List Char) : splitChars p s = s.splitOnP p := by
  induction s with
  | nil => simp [splitChars]
  | cons c r ih =>
    rw [splitChars, ih, List.splitOnP_cons_eq_if_modifyHead]
    split
    · rfl
    · obtain ⟨part, parts, h⟩ := List.exists_cons_of_ne_nil (List.splitOnP_ne_nil p r)
      simp [h]

theorem eq_false_of_mem_splitOnP {p : Char → Bool} {s part : List Char} (h : part ∈ s.splitOnP p) :
    ∀ c ∈ part, p c = false := by
  induction s generalizing part with
  | nil => simp_all
  | cons c r ih =>
    obtain ⟨first, parts, hr⟩ := List.exists_cons_of_ne_nil (List.splitOnP_ne_nil p r)
    rw [List.splitOnP_cons_eq_if_modifyHead, hr] at h
    rw [hr] at ih
    by_cases hc : p c
    · simp only [hc, if_true, List.mem_cons] at h
      rcases h with rfl | h
      · simp
      · exact ih (by simpa using h)
    · simp only [hc, Bool.false_eq_true, if_false, List.modifyHead_cons, List.mem_cons] at h
      rcases h with rfl | h
      · have := ih List.mem_cons_self
        simpa [hc] using this
      · exact ih (List.mem_cons_of_mem _ h)

theorem mem_of_mem_splitOnP {p : Char → Bool} {s part : List Char} (h : part ∈ s.splitOnP p) {c : Char} (hc : c ∈ part) :
    c ∈ s := by
  induction s generalizing part with
  | nil => simp_all
  | cons x r ih =>
    obtain ⟨first, parts, hr⟩ := List.exists_cons_of_ne_nil (List.splitOnP_ne_nil p r)
    rw [List.splitOnP_cons_eq_if_modifyHead, hr] at h
    rw [hr] at ih
    split at h
    · rcases List.mem_cons.mp h with rfl | h
      · cases hc
      · exact List.mem_cons_of_mem _ (ih h hc)
    · rcases List.mem_cons.mp h with rfl | h
      · rcases List.mem_cons.mp hc with rfl | hc
        · exact List.mem_cons_self
        · exact List.mem_cons_of_mem _ (ih List.mem_cons_self hc)
      · exact List.mem_cons_of_mem _ (ih (List.mem_cons_of_mem _ h) hc)

/-- Splitting at more separators is splitting the parts again. -/
theorem splitOnP_flatMap {p q : Char → Bool} (hpq : ∀ c, p c = true → q c = true) (s : List Char) :
    (s.splitOnP p).flatMap (List.splitOnP q) = s.splitOnP q := by
  induction s with
  | nil => simp
  | cons c r ih =>
    obtain ⟨first, parts, hr⟩ := List.exists_cons_of_ne_nil (List.splitOnP_ne_nil p r)
    rw [hr, List.flatMap_cons] at ih
    rw [List.splitOnP_cons_eq_if_modifyHead, List.splitOnP_cons_eq_if_modifyHead, hr, ← ih]
    obtain ⟨x, xs, hx⟩ := List.exists_cons_of_ne_nil (List.splitOnP_ne_nil q first)
    by_cases hp : p c
    · simp [hp, hpq c hp]
    · by_cases hq : q c
      · simp [hp, hq, List.splitOnP_cons_eq_if_modifyHead]
      · simp [hp, hq, List.splitOnP_cons_eq_if_modifyHead, hx]

theorem split_ne_nil (p : Char → Bool) (s : String) : split p s ≠ [] := by
  simp [split, splitChars_eq_splitOnP, List.splitOnP_ne_nil]

theorem join_cons_cons (sep s t : String) (ts : List String) :
    join sep (s :: t :: ts) = s ++ sep ++ join sep (t :: ts) :=
  String.intercalate_cons_cons

/-- Texts that are joined by a character which is in none of them are split at it again. -/
theorem split_join {c : Char} {ts : List String} (h : ∀ s ∈ ts, c ∉ s.toList) (hne : ts ≠ []) :
    split (· == c) (join (String.ofList [c]) ts) = ts := by
  have hpart : ∀ s ∈ ts, ∀ x ∈ s.toList, (x == c) = false := fun s hs x hx =>
    beq_eq_false_iff_ne.mpr (ne_of_mem_of_not_mem hx (h s hs))
  induction ts with
  | nil => exact absurd rfl hne
  | cons s ts ih =>
    have hs := hpart s List.mem_cons_self
    cases ts with
    | nil => simp [join, split, splitChars_eq_splitOnP, List.splitOnP_eq_singleton hs]
    | cons t ts =>
      have hrest := ih (fun u hu => h u (List.mem_cons_of_mem _ hu)) (List.cons_ne_nil t ts)
        fun u hu => hpart u (List.mem_cons_of_mem _ hu)
      rw [split, splitChars_eq_splitOnP] at hrest
      have hjoin : (join (String.ofList [c]) (s :: t :: ts)).toList =
          s.toList ++ c :: (join (String.ofList [c]) (t :: ts)).toList := by
        rw [join_cons_cons]
        simp
      rw [split, splitChars_eq_splitOnP, hjoin, List.splitOnP_append_cons_of_forall_mem hs c (beq_self_eq_true c),
        List.map_cons, hrest, String.ofList_toList]

/-! ### Cutting -/

theorem eq_append_of_isPrefixOf {p s : List Char} (h : p.isPrefixOf s = true) : s = p ++ s.drop p.length := by
  obtain ⟨t, rfl⟩ := List.isPrefixOf_iff_prefix.mp h
  simp

theorem cutChars_eq {p s a b : List Char} (h : cutChars p s = some (a, b)) : s = a ++ p ++ b := by
  induction s generalizing a with
  | nil =>
    rw [cutChars] at h
    split at h <;> simp_all
  | cons c r ih =>
    rw [cutChars] at h
    split at h
    · next hp =>
      cases h
      exact eq_append_of_isPrefixOf hp
    · obtain ⟨x, hx, hab⟩ := Option.map_eq_some_iff.mp h
      cases hab
      rw [ih hx]
      simp

theorem cutLastChars_eq {p s a b : List Char} (h : cutLastChars p s = some (a, b)) : s = a ++ p ++ b := by
  induction s generalizing a b with
  | nil =>
    rw [cutLastChars] at h
    split at h <;> simp_all
  | cons c r ih =>
    rw [cutLastChars] at h
    split at h
    · next x y hx =>
      cases h
      rw [ih hx]
      simp
    · split at h
      · next hp =>
        cases h
        exact eq_append_of_isPrefixOf hp
      · cases h

theorem cutLastChars_none {c : Char} {s : List Char} (h : cutLastChars [c] s = none) : c ∉ s := by
  induction s with
  | nil => simp
  | cons x s ih =>
    rw [cutLastChars] at h
    split at h
    · cases h
    · next hrest =>
      split at h
      · cases h
      · next hx => simpa [ih hrest] using hx

/-- What follows the last occurrence does not contain another. -/
theorem not_mem_of_cutLastChars {c : Char} {s a b : List Char} (h : cutLastChars [c] s = some (a, b)) : c ∉ b := by
  induction s generalizing a with
  | nil => simp [cutLastChars] at h
  | cons x s ih =>
    rw [cutLastChars] at h
    split at h
    · next hrest =>
      cases h
      exact ih hrest
    · next hrest =>
      split at h
      · cases h
        exact cutLastChars_none hrest
      · cases h

theorem cut?_eq {s p a b : String} (h : cut? s p = some (a, b)) : s = a ++ p ++ b := by
  obtain ⟨x, hx, hab⟩ := Option.map_eq_some_iff.mp h
  cases hab
  apply String.toList_injective
  simpa using cutChars_eq hx

theorem cutLast?_eq {s p a b : String} (h : cutLast? s p = some (a, b)) : s = a ++ p ++ b := by
  obtain ⟨x, hx, hab⟩ := Option.map_eq_some_iff.mp h
  cases hab
  apply String.toList_injective
  simpa using cutLastChars_eq hx

theorem after?_eq {s p t : String} (h : after? s p = some t) : s = p ++ t := by
  rw [after?] at h
  split at h
  · next hp =>
    cases h
    apply String.toList_injective
    have := eq_append_of_isPrefixOf hp
    rw [String.length_toList] at this
    simpa using this
  · cases h

end Text

namespace Vfs

/-- The characters that divide a path. -/
def isSlash (c : Char) : Bool := c == '/' || c == '\\'

/-- What a tree takes for the name of an entry. -/
def IsName (s : String) : Prop := s ≠ "" ∧ s ≠ "." ∧ ∀ c ∈ s.toList, isSlash c = false

instance (s : String) : Decidable (IsName s) :=
  -- only the characters of the name are gone through, not every character there is
  haveI : Decidable (∀ c ∈ s.toList, isSlash c = false) :=
    List.decidableBAll _ s.toList
  inferInstanceAs (Decidable (_ ∧ _ ∧ _))

/-- The path of the node that names lead to. -/
def pathOf (ns : List String) : String := "/" ++ Text.join "/" ns

theorem splitPath_eq (p : String) :
    splitPath p = ((p.toList.splitOnP isSlash).map String.ofList).filter fun s => s != "" && s != "." := by
  rw [splitPath, Text.split, Text.splitChars_eq_splitOnP]
  rfl

@[simp] theorem splitPath_empty : splitPath "" = [] := by simp [splitPath_eq]
@[simp] theorem splitPath_slash : splitPath "/" = [] := by decide
@[simp] theorem splitPath_dot : splitPath "." = [] := by decide

theorem splitPath_append_slash (p q : String) : splitPath (p ++ "/" ++ q) = splitPath p ++ splitPath q := by
  have h : (p ++ "/" ++ q).toList = p.toList ++ '/' :: q.toList := by simp
  rw [splitPath_eq, splitPath_eq, splitPath_eq, h, List.splitOnP_append_cons _ _ (by decide)]
  simp

theorem isName_of_mem_splitPath {p s : String} (h : s ∈ splitPath p) : IsName s := by
  rw [splitPath_eq] at h
  obtain ⟨hm, hs⟩ := List.mem_filter.mp h
  obtain ⟨part, hpart, rfl⟩ := List.mem_map.mp hm
  simp only [bne_iff_ne, ne_eq, Bool.and_eq_true] at hs
  exact ⟨hs.1, hs.2, by simpa using Text.eq_false_of_mem_splitOnP hpart⟩

theorem splitPath_of_isName {s : String} (h : IsName s) : splitPath s = [s] := by
  rw [splitPath_eq, List.splitOnP_eq_singleton h.2.2]
  simp [h.1, h.2.1]

theorem splitPath_join_names {ns : List String} (h : ∀ s ∈ ns, IsName s) :
    splitPath (Text.join "/" ns) = ns := by
  induction ns with
  | nil => simp [Text.join]
  | cons s ns ih =>
    have hs := splitPath_of_isName (h s List.mem_cons_self)
    cases ns with
    | nil => simpa [Text.join] using hs
    | cons t ts =>
      have := ih fun u hu => h u (List.mem_cons_of_mem _ hu)
      rw [Text.join_cons_cons, splitPath_append_slash, hs, this]
      rfl

theorem splitPath_pathOf {ns : List String} (h : ∀ s ∈ ns, IsName s) : splitPath (pathOf ns) = ns := by
  have hp : pathOf ns = "" ++ "/" ++ Text.join "/" ns := by simp [pathOf]
  rw [hp, splitPath_append_slash, splitPath_empty, List.nil_append, splitPath_join_names h]

/-! ## Joining and cleaning -/

theorem splitPath_append_of_endsWith {p : String} (h : Text.endsWith p "/") (q : String) :
    splitPath (p ++ q) = splitPath p ++ splitPath q := by
  obtain ⟨r, hr⟩ : ∃ r, p.toList.reverse = '/' :: r := by
    cases hp : p.toList.reverse with
    | nil => simp [Text.endsWith, hp] at h
    | cons c r =>
      refine ⟨r, ?_⟩
      rw [Text.endsWith, hp] at h
      have hc : '/' = c := by simpa using h
      rw [hc]
  have hp : p = String.ofList r.reverse ++ "/" ++ "" := by
    apply String.toList_injective
    rw [← List.reverse_inj, hr]
    simp
  have hpq : p ++ q = String.ofList r.reverse ++ "/" ++ q := by rw [hp]; simp
  rw [hpq, splitPath_append_slash, hp, splitPath_append_slash]
  simp

theorem splitPath_join {p q : String} (hq : Path.isAbsolute q = false) :
    splitPath (Path.join p q) = splitPath p ++ splitPath q := by
  rw [Path.join, hq]
  simp only [Bool.false_eq_true, if_false]
  split
  · next h =>
    simp only [Bool.or_eq_true, decide_eq_true_eq] at h
    rcases h with rfl | h
    · simp
    · exact splitPath_append_of_endsWith h q
  · exact splitPath_append_slash p q

theorem mem_splitPath_join {p q s : String} (h : s ∈ splitPath (Path.join p q)) :
    s ∈ splitPath p ∨ s ∈ splitPath q := by
  cases hq : Path.isAbsolute q with
  | true =>
    rw [Path.join, hq] at h
    exact .inr h
  | false => rwa [splitPath_join hq, List.mem_append] at h

/-- What follows a name in a path. -/
def IsRest (t : String) : Prop := t = "" ∨ Text.startsWith t "/"

theorem splitPath_append {p t : String} (h : IsRest t) : splitPath (p ++ t) = splitPath p ++ splitPath t := by
  rcases h with rfl | h
  · simp
  · obtain ⟨r, rfl⟩ : ∃ r, t = "/" ++ r :=
      ⟨_, Text.after?_eq (p := "/") (by rw [Text.after?, if_pos h])⟩
    have hr : splitPath ("" ++ "/" ++ r) = splitPath "" ++ splitPath r := splitPath_append_slash "" r
    rw [← String.append_assoc, splitPath_append_slash]
    simpa using hr.symm

theorem splitPath_dropWhile (s : List Char) :
    splitPath (String.ofList (s.dropWhile (· == '/'))) = splitPath (String.ofList s) := by
  induction s with
  | nil => rfl
  | cons c r ih =>
    by_cases hc : c = '/'
    · have hs : String.ofList (c :: r) = "" ++ "/" ++ String.ofList r := by
        apply String.toList_injective
        simp [hc]
      rw [List.dropWhile_cons_of_pos (by simp [hc]), ih, hs, splitPath_append_slash]
      simp
    · rw [List.dropWhile_cons_of_neg (by simp [hc])]

/-- The names in a path are those in the elements between its slashes. -/
theorem splitPath_flatMap_split (p : String) :
    splitPath p = (Text.split (· == '/') p).flatMap splitPath := by
  have hq : ∀ c : Char, (c == '/') = true → isSlash c = true := by
    intro c hc
    simp [isSlash, hc]
  rw [splitPath_eq, ← Text.splitOnP_flatMap hq, Text.split, Text.splitChars_eq_splitOnP,
    List.flatMap_map, List.map_flatMap, List.filter_flatMap]
  congr 1
  funext part
  simp [splitPath_eq]

theorem splitPath_join_list (es : List String) : splitPath (Text.join "/" es) = es.flatMap splitPath := by
  induction es with
  | nil => simp [Text.join]
  | cons e es ih =>
    cases es with
    | nil => simp [Text.join]
    | cons t ts =>
      rw [Text.join_cons_cons, splitPath_append_slash, ih]
      rfl

theorem mem_splitPath_of_mem_elements {p e s : String} (he : e ∈ Path.elements p) (hs : s ∈ splitPath e) :
    s ∈ splitPath p := by
  rw [splitPath_flatMap_split, List.mem_flatMap]
  refine ⟨e, ?_, hs⟩
  rw [Path.elements] at he
  split at he
  · exact List.mem_of_mem_drop he
  · exact he

theorem mem_elements_of_mem_relativeComponents {c : Path.Component} {opening : Bool} {es : List String}
    (h : c ∈ Path.relativeComponents opening es) : c.text ∈ es := by
  induction es generalizing opening with
  | nil => simp [Path.relativeComponents] at h
  | cons e es ih =>
    rw [Path.relativeComponents, List.mem_append] at h
    rcases h with h | h
    · rw [Option.mem_toList, Path.component?] at h
      split_ifs at h
      all_goals
        obtain rfl := Option.some.inj h
        simp_all [Path.Component.text]
    · exact List.mem_cons_of_mem _ (ih h)

theorem mem_splitPath_of_mem_components {p s : String} {c : Path.Component} (hc : c ∈ Path.components p)
    (hs : s ∈ splitPath c.text) : s ∈ splitPath p := by
  rw [Path.components] at hc
  split at hc
  · rcases List.mem_cons.mp hc with rfl | hc
    · simp [Path.Component.text] at hs
    · exact mem_splitPath_of_mem_elements (mem_elements_of_mem_relativeComponents hc) hs
  · exact mem_splitPath_of_mem_elements (mem_elements_of_mem_relativeComponents hc) hs

theorem mem_splitPath_ofComponents {cs : List Path.Component} {s : String}
    (h : s ∈ splitPath (Path.ofComponents cs)) : ∃ c ∈ cs, s ∈ splitPath c.text := by
  suffices ∀ p, s ∈ splitPath (cs.foldl (fun p c => Path.join p c.text) p) →
      s ∈ splitPath p ∨ ∃ c ∈ cs, s ∈ splitPath c.text by
    simpa using this "" h
  clear h
  induction cs with
  | nil => simp
  | cons c cs ih =>
    intro p h
    rcases ih _ h with h | ⟨x, hx, hs⟩
    · rcases mem_splitPath_join h with h | h
      · exact .inl h
      · exact .inr ⟨c, List.mem_cons_self, h⟩
    · exact .inr ⟨x, List.mem_cons_of_mem _ hx, hs⟩

theorem mem_cleanStep {acc : List Path.Component} {c x : Path.Component} (h : x ∈ Path.cleanStep acc c) :
    x ∈ acc ∨ x = c := by
  unfold Path.cleanStep at h
  split at h
  · exact .inl h
  · split at h
    · exact .inr (by simpa using h)
    · simpa [or_comm] using h
    · exact .inl (List.mem_cons_of_mem _ h)
  · simpa [or_comm] using h

theorem mem_cleanComponents {cs : List Path.Component} {x : Path.Component}
    (h : x ∈ Path.cleanComponents cs) : x ∈ cs := by
  suffices ∀ acc, x ∈ cs.foldl Path.cleanStep acc → x ∈ acc ∨ x ∈ cs by
    simpa using this [] (by simpa [Path.cleanComponents] using h)
  clear h
  induction cs with
  | nil => simp
  | cons c cs ih =>
    intro acc h
    rcases ih _ h with h | h
    · rcases mem_cleanStep h with h | rfl
      · exact .inl h
      · simp
    · exact .inr (List.mem_cons_of_mem _ h)

theorem mem_splitPath_clean {p s : String} (h : s ∈ splitPath (Path.clean p)) : s ∈ splitPath p := by
  rw [Path.clean] at h
  split at h
  · simp at h
  · obtain ⟨c, hc, hs⟩ := mem_splitPath_ofComponents h
    exact mem_splitPath_of_mem_components (mem_cleanComponents hc) hs

/-! A path that never leads up has the names it had when it is cleaned. -/

theorem flatMap_relativeComponents (opening : Bool) (es : List String) :
    (Path.relativeComponents opening es).flatMap (fun c => splitPath c.text) = es.flatMap splitPath := by
  induction es generalizing opening with
  | nil => rfl
  | cons e es ih =>
    rw [Path.relativeComponents, List.flatMap_append, ih, List.flatMap_cons]
    congr 1
    rw [Path.component?]
    split_ifs with h₁ h₂ h₃ h₄
    · simp [h₁]
    · simp [h₂, Path.Component.text]
    · simp [h₂]
    · simp [h₄, Path.Component.text]
    · simp [Path.Component.text]

theorem splitPath_eq_flatMap_components (p : String) :
    splitPath p = (Path.components p).flatMap fun c => splitPath c.text := by
  rw [splitPath_flatMap_split, Path.components]
  split
  · next ha =>
    rw [List.flatMap_cons, flatMap_relativeComponents, Path.elements, if_pos ha]
    obtain ⟨r, hr⟩ : ∃ r, p.toList = '/' :: r := by
      simpa [Path.isAbsolute, List.head?_eq_some_iff] using ha
    rw [Text.split, hr, Text.splitChars, if_pos (by simp)]
    simp [Path.Component.text]
  · next ha => rw [flatMap_relativeComponents, Path.elements, if_neg ha]

theorem splitPath_ofComponents {cs : List Path.Component} (h : ∀ c ∈ cs.tail, Path.isAbsolute c.text = false) :
    splitPath (Path.ofComponents cs) = cs.flatMap fun c => splitPath c.text := by
  have hfold : ∀ (cs : List Path.Component) (p : String), (∀ c ∈ cs, Path.isAbsolute c.text = false) →
      splitPath (cs.foldl (fun p c => Path.join p c.text) p) =
        splitPath p ++ cs.flatMap fun c => splitPath c.text := by
    intro cs
    induction cs with
    | nil => simp
    | cons c cs ih =>
      intro p hc
      rw [List.foldl_cons, ih _ fun x hx => hc x (List.mem_cons_of_mem _ hx),
        splitPath_join (hc c List.mem_cons_self)]
      simp
  cases cs with
  | nil => simp [Path.ofComponents]
  | cons c cs =>
    have hj : Path.join "" c.text = c.text := by
      rw [Path.join]
      split <;> simp
    rw [Path.ofComponents, List.foldl_cons, hj, hfold cs _ h]
    rfl

theorem cleanComponents_of_not_mem_up {cs : List Path.Component} (h : .up ∉ cs) :
    Path.cleanComponents cs = cs.filter (· != .here) := by
  suffices ∀ acc, cs.foldl Path.cleanStep acc = (cs.filter (· != .here)).reverse ++ acc by
    rw [Path.cleanComponents, this]
    simp
  induction cs with
  | nil => simp
  | cons c cs ih =>
    intro acc
    rw [List.foldl_cons, ih fun hm => h (List.mem_cons_of_mem _ hm)]
    cases c with
    | up => exact absurd List.mem_cons_self h
    | here => simp [Path.cleanStep]
    | root => simp [Path.cleanStep]
    | name s => simp [Path.cleanStep]

theorem isAbsolute_of_mem_elements {p e : String} (h : e ∈ Path.elements p) : Path.isAbsolute e = false := by
  have hm : e ∈ Text.split (· == '/') p := by
    rw [Path.elements] at h
    split at h
    · exact List.mem_of_mem_drop h
    · exact h
  rw [Text.split, Text.splitChars_eq_splitOnP] at hm
  obtain ⟨part, hpart, rfl⟩ := List.mem_map.mp hm
  have hno := Text.eq_false_of_mem_splitOnP hpart
  rw [Path.isAbsolute, decide_eq_false_iff_not, String.toList_ofList]
  intro hh
  simpa using hno '/' (List.mem_of_mem_head? hh)

theorem splitPath_clean {p : String} (h : ".." ∉ splitPath p) : splitPath (Path.clean p) = splitPath p := by
  have hup : .up ∉ Path.components p := by
    intro hm
    exact h (mem_splitPath_of_mem_components hm (by decide))
  have hcs := cleanComponents_of_not_mem_up hup
  have habs : ∀ c ∈ ((Path.components p).filter (· != .here)).tail, Path.isAbsolute c.text = false := by
    intro c hc
    rw [Path.components] at hc
    split at hc
    · rw [List.filter_cons_of_pos (by decide), List.tail_cons] at hc
      exact isAbsolute_of_mem_elements (mem_elements_of_mem_relativeComponents (List.mem_filter.mp hc).1)
    · exact isAbsolute_of_mem_elements
        (mem_elements_of_mem_relativeComponents (List.mem_filter.mp (List.mem_of_mem_tail hc)).1)
  have hsplit : splitPath (Path.ofComponents ((Path.components p).filter (· != .here))) = splitPath p := by
    rw [splitPath_ofComponents habs, splitPath_eq_flatMap_components p]
    induction Path.components p with
    | nil => rfl
    | cons c cs ih =>
      rw [List.filter_cons]
      split
      · rw [List.flatMap_cons, List.flatMap_cons, ih]
      · next hc =>
        obtain rfl : c = .here := by simpa using hc
        rw [List.flatMap_cons, ih]
        simp [Path.Component.text]
  rw [Path.clean, hcs]
  split
  · next hnil => rw [← hsplit, hnil]; simp [Path.ofComponents]
  · exact hsplit

theorem mem_splitPath_parent {p q s : String} (hq : Path.parent? p = some q) (h : s ∈ splitPath q) :
    s ∈ splitPath p := by
  obtain ⟨n, -, rfl⟩ := Option.map_eq_some_iff.mp hq
  have h' : s ∈ splitPath (Text.join "/" ((Path.elements p).take n)) := by
    split at h
    · have he : ("/" : String) = "" ++ "/" := by simp
      rw [he, splitPath_append_slash] at h
      simpa using h
    · simpa using h
  rw [splitPath_join_list, List.mem_flatMap] at h'
  obtain ⟨e, he, hs⟩ := h'
  exact mem_splitPath_of_mem_elements (List.mem_of_mem_take he) hs

theorem mem_splitPath_ancestors {p q s : String} (hq : q ∈ Path.ancestors p) (h : s ∈ splitPath q) :
    s ∈ splitPath p := by
  suffices ∀ n p, q ∈ Path.ancestorsUpTo n p → s ∈ splitPath p from this _ p hq
  intro n
  induction n with
  | zero => simp [Path.ancestorsUpTo]
  | succ n ih =>
    intro p hq
    rw [Path.ancestorsUpTo] at hq
    split at hq
    · next r hr =>
      rcases List.mem_cons.mp hq with rfl | hq
      · exact mem_splitPath_parent hr h
      · exact mem_splitPath_parent hr (ih r hq)
    · simp at hq

/-! ## Plain paths -/

theorem split_join_names {ns : List String} (h : ∀ s ∈ ns, IsName s) (hne : ns ≠ []) :
    Text.split (· == '/') (Text.join "/" ns) = ns := by
  refine Text.split_join (fun s hs hmem => ?_) hne
  exact Bool.noConfusion ((h s hs).2.2 '/' hmem)

theorem isAbsolute_pathOf (ns : List String) : Path.isAbsolute (pathOf ns) = true := by
  simp [Path.isAbsolute, pathOf]

theorem elements_pathOf {ns : List String} (h : ∀ s ∈ ns, IsName s) (hne : ns ≠ []) :
    Path.elements (pathOf ns) = ns := by
  have hl : (pathOf ns).toList = '/' :: (Text.join "/" ns).toList := by simp [pathOf]
  rw [Path.elements, isAbsolute_pathOf, if_pos rfl, Text.split, hl, Text.splitChars]
  exact split_join_names h hne

end Vfs

namespace Path

open Vfs

/-- A path that is spelled by the names in it and never leads up. -/
def Plain (p : String) : Prop := p = pathOf (splitPath p) ∧ ".." ∉ splitPath p

instance (p : String) : Decidable (Plain p) := inferInstanceAs (Decidable (_ ∧ _))

theorem relativeComponents_names {ns : List String} (h : ∀ s ∈ ns, IsName s) (hup : ".." ∉ ns) :
    relativeComponents false ns = ns.map .name := by
  induction ns with
  | nil => rfl
  | cons s ns ih =>
    obtain ⟨h₁, h₂, -⟩ := h s List.mem_cons_self
    have h₃ : s ≠ ".." := fun e => hup (e ▸ List.mem_cons_self)
    have := ih (fun t ht => h t (List.mem_cons_of_mem _ ht)) fun ht => hup (List.mem_cons_of_mem _ ht)
    simp [relativeComponents, component?, h₁, h₂, h₃, this]

theorem components_pathOf {ns : List String} (h : ∀ s ∈ ns, IsName s) (hup : ".." ∉ ns) :
    components (pathOf ns) = .root :: ns.map .name := by
  rw [components, isAbsolute_pathOf, if_pos rfl]
  by_cases hne : ns = []
  · subst hne
    decide
  · rw [elements_pathOf h hne, relativeComponents_names h hup]

theorem endsWith_slash_of_isName {p s : String} (h : IsName s) : Text.endsWith (p ++ s) "/" = false := by
  obtain ⟨r, c, hr⟩ : ∃ r c, s.toList = r ++ [c] := by
    have hne : s.toList ≠ [] := by simpa using h.1
    exact ⟨_, _, (List.dropLast_append_getLast hne).symm⟩
  have hc := h.2.2 c (by simp [hr])
  have hne : ('/' == c) = false := by
    by_contra hne
    have : '/' = c := by simpa using hne
    subst this
    exact absurd hc (by decide)
  rw [Text.endsWith, String.toList_append, hr]
  have hrev : (p.toList ++ (r ++ [c])).reverse = c :: (p.toList ++ r).reverse := by simp
  have hslash : ("/" : String).toList.reverse = ['/'] := by decide
  rw [hrev, hslash, List.isPrefixOf_cons_cons, hne, Bool.false_and]

theorem isAbsolute_of_isName {s : String} (h : IsName s) : isAbsolute s = false := by
  rw [isAbsolute, decide_eq_false_iff_not]
  intro hs
  exact absurd (h.2.2 '/' (List.mem_of_mem_head? hs)) (by decide)

theorem pathOf_concat {ns : List String} (hne : ns ≠ []) (s : String) : pathOf (ns ++ [s]) = pathOf ns ++ "/" ++ s := by
  have hj : Text.join "/" (ns ++ [s]) = Text.join "/" ns ++ "/" ++ s := by
    rw [Text.join, String.intercalate_append_of_ne_nil hne (by simp)]
    simp [Text.join]
  rw [pathOf, hj, pathOf]
  simp [String.append_assoc]

theorem endsWith_slash_pathOf {ns : List String} (h : ∀ s ∈ ns, IsName s) (hne : ns ≠ []) :
    Text.endsWith (pathOf ns) "/" = false := by
  obtain ⟨pre, s, rfl⟩ : ∃ pre s, ns = pre ++ [s] := ⟨_, _, (List.dropLast_append_getLast hne).symm⟩
  have hs := h s (by simp)
  by_cases hpre : pre = []
  · have hp : pathOf (pre ++ [s]) = "/" ++ s := by simp [hpre, pathOf, Text.join]
    rw [hp]
    exact endsWith_slash_of_isName hs
  · rw [pathOf_concat hpre]
    exact endsWith_slash_of_isName hs

theorem join_pathOf {ns : List String} (h : ∀ s ∈ ns, IsName s) {s : String} (hs : IsName s) :
    join (pathOf ns) s = pathOf (ns ++ [s]) := by
  rw [join, isAbsolute_of_isName hs, if_neg (by simp)]
  by_cases hne : ns = []
  · have hslash : Text.endsWith (pathOf ns) "/" = true := by
      rw [hne]
      decide
    rw [hslash, Bool.or_true, if_pos rfl]
    simp [hne, pathOf, Text.join]
  · have hpath : pathOf ns ≠ "" := by simp [pathOf]
    rw [endsWith_slash_pathOf h hne, Bool.or_false, if_neg (by simpa using hpath), pathOf_concat hne]

theorem foldl_join_names {ns : List String} (h : ∀ s ∈ ns, IsName s) {p : String} (hp : p ≠ "")
    (hs : Text.endsWith p "/" = false) (hne : ns ≠ []) :
    (ns.map Component.name).foldl (fun p c => join p c.text) p = p ++ "/" ++ Text.join "/" ns := by
  induction ns generalizing p with
  | nil => exact absurd rfl hne
  | cons s ns ih =>
    have hn := h s List.mem_cons_self
    have hj : join p (Component.name s).text = p ++ "/" ++ s := by
      simp [join, Component.text, isAbsolute_of_isName hn, hp, hs]
    rw [List.map_cons, List.foldl_cons, hj]
    cases ns with
    | nil => simp [Text.join]
    | cons t ts =>
      have hpos : p ++ "/" ++ s ≠ "" := by simp
      rw [ih (fun u hu => h u (List.mem_cons_of_mem _ hu)) hpos (endsWith_slash_of_isName hn) (by simp),
        Text.join_cons_cons]
      simp [String.append_assoc]

theorem ofComponents_names {ns : List String} (h : ∀ s ∈ ns, IsName s) :
    ofComponents (.root :: ns.map .name) = pathOf ns := by
  have hroot : join "" Component.root.text = "/" := by decide
  rw [ofComponents, List.foldl_cons, hroot]
  cases ns with
  | nil => decide
  | cons s ns =>
    have hn := h s List.mem_cons_self
    have hj : join "/" (Component.name s).text = "/" ++ s := by
      have : Text.endsWith "/" "/" = true := by decide
      simp [join, Component.text, isAbsolute_of_isName hn, this]
    rw [List.map_cons, List.foldl_cons, hj]
    cases ns with
    | nil => simp [pathOf, Text.join]
    | cons t ts =>
      rw [foldl_join_names (fun u hu => h u (List.mem_cons_of_mem _ hu)) (by simp)
        (endsWith_slash_of_isName hn) (by simp), pathOf, Text.join_cons_cons]
      simp [String.append_assoc]

theorem cleanComponents_names (ns : List String) :
    cleanComponents (.root :: ns.map .name) = .root :: ns.map .name := by
  have h : ∀ acc, (ns.map Component.name).foldl cleanStep acc = (ns.map Component.name).reverse ++ acc := by
    induction ns with
    | nil => simp
    | cons s ns ih =>
      intro acc
      rw [List.map_cons, List.foldl_cons, cleanStep, ih] <;> simp
  rw [cleanComponents, List.foldl_cons, cleanStep, h] <;> simp

namespace Plain

variable {p q : String}

theorem components_eq (h : Plain p) : components p = .root :: (splitPath p).map .name := by
  conv_lhs => rw [h.1]
  exact components_pathOf (fun s hs => isName_of_mem_splitPath hs) h.2

theorem normal_eq (h : Plain p) : normal p = p := by
  rw [normal, h.components_eq, ofComponents_names fun s hs => isName_of_mem_splitPath hs, ← h.1]

theorem clean_eq (h : Plain p) : clean p = p := by
  rw [clean, h.components_eq, cleanComponents_names]
  exact (ofComponents_names fun s hs => isName_of_mem_splitPath hs).trans h.1.symm

theorem isAbsolute_eq (h : Plain p) : isAbsolute p = true := by
  rw [h.1]
  exact isAbsolute_pathOf _

theorem join_eq (h : Plain p) (base : String) : join base p = p := by rw [join, h.isAbsolute_eq, if_pos rfl]

theorem same_iff (hp : Plain p) (hq : Plain q) : same p q = true ↔ p = q := by
  refine ⟨fun h => ?_, fun h => by simp [same, h]⟩
  rw [same, beq_iff_eq] at h
  rw [← hp.normal_eq, ← hq.normal_eq, normal, normal, h]

end Plain
end Path
end EditorAgent

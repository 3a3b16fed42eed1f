import EditorAgent.Proofs.Path.Normal
import Mathlib.Data.List.Induction
import Mathlib.Data.List.Infix

/-!
# Clean paths and what lies below them

A clean path opens with the root or nothing and at most one step up, and goes on with names. Cleaning it
again changes nothing, and names that are appended to a path stay at its end when it is cleaned. A path
lies within another if, both clean, it goes on with names where the other ends.
-/

namespace EditorAgent.Path

open Vfs

/-! ## Clean components -/

/-- What a clean path may open with. -/
def openings : List (List Component) := [[], [.up], [.root], [.root, .up]]

/-- An opening that names follow. -/
def IsClean (cs : List Component) : Prop := ∃ base ∈ openings, ∃ ns : List String, cs = base ++ ns.map .name

theorem foldl_cleanStep_names (ns : List String) (acc : List Component) :
    (ns.map Component.name).foldl cleanStep acc = (ns.map Component.name).reverse ++ acc := by
  induction ns generalizing acc with
  | nil => simp
  | cons s ns ih => simp [cleanStep, ih]

theorem cleanComponents_append_names (cs : List Component) (ns : List String) :
    cleanComponents (cs ++ ns.map .name) = cleanComponents cs ++ ns.map .name := by
  rw [cleanComponents, List.foldl_append, foldl_cleanStep_names, List.reverse_append, List.reverse_reverse]
  rfl

theorem IsClean.cleanComponents_eq {cs : List Component} (h : IsClean cs) : cleanComponents cs = cs := by
  obtain ⟨base, hbase, ns, rfl⟩ := h
  have hfixed : cleanComponents base = base := by
    revert base
    decide
  rw [cleanComponents_append_names, hfixed]

/-- A step keeps what is clean so far clean. -/
theorem IsClean.cleanStep {acc : List Component} (h : IsClean acc.reverse) {c : Component} (hc : c ≠ .root) :
    IsClean (Path.cleanStep acc c).reverse := by
  obtain ⟨base, hbase, ns, hacc⟩ := h
  have hrev : acc = (ns.map Component.name).reverse ++ base.reverse := by
    rw [← List.reverse_append, ← hacc, List.reverse_reverse]
  cases c with
  | root => exact absurd rfl hc
  | here => exact ⟨base, hbase, ns, hacc⟩
  | name s => exact ⟨base, hbase, ns ++ [s], by simp [Path.cleanStep, hacc]⟩
  | up =>
    rcases List.eq_nil_or_concat ns with rfl | ⟨front, s, rfl⟩
    · -- Nothing but the opening is there to take back.
      obtain rfl : acc = base.reverse := by simpa using hrev
      clear hacc hrev
      have hopen : ∀ base ∈ openings, (Path.cleanStep base.reverse .up).reverse ∈ openings := by decide
      exact ⟨_, hopen base hbase, [], by simp⟩
    · refine ⟨base, hbase, front, ?_⟩
      rw [hrev]
      simp [Path.cleanStep]

theorem IsClean.foldl_cleanStep {cs acc : List Component} (h : IsClean acc.reverse) (hcs : .root ∉ cs) :
    IsClean (cs.foldl Path.cleanStep acc).reverse := by
  induction cs generalizing acc with
  | nil => exact h
  | cons c cs ih =>
    exact ih (h.cleanStep fun hc => hcs (hc ▸ List.mem_cons_self)) fun hm => hcs (List.mem_cons_of_mem _ hm)

theorem ne_root_of_component? {opening : Bool} {e : String} {c : Component} (h : component? opening e = some c) :
    c ≠ .root := by
  unfold component? at h
  split_ifs at h <;> cases h <;> simp

theorem root_not_mem_relativeComponents (opening : Bool) (es : List String) :
    .root ∉ relativeComponents opening es := by
  induction es generalizing opening with
  | nil => simp [relativeComponents]
  | cons e es ih =>
    rw [relativeComponents, List.mem_append, Option.mem_toList]
    rintro (h | h)
    · exact ne_root_of_component? h rfl
    · exact ih false h

theorem isClean_cleanComponents (p : String) : IsClean (cleanComponents (components p)) := by
  rw [cleanComponents, components]
  split
  · rw [List.foldl_cons]
    have hroot : IsClean [Component.root].reverse := ⟨[.root], by decide, [], by decide⟩
    exact hroot.foldl_cleanStep (root_not_mem_relativeComponents _ _)
  · have hnil : IsClean ([] : List Component).reverse := ⟨[], by decide, [], by decide⟩
    exact hnil.foldl_cleanStep (root_not_mem_relativeComponents _ _)

/-! ## Clean paths -/

theorem isElement_of_mem_components {p : String} {c : Component} (h : c ∈ components p) (hroot : c ≠ .root)
    (hhere : c ≠ .here) : IsElement c := by
  have hrelative : ∀ opening es, (∀ e ∈ es, ∀ x ∈ e.toList, (x == '/') = false) →
      c ∈ relativeComponents opening es → IsElement c := by
    intro opening es hes hc
    cases es with
    | nil => simp [relativeComponents] at hc
    | cons e es =>
      rw [relativeComponents, List.mem_append, Option.mem_toList] at hc
      rcases hc with hc | hc
      · have htext := text_of_component? hc
        refine ⟨?_, htext ▸ hes e List.mem_cons_self⟩
        rw [htext]
        unfold component? at hc ⊢
        split_ifs at hc ⊢ <;> simp_all
      · exact isElement_of_mem (fun e he => hes e (List.mem_cons_of_mem _ he)) hc
  rw [components] at h
  split at h
  · rcases List.mem_cons.mp h with rfl | h
    · exact absurd rfl hroot
    · exact hrelative _ _ (fun e => not_slash_of_mem_elements) h
  · exact hrelative _ _ (fun e => not_slash_of_mem_elements) h

theorem components_ofComponents_elements {cs : List Component} (h : ∀ c ∈ cs, IsElement c) :
    components (ofComponents cs) = cs := by
  cases cs with
  | nil => decide
  | cons c cs =>
    have hc := h c List.mem_cons_self
    exact components_ofComponents hc.opening hc.2 fun x hx => h x (List.mem_cons_of_mem _ hx)

theorem components_ofComponents_root {cs : List Component} (h : ∀ c ∈ cs, IsElement c) :
    components (ofComponents (.root :: cs)) = .root :: cs := by
  have hroot : join "" Component.root.text = "/" := by decide
  have hslash : components "/" = [.root] := by decide
  rw [ofComponents, List.foldl_cons, hroot, components_foldl h (by decide), hslash]
  rfl

/-- What is left of a path that is cleaned are elements, but for the root. -/
theorem isElement_of_mem_cleanComponents {p : String} {c : Component} (h : c ∈ cleanComponents (components p))
    (hroot : c ≠ .root) : IsElement c := by
  refine isElement_of_mem_components (mem_cleanComponents h) hroot ?_
  rintro rfl
  obtain ⟨base, hbase, ns, hcs⟩ := isClean_cleanComponents p
  rw [hcs, List.mem_append] at h
  rcases h with h | h
  · have hopen : ∀ base ∈ openings, .here ∉ base := by decide
    exact hopen base hbase h
  · simp at h

theorem components_ofComponents_clean (p : String) :
    components (ofComponents (cleanComponents (components p))) = cleanComponents (components p) := by
  obtain ⟨base, hbase, ns, hcs⟩ := isClean_cleanComponents p
  have helement : ∀ c ∈ base ++ ns.map .name, c ≠ .root → IsElement c := fun c hc =>
    isElement_of_mem_cleanComponents (hcs ▸ hc)
  have hopen : ∀ base ∈ openings, .root ∉ base ∨ base.head? = some .root ∧ .root ∉ base.tail := by decide
  rw [hcs]
  rcases hopen base hbase with hroot | ⟨hhead, htail⟩
  · exact components_ofComponents_elements fun c hc => helement c hc fun h => by subst h; simp [hroot] at hc
  · obtain ⟨rest, rfl⟩ : ∃ rest, base = .root :: rest := List.head?_eq_some_iff.mp hhead
    rw [List.cons_append] at helement ⊢
    refine components_ofComponents_root fun c hc => helement c (List.mem_cons_of_mem _ hc) fun h => ?_
    subst h
    rcases List.mem_append.mp hc with hc | hc
    · exact htail hc
    · simp at hc

theorem cleanComponents_clean (p : String) :
    cleanComponents (components (clean p)) = cleanComponents (components p) := by
  rw [clean]
  split
  · next h =>
    rw [h]
    decide
  · rw [components_ofComponents_clean, (isClean_cleanComponents p).cleanComponents_eq]

theorem clean_clean (p : String) : clean (clean p) = clean p := by
  rw [clean, cleanComponents_clean]
  rfl

/-! ## Clean paths as a tree spells them -/

theorem getLast?_foldl_cleanStep {cs acc : List Component} (h : acc.getLast? = some .root) (hcs : .root ∉ cs) :
    (cs.foldl cleanStep acc).getLast? = some .root := by
  induction cs generalizing acc with
  | nil => exact h
  | cons c cs ih =>
    refine ih ?_ fun hm => hcs (List.mem_cons_of_mem _ hm)
    obtain ⟨x, rest, rfl⟩ : ∃ x rest, acc = x :: rest := by
      cases acc with
      | nil => cases h
      | cons x rest => exact ⟨x, rest, rfl⟩
    cases c with
    | root => exact absurd List.mem_cons_self hcs
    | here => exact h
    | name s => simpa [cleanStep] using h
    | up =>
      cases rest with
      | nil =>
        obtain rfl : x = .root := by simpa using h
        rfl
      | cons y rest => simpa [cleanStep] using h

/-- A clean absolute path opens with the root. -/
theorem cleanComponents_absolute {p : String} (habs : isAbsolute p = true) :
    ∃ ns : List String, cleanComponents (components p) = .root :: ns.map .name ∨
      cleanComponents (components p) = .root :: .up :: ns.map .name := by
  have hhead : (cleanComponents (components p)).head? = some .root := by
    rw [cleanComponents, List.head?_reverse, components, if_pos habs, List.foldl_cons]
    exact getLast?_foldl_cleanStep rfl (root_not_mem_relativeComponents _ _)
  obtain ⟨base, hbase, ns, hcs⟩ := isClean_cleanComponents p
  rw [hcs] at hhead ⊢
  have hname : (ns.map Component.name).head? ≠ some .root := by cases ns <;> simp
  refine ⟨ns, ?_⟩
  simp only [openings, List.mem_cons, List.not_mem_nil, or_false] at hbase
  rcases hbase with rfl | rfl | rfl | rfl
  · exact absurd hhead hname
  · cases hhead
  · exact .inl rfl
  · exact .inr rfl

theorem isName_of_mem_components {p s : String} (hback : '\\' ∉ p.toList) (hs : .name s ∈ components p) : IsName s := by
  obtain ⟨hcomponent, hslash⟩ := isElement_of_mem_components hs (by simp) (by simp)
  have hchars : ∀ c ∈ s.toList, c ∈ p.toList := by
    intro c hc
    have helement : s ∈ elements p := by
      rw [components] at hs
      split at hs
      · exact mem_elements_of_mem_relativeComponents (c := .name s) (by simpa using hs)
      · exact mem_elements_of_mem_relativeComponents hs
    have hmem : s ∈ Text.split (· == '/') p := by
      rw [elements] at helement
      split at helement
      · exact List.mem_of_mem_drop helement
      · exact helement
    rw [Text.split, Text.splitChars_eq_splitOnP] at hmem
    obtain ⟨part, hpart, rfl⟩ := List.mem_map.mp hmem
    exact Text.mem_of_mem_splitOnP hpart (by simpa using hc)
  refine ⟨?_, ?_, fun c hc => ?_⟩
  · rintro rfl
    simp [component?, Component.text] at hcomponent
  · rintro rfl
    simp [component?, Component.text] at hcomponent
  · have hne : c ≠ '\\' := fun heq => hback (heq ▸ hchars c hc)
    simpa [isSlash, hne] using hslash c hc

/-- A clean absolute path is spelled by the names that a tree reads off it, if none of them holds the other slash. -/
theorem clean_eq_pathOf {p : String} (habs : isAbsolute p = true) (hback : '\\' ∉ p.toList) :
    clean p = pathOf (splitPath (clean p)) := by
  obtain ⟨ns, hclean⟩ := cleanComponents_absolute habs
  have hnames : ∀ s ∈ ns, IsName s := by
    intro s hs
    refine isName_of_mem_components hback (mem_cleanComponents ?_)
    rcases hclean with hclean | hclean <;> rw [hclean] <;> simp [hs]
  obtain ⟨ms, hms, hpath⟩ : ∃ ms, (∀ s ∈ ms, IsName s) ∧ clean p = pathOf ms := by
    rcases hclean with hclean | hclean
    · exact ⟨ns, hnames, by rw [clean, hclean]; exact ofComponents_names hnames⟩
    · have hup : ∀ s ∈ ".." :: ns, IsName s := fun s hs => by
        rcases List.mem_cons.mp hs with rfl | hs
        · decide
        · exact hnames s hs
      exact ⟨".." :: ns, hup, by rw [clean, hclean]; exact ofComponents_names hup⟩
  rw [hpath, splitPath_pathOf hms]

/-! ## What lies below a path -/

/-- A path that, clean, is another with names appended. -/
def Within (base p : String) : Prop :=
  ∃ ns : List String, cleanComponents (components p) = cleanComponents (components base) ++ ns.map .name

theorem Within.refl (p : String) : Within p p := ⟨[], by simp⟩

theorem Within.trans {p q r : String} (h : Within p q) (h' : Within q r) : Within p r := by
  obtain ⟨ns, hns⟩ := h
  obtain ⟨ms, hms⟩ := h'
  exact ⟨ns ++ ms, by rw [hms, hns]; simp⟩

theorem Within.clean {base p : String} (h : Within base p) : Within base (Path.clean p) := by
  obtain ⟨ns, hns⟩ := h
  exact ⟨ns, by rw [cleanComponents_clean, hns]⟩

/-- An element that leads nowhere or to a name. -/
def LeadsDown (q : String) : Prop := isAbsolute q = false ∧ ".." ∉ Text.split (· == '/') q

instance (q : String) : Decidable (LeadsDown q) := inferInstanceAs (Decidable (_ ∧ _))

theorem mem_split_dropWhile {e : String} {s : List Char}
    (h : e ∈ Text.split (· == '/') (String.ofList (s.dropWhile (· == '/')))) :
    e ∈ Text.split (· == '/') (String.ofList s) := by
  induction s with
  | nil => exact h
  | cons c r ih =>
    by_cases hc : c = '/'
    · rw [List.dropWhile_cons_of_pos (by simp [hc])] at h
      have hslash : Text.split (· == '/') (String.ofList (c :: r)) = "" :: Text.split (· == '/') (String.ofList r) := by
        simp [Text.split, Text.splitChars, hc]
      rw [hslash]
      exact List.mem_cons_of_mem _ (ih h)
    · rwa [List.dropWhile_cons_of_neg (by simp [hc])] at h

/-- The rest of a path that leads down leads down, without the slashes before it. -/
theorem LeadsDown.rest {p t : String} (h : LeadsDown (p ++ t)) (ht : IsRest t) :
    LeadsDown (String.ofList (t.toList.dropWhile (· == '/'))) := by
  constructor
  · have hhead := List.head?_dropWhile_not (· == '/') t.toList
    rw [isAbsolute, String.toList_ofList]
    cases hd : (t.toList.dropWhile (· == '/')).head? with
    | none => rfl
    | some c => simpa [hd] using hhead
  · intro hup
    have hmem : ".." ∈ Text.split (· == '/') t := by simpa using mem_split_dropWhile hup
    rcases ht with rfl | ht
    · revert hmem
      decide
    · obtain ⟨u, rfl⟩ : ∃ u, t = "/" ++ u := ⟨_, Text.after?_eq (p := "/") (by rw [Text.after?, if_pos ht])⟩
      refine h.2 ?_
      rw [← String.append_assoc, split_append_slash]
      have hslash : Text.split (· == '/') ("/" ++ u) = "" :: Text.split (· == '/') u := by
        simp [Text.split, Text.splitChars]
      rw [hslash] at hmem
      exact List.mem_append_right _ ((List.mem_cons.mp hmem).resolve_left (by decide))

theorem exists_names_of_not_up {es : List String} (h : ".." ∉ es) :
    ∃ ns : List String, relativeComponents false es = ns.map .name := by
  induction es with
  | nil => exact ⟨[], rfl⟩
  | cons e es ih =>
    obtain ⟨ns, hns⟩ := ih fun hm => h (List.mem_cons_of_mem _ hm)
    have he : e ≠ ".." := fun he => h (he ▸ List.mem_cons_self)
    rw [relativeComponents, hns]
    by_cases hempty : e = "" ∨ e = "."
    · refine ⟨ns, ?_⟩
      rcases hempty with rfl | rfl <;> rfl
    · rw [not_or] at hempty
      exact ⟨e :: ns, by simp [component?, hempty, he]⟩

theorem cleanComponents_relative (es : List String) :
    cleanComponents (relativeComponents true es) = cleanComponents (relativeComponents false es) := by
  cases es with
  | nil => rfl
  | cons e es =>
    rw [relativeComponents, relativeComponents]
    unfold component?
    split_ifs <;> rfl

theorem cleanComponents_join (p : String) {q : String} (hq : isAbsolute q = false) :
    cleanComponents (components (join p q)) = cleanComponents (components p ++ tailComponents q) := by
  by_cases hp : p = ""
  · subst hp
    have hnil : components "" = [] := by decide
    have hjoin : join "" q = q := by simp [join, hq]
    rw [hjoin, hnil, List.nil_append, components, hq, if_neg (by simp), elements, hq, if_neg (by simp),
      cleanComponents_relative]
    rfl
  · rw [components_join hp hq]

theorem within_join (p : String) {q : String} (hq : LeadsDown q) : Within p (join p q) := by
  obtain ⟨ns, hns⟩ := exists_names_of_not_up hq.2
  refine ⟨ns, ?_⟩
  rw [cleanComponents_join p hq.1, tailComponents, hns, cleanComponents_append_names]

/-! ## Going up -/

section Ancestors

variable {ns : List String}

theorem parent?_pathOf_nil : parent? (pathOf []) = none := by decide

theorem parent?_pathOf_concat (h : ∀ s ∈ ns, IsName s) {s : String} (hs : IsName s) :
    parent? (pathOf (ns ++ [s])) = some (pathOf ns) := by
  have hall : ∀ t ∈ ns ++ [s], IsName t := by simpa [or_imp, forall_and] using ⟨h, hs⟩
  have helements := elements_pathOf hall (by simp)
  have hcomponent : ∀ i ∈ List.range (ns ++ [s]).length,
      (component? (i == 0 && !isAbsolute (pathOf (ns ++ [s]))) ((ns ++ [s]).getD i "")).isSome = true := by
    intro i hi
    rw [List.mem_range] at hi
    obtain ⟨h₁, h₂, -⟩ := hall _ (List.getElem_mem hi)
    rw [List.getD_eq_getElem?_getD, List.getElem?_eq_getElem hi, Option.getD_some, isAbsolute_pathOf, component?,
      if_neg h₁, if_neg h₂]
    split_ifs <;> rfl
  have hcut : parentElements (pathOf (ns ++ [s])) = some ns.length := by
    rw [parentElements, helements, List.filter_eq_self.mpr hcomponent, List.length_append, List.length_singleton,
      List.range_succ, List.reverse_append, List.reverse_singleton, List.singleton_append]
    cases hlen : ns.length with
    | zero => rfl
    | succ n => rw [List.range_succ, List.reverse_append]; rfl
  rw [parent?, hcut, Option.map_some, isAbsolute_pathOf, helements, List.take_left]
  rfl

theorem plain_pathOf (h : ∀ s ∈ ns, IsName s) (hup : ".." ∉ ns) : Plain (pathOf ns) := by
  rw [Plain, splitPath_pathOf h]
  exact ⟨rfl, hup⟩

namespace Plain

variable {p name : String}

theorem parent?_eq (hp : Plain p) (h : splitPath p = ns ++ [name]) : parent? p = some (pathOf ns) := by
  have hnames : ∀ s ∈ ns ++ [name], IsName s := fun s hs => isName_of_mem_splitPath (h ▸ hs)
  rw [hp.1, h]
  exact parent?_pathOf_concat (fun s hs => hnames s (by simp [hs])) (hnames name (by simp))

theorem fileName?_eq (hp : Plain p) (h : splitPath p = ns ++ [name]) : fileName? p = some name := by
  rw [fileName?, hp.components_eq, h, List.map_append, List.map_singleton, ← List.cons_append, List.getLast?_concat]

end Plain

theorem ancestorsUpTo_pathOf (h : ∀ s ∈ ns, IsName s) {n : Nat} (hn : ns.length ≤ n) :
    ancestorsUpTo n (pathOf ns) = ns.inits.dropLast.reverse.map pathOf := by
  induction ns using List.reverseRecOn generalizing n with
  | nil =>
    cases n with
    | zero => rfl
    | succ n => simp [ancestorsUpTo, parent?_pathOf_nil]
  | append_singleton ns s ih =>
    obtain ⟨hns, hs⟩ : (∀ t ∈ ns, IsName t) ∧ IsName s := by simpa [or_imp, forall_and] using h
    obtain ⟨n, rfl⟩ : ∃ k, n = k + 1 := Nat.exists_eq_add_one.mpr (by simp at hn; omega)
    have hinits : (ns ++ [s]).inits.dropLast = ns.inits := by simp [List.inits_append]
    have hnear : ns.inits.reverse = ns :: ns.inits.dropLast.reverse := by
      rcases List.eq_nil_or_concat ns with rfl | ⟨front, t, rfl⟩
      · rfl
      · simp [List.inits_append]
    rw [ancestorsUpTo, parent?_pathOf_concat hns hs]
    simp only
    rw [ih hns (by simpa using hn), hinits, hnear, List.map_cons]

/-- The paths above a place, the nearest first. -/
theorem ancestors_pathOf (h : ∀ s ∈ ns, IsName s) : ancestors (pathOf ns) = ns.inits.dropLast.reverse.map pathOf := by
  have hlength : ∀ {es : List String}, (∀ s ∈ es, IsName s) → (relativeComponents false es).length = es.length := by
    intro es hes
    induction es with
    | nil => rfl
    | cons e es ih =>
      obtain ⟨h₁, h₂, -⟩ := hes e List.mem_cons_self
      have := ih fun s hs => hes s (List.mem_cons_of_mem _ hs)
      rw [relativeComponents, component?, if_neg h₁, if_neg h₂]
      split_ifs <;> simp [this]
  refine ancestorsUpTo_pathOf h ?_
  rw [components, isAbsolute_pathOf, if_pos rfl]
  by_cases hne : ns = []
  · simp [hne]
  · rw [elements_pathOf h hne, List.length_cons, hlength h]
    omega

end Ancestors
end EditorAgent.Path

import EditorAgent.Proofs.Path.Segments
import EditorAgent.Proofs.Path.Locations

/-!
# How clean paths are spelled

A clean path is `.` or an opening that names follow, with one slash between two of them. The opening is a root or
nothing, and then at most one step up. An absolute path that never leads above the root is cleaned to the names that
are on the stack at its end, and no step up is left.
-/

namespace EditorAgent.Path

open Vfs

/-! ## The texts of components -/

section Spelling

variable {c : Component} {cs : List Component} {p : String}

theorem IsElement.text_ne_empty (h : IsElement c) : c.text ≠ "" := by
  intro hempty
  have hc := h.1
  rw [hempty] at hc
  cases hc

theorem IsElement.isSegment (h : IsElement c) : IsSegment c.text := fun hslash => by
  simpa using h.2 _ hslash

theorem isSegment_of_isElement (h : ∀ c ∈ cs, IsElement c) : ∀ n ∈ cs.map Component.text, IsSegment n := by
  intro n hn
  obtain ⟨c, hc, rfl⟩ := List.mem_map.mp hn
  exact (h c hc).isSegment

theorem endsWith_slash_append_of_isElement (h : IsElement c) (p : String) : Text.endsWith (p ++ c.text) "/" = false := by
  have hne : c.text.toList ≠ [] := by simpa using h.text_ne_empty
  obtain ⟨front, x, hx⟩ : ∃ front x, c.text.toList = front ++ [x] := ⟨_, _, (List.dropLast_concat_getLast hne).symm⟩
  have hslash : ('/' == x) = false := by
    rw [beq_eq_false_iff_ne]
    rintro rfl
    exact h.isSegment (by simp [hx])
  simp [Text.endsWith, hx, List.isPrefixOf, hslash]

/-- Elements that are put after a path stand after a slash each. -/
theorem foldl_join_eq_trail (h : ∀ c ∈ cs, IsElement c) (hp : p ≠ "") (hend : Text.endsWith p "/" = false) :
    cs.foldl (fun p c => join p c.text) p = p ++ trail (cs.map Component.text) := by
  induction cs generalizing p with
  | nil => simp
  | cons c cs ih =>
    rw [List.forall_mem_cons] at h
    have hjoin : join p c.text = p ++ "/" ++ c.text := by
      simp [join, isAbsolute_of_not_slash h.1.2, hp, hend]
    rw [List.foldl_cons, hjoin, ih h.2 (by simp) (endsWith_slash_append_of_isElement h.1 _), List.map_cons, trail_cons]
    simp [String.append_assoc]

theorem ofComponents_eq_trail (hc : IsElement c) (hcs : ∀ c ∈ cs, IsElement c) :
    ofComponents (c :: cs) = c.text ++ trail (cs.map Component.text) := by
  have hjoin : join "" c.text = c.text := by simp [join]
  have hend := endsWith_slash_append_of_isElement hc ""
  rw [String.empty_append] at hend
  rw [ofComponents, List.foldl_cons, hjoin, foldl_join_eq_trail hcs hc.text_ne_empty hend]

theorem ofComponents_root_eq_trail (h : ∀ c ∈ cs, IsElement c) (hne : cs ≠ []) :
    ofComponents (.root :: cs) = trail (cs.map Component.text) := by
  obtain ⟨c, cs, rfl⟩ := List.exists_cons_of_ne_nil hne
  rw [List.forall_mem_cons] at h
  have hroot : join "" Component.root.text = "/" := by decide
  have hslash : Text.endsWith "/" "/" = true := by decide
  have hjoin : join "/" c.text = "/" ++ c.text := by simp [join, isAbsolute_of_not_slash h.1.2, hslash]
  rw [ofComponents, List.foldl_cons, hroot, List.foldl_cons, hjoin,
    foldl_join_eq_trail h.2 (by simp) (endsWith_slash_append_of_isElement h.1 _), List.map_cons, trail_cons]

theorem isAbsolute_ofComponents (hc : IsElement c) (hcs : ∀ c ∈ cs, IsElement c) :
    isAbsolute (ofComponents (c :: cs)) = false := by
  rw [ofComponents_eq_trail hc hcs, isAbsolute_append hc.text_ne_empty, isAbsolute_of_not_slash hc.2]

theorem elements_ofComponents (hc : IsElement c) (hcs : ∀ c ∈ cs, IsElement c) :
    elements (ofComponents (c :: cs)) = (c :: cs).map Component.text := by
  rw [elements, isAbsolute_ofComponents hc hcs, if_neg (by simp), ofComponents_eq_trail hc hcs,
    split_trail hc.isSegment (isSegment_of_isElement hcs), List.map_cons]

theorem elements_ofComponents_root (h : ∀ c ∈ cs, IsElement c) (hne : cs ≠ []) :
    elements (ofComponents (.root :: cs)) = cs.map Component.text := by
  have habs : isAbsolute (trail (cs.map Component.text)) = true := by
    obtain ⟨c, cs, rfl⟩ := List.exists_cons_of_ne_nil hne
    simp [isAbsolute, trail_cons]
  have hsplit := split_trail (w := "") (by decide) (isSegment_of_isElement h)
  rw [String.empty_append] at hsplit
  rw [ofComponents_root_eq_trail h hne, elements, habs, if_pos rfl, hsplit]
  rfl

end Spelling

/-! ## The opening and the names -/

theorem IsElement.not_special {s : String} (h : IsElement (.name s)) : s ∉ ["", ".", ".."] := by
  intro hs
  simp only [List.mem_cons, List.not_mem_nil, or_false] at hs
  rcases hs with rfl | rfl | rfl <;> cases h.1

/-- A clean path that is not `.` has the names after its opening for elements, and `..` before them if it leads up. The
root alone has one empty element. -/
theorem elements_clean (p : String) :
    clean p = "." ∨ ∃ ns : List String, (∀ n ∈ ns, n ∉ ["", ".", ".."]) ∧
      (elements (clean p) = ns ∨ elements (clean p) = ".." :: ns ∨ elements (clean p) = [""]) := by
  obtain ⟨base, hbase, ns, hcs⟩ := isClean_cleanComponents p
  have helement : ∀ c ∈ base ++ ns.map .name, c ≠ .root → IsElement c := fun c hc =>
    isElement_of_mem_cleanComponents (hcs ▸ hc)
  have hname : ∀ n ∈ ns, IsElement (.name n) := fun n hn => helement _ (by simp [hn]) (by simp)
  have hnames : ∀ c ∈ ns.map Component.name, IsElement c := by simpa using hname
  have htexts : (ns.map Component.name).map Component.text = ns := by simp [Component.text, Function.comp_def]
  have hplain : ∀ n ∈ ns, n ∉ ["", ".", ".."] := fun n hn => IsElement.not_special (hname n hn)
  have hup : IsElement .up := by
    refine ⟨rfl, ?_⟩
    simp [Component.text]
  simp only [openings, List.mem_cons, List.not_mem_nil, or_false] at hbase
  rw [clean, hcs]
  rcases hbase with rfl | rfl | rfl | rfl
  · cases ns with
    | nil => exact .inl rfl
    | cons n ns =>
      refine .inr ⟨n :: ns, hplain, .inl ?_⟩
      rw [List.map_cons, List.forall_mem_cons] at hnames
      exact (elements_ofComponents hnames.1 hnames.2).trans htexts
  · refine .inr ⟨ns, hplain, .inr (.inl ?_)⟩
    exact (elements_ofComponents hup hnames).trans (congrArg _ htexts)
  · refine .inr ⟨ns, hplain, ?_⟩
    by_cases hne : ns = []
    · subst hne
      exact .inr (.inr (by decide))
    · exact .inl ((elements_ofComponents_root hnames (by simpa using hne)).trans htexts)
  · refine .inr ⟨ns, hplain, .inr (.inl ?_)⟩
    exact (elements_ofComponents_root (List.forall_mem_cons.mpr ⟨hup, hnames⟩) (by simp)).trans (congrArg _ htexts)

theorem isAbsolute_clean_eq (p : String) : isAbsolute (clean p) = isAbsolute p := by
  cases habs : isAbsolute p with
  | true => exact isAbsolute_clean habs
  | false =>
    have hroot : ∀ c ∈ cleanComponents (components p), c ≠ .root := by
      rintro c hc rfl
      have hmem := mem_cleanComponents hc
      rw [components, habs] at hmem
      exact root_not_mem_relativeComponents _ _ hmem
    have helement : ∀ c ∈ cleanComponents (components p), IsElement c := fun c hc =>
      isElement_of_mem_cleanComponents hc (hroot c hc)
    rw [clean]
    cases hcs : cleanComponents (components p) with
    | nil => decide
    | cons c cs =>
      rw [hcs, List.forall_mem_cons] at helement
      exact isAbsolute_ofComponents helement.1 helement.2

/-! ## Paths that stay below the root -/

/-- No prefix of the components has more steps up than names. -/
def StaysBelow (cs : List Component) : Prop := ∀ ds ∈ cs.inits, ds.count .up ≤ ds.countP (· matches .name _)

instance (cs : List Component) : Decidable (StaysBelow cs) := inferInstanceAs (Decidable (∀ _ ∈ _, _))

theorem StaysBelow.of_append {cs ds : List Component} (h : StaysBelow (cs ++ ds)) : StaysBelow cs := fun es hes =>
  h es ((List.mem_inits _ _).mpr (((List.mem_inits _ _).mp hes).trans (List.prefix_append cs ds)))

theorem StaysBelow.count_le {cs : List Component} (h : StaysBelow cs) : cs.count .up ≤ cs.countP (· matches .name _) :=
  h cs ((List.mem_inits _ _).mpr List.prefix_rfl)

theorem StaysBelow.of_root {cs : List Component} (h : StaysBelow (.root :: cs)) : StaysBelow cs := fun ds hds => by
  simpa using h (.root :: ds) ((List.mem_inits _ _).mpr (List.cons_prefix_cons.mpr ⟨rfl, (List.mem_inits _ _).mp hds⟩))

/-- The names that are left are as many as were not taken back, and every step up found one. -/
theorem Route.of_staysBelow {cs : List Component} (hroot : .root ∉ cs) (h : StaysBelow cs) :
    (Route.of cs).ascent = 0 ∧
      (Route.of cs).names.length + cs.count .up = cs.countP (· matches .name _) := by
  induction cs using List.reverseRecOn with
  | nil => exact ⟨rfl, rfl⟩
  | append_singleton cs c ih =>
    rw [List.mem_append, not_or, List.mem_singleton] at hroot
    obtain ⟨hascent, hcount⟩ := ih hroot.1 h.of_append
    have hle := h.count_le
    rw [List.count_append, List.countP_append] at hle ⊢
    have hof : Route.of (cs ++ [c]) = (Route.of cs).extend c := by simp [Route.of]
    rw [hof]
    cases c with
    | root => exact absurd rfl hroot.2
    | here => exact ⟨hascent, by simpa [Route.extend] using hcount⟩
    | name s => exact ⟨hascent, by simp [Route.extend]; omega⟩
    | up =>
      cases hnames : (Route.of cs).names with
      | nil =>
        -- every name before it is taken back already
        rw [hnames] at hcount
        simp at hle hcount
        omega
      | cons s names =>
        rw [hnames] at hcount
        refine ⟨by simp [Route.extend, hnames, hascent], ?_⟩
        simp [Route.extend, hnames] at hcount ⊢
        omega

theorem cleanComponents_of_staysBelow {p : String} (habs : isAbsolute p = true) (h : StaysBelow (components p)) :
    cleanComponents (components p) = .root :: (arrive [] (components p)).reverse.map .name := by
  obtain ⟨cs, hcs, hroot⟩ : ∃ cs, components p = .root :: cs ∧ .root ∉ cs := by
    rw [components, if_pos habs]
    exact ⟨_, rfl, root_not_mem_relativeComponents _ _⟩
  rw [hcs] at h ⊢
  have hascent := (Route.of_staysBelow hroot h.of_root).1
  have hbase : [Component.root] ∈ [[], [.root]] := by decide
  have hstack := Route.foldl_cleanStep_stack (r := {}) hbase hroot
  have harrive : arrive [] (.root :: cs) = (Route.of cs).names := by
    have htarget : arrive [] cs = (Route.of cs).target [] := Route.arrive_eq_target hroot
    rw [Route.target, hascent] at htarget
    exact htarget.trans (List.append_nil _)
  have hclean : cleanComponents (.root :: cs) = ((Route.of cs).parity.stack [.root]).reverse :=
    congrArg List.reverse hstack
  rw [hclean, harrive, Route.stack, Route.parity, hascent]
  simp

/-- A clean path has no `.` unless it is that, `..` at most as its first element, is absolute as the path is, and is
clean. An absolute path that stays below the root is cleaned to the names it leads down to, and no `..`. -/
theorem clean_spelling (p : String) :
    ("." ∈ elements (clean p) → clean p = ".") ∧ ".." ∉ (elements (clean p)).tail ∧
      isAbsolute (clean p) = isAbsolute p ∧ clean (clean p) = clean p ∧
      (isAbsolute p = true → StaysBelow (components p) → ".." ∉ elements (clean p) ∧
        clean p = "/" ++ Text.join "/" (arrive [] (components p)).reverse) := by
  refine ⟨?_, ?_, isAbsolute_clean_eq p, clean_clean p, ?_⟩
  · intro hdot
    rcases elements_clean p with h | ⟨ns, hns, h | h | h⟩
    · exact h
    · exact absurd (by simp) (hns "." (h ▸ hdot))
    · exact absurd (by simp) (hns "." ((List.mem_cons.mp (h ▸ hdot)).resolve_left (by decide)))
    · exact absurd (h ▸ hdot) (by decide)
  · rcases elements_clean p with h | ⟨ns, hns, h | h | h⟩
    · rw [h]
      decide
    · rw [h]
      exact fun hm => hns _ (List.mem_of_mem_tail hm) (by simp)
    · rw [h]
      exact fun hm => hns _ hm (by simp)
    · rw [h]
      decide
  · intro habs hstays
    have hcs := cleanComponents_of_staysBelow habs hstays
    have hnames : ∀ c ∈ (arrive [] (components p)).reverse.map Component.name, IsElement c := fun c hc =>
      isElement_of_mem_cleanComponents (p := p) (by rw [hcs]; exact List.mem_cons_of_mem _ hc) (by
        rintro rfl
        simp at hc)
    have htexts : ((arrive [] (components p)).reverse.map Component.name).map Component.text =
        (arrive [] (components p)).reverse := by simp [Component.text, Function.comp_def]
    rw [clean, hcs]
    by_cases hne : (arrive [] (components p)).reverse = []
    · rw [hne]
      decide
    · have hne' : (arrive [] (components p)).reverse.map Component.name ≠ [] := by simpa using hne
      refine ⟨?_, ?_⟩
      · change ".." ∉ elements (ofComponents _)
        rw [elements_ofComponents_root hnames hne', htexts]
        exact fun hm => IsElement.not_special (hnames _ (List.mem_map_of_mem hm)) (by simp)
      · change ofComponents _ = _
        rw [ofComponents_root_eq_trail hnames hne', htexts, Vfs.slash_append_join hne]

theorem clean_spelling_at : isAbsolute "/a/b/.././/c/d/.." = true ∧ StaysBelow (components "/a/b/.././/c/d/..") ∧
    ".." ∉ elements (clean "/a/b/.././/c/d/..") ∧
    clean "/a/b/.././/c/d/.." = "/" ++ Text.join "/" (arrive [] (components "/a/b/.././/c/d/..")).reverse := by
  have habs : isAbsolute "/a/b/.././/c/d/.." = true := by decide
  have hstays : StaysBelow (components "/a/b/.././/c/d/..") := by decide
  exact ⟨habs, hstays, (clean_spelling "/a/b/.././/c/d/..").2.2.2.2 habs hstays⟩

end EditorAgent.Path

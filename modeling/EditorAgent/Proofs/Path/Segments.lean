import EditorAgent.Proofs.Path.Below
import EditorAgent.Text.Search

/-!
# Paths segment by segment

A text is what precedes its first slash, and a segment after each slash. A search for a text with slashes in it finds
segments: one that is in the middle if a slash follows, the last one at the end of the text, and a run of them where the
text begins.
-/

namespace EditorAgent

namespace Text

theorem startsWith_iff_exists {s p : String} : startsWith s p = true ↔ ∃ t, s = p ++ t := by
  rw [startsWith, List.isPrefixOf_iff_prefix]
  constructor
  · rintro ⟨r, hr⟩
    exact ⟨String.ofList r, String.toList_injective (by simp [← hr])⟩
  · rintro ⟨t, rfl⟩
    exact ⟨t.toList, by simp⟩

theorem before?_eq_some_iff {s p t : String} : before? s p = some t ↔ s = t ++ p := by
  rw [before?]
  constructor
  · intro h
    split at h
    · next hends =>
      obtain rfl := Option.some.inj h
      rw [endsWith, List.isPrefixOf_iff_prefix, List.reverse_prefix] at hends
      obtain ⟨r, hr⟩ := hends
      have hlength : s.length - p.length = r.length := by
        rw [← String.length_toList, ← String.length_toList, ← hr, List.length_append, Nat.add_sub_cancel]
      exact String.toList_injective (by simp [hlength, ← hr])
    · cases h
  · rintro rfl
    have hends : endsWith (t ++ p) p = true := by
      rw [endsWith, List.isPrefixOf_iff_prefix, List.reverse_prefix]
      exact ⟨t.toList, by simp⟩
    rw [if_pos hends, String.toList_append, String.length_append, Nat.add_sub_cancel, ← String.length_toList,
      List.take_left, String.ofList_toList]

/-! ## Last occurrences -/

theorem cutLastChars_append_of_not_mem {c : Char} {p w : List Char} (h : c ∉ w) (t : List Char) :
    cutLastChars (c :: p) (w ++ t) = (cutLastChars (c :: p) t).map fun x => (w ++ x.1, x.2) := by
  induction w with
  | nil => simp
  | cons e w ih =>
    rw [List.mem_cons, not_or] at h
    have hne : (c :: p).isPrefixOf (e :: (w ++ t)) = false := by
      rw [List.isPrefixOf_cons_cons, beq_false_of_ne h.1, Bool.false_and]
    rw [List.cons_append, cutLastChars, ih h.2, hne]
    cases cutLastChars (c :: p) t <;> rfl

/-- A text is not found before the first place of the character it begins with. -/
theorem cutLast?_append_of_not_mem {c : Char} {p w : String} {q : List Char} (hp : p.toList = c :: q)
    (h : c ∉ w.toList) (t : String) : (cutLast? (w ++ t) p).map Prod.fst = ((cutLast? t p).map Prod.fst).map (w ++ ·) := by
  rw [cutLast?, cutLast?, String.toList_append, hp, cutLastChars_append_of_not_mem h]
  simp [Function.comp_def]

/-- A text that begins with a slash is found after this slash, or else here. -/
theorem cutLast?_slash (q r : String) : (cutLast? ("/" ++ r) ("/" ++ q)).map Prod.fst =
    (((cutLast? r ("/" ++ q)).map Prod.fst).map ("/" ++ ·)).or (if startsWith r q then some "" else none) := by
  have hslash : ∀ t : String, ("/" ++ t).toList = '/' :: t.toList := fun t => by simp
  have hpre : ('/' :: q.toList).isPrefixOf ('/' :: r.toList) = startsWith r q := by simp [startsWith]
  rw [cutLast?, cutLast?, hslash, hslash, cutLastChars, hpre]
  cases cutLastChars ('/' :: q.toList) r.toList with
  | some x => simp
  | none => cases startsWith r q <;> simp

end Text

namespace Path

open Vfs (trail trail_nil trail_cons trail_append)

/-! ## Segments -/

/-- What stands after each slash of a path, up to the next one. -/
def segments (p : String) : List String := (Text.split (· == '/') p).tail

/-- A text without a slash. -/
def IsSegment (s : String) : Prop := '/' ∉ s.toList

instance (s : String) : Decidable (IsSegment s) := inferInstanceAs (Decidable (¬ _))

variable {p w v x : String} {ns ms base : List String}

theorem split_of_isSegment (h : IsSegment w) : Text.split (· == '/') w = [w] := by
  have hno : ∀ c ∈ w.toList, (c == '/') = false := by
    intro c hc
    rw [beq_eq_false_iff_ne]
    rintro rfl
    exact h hc
  simp [Text.split, Text.splitChars_eq_splitOnP, List.splitOnP_eq_singleton hno]

theorem split_trail (hw : IsSegment w) (hns : ∀ n ∈ ns, IsSegment n) :
    Text.split (· == '/') (w ++ trail ns) = w :: ns := by
  induction ns generalizing w with
  | nil => simpa using split_of_isSegment hw
  | cons n ns ih =>
    rw [List.forall_mem_cons] at hns
    rw [trail_cons, String.append_assoc, ← String.append_assoc, split_append_slash, split_of_isSegment hw,
      ih hns.1 hns.2, List.singleton_append]

theorem segments_trail (hw : IsSegment w) (hns : ∀ n ∈ ns, IsSegment n) : segments (w ++ trail ns) = ns := by
  rw [segments, split_trail hw hns, List.tail_cons]

theorem exists_trail (p : String) :
    ∃ w, ∃ ns : List String, IsSegment w ∧ (∀ n ∈ ns, IsSegment n) ∧ p = w ++ trail ns := by
  suffices ∀ cs : List Char, ∃ w, ∃ ns : List String, IsSegment w ∧ (∀ n ∈ ns, IsSegment n) ∧
      String.ofList cs = w ++ trail ns by
    simpa using this p.toList
  intro cs
  induction cs with
  | nil => exact ⟨"", [], by decide, by simp, by decide⟩
  | cons c cs ih =>
    obtain ⟨w, ns, hw, hns, hcs⟩ := ih
    have hcons : String.ofList (c :: cs) = String.ofList [c] ++ (w ++ trail ns) := by
      rw [← hcs]
      exact String.toList_injective (by simp)
    by_cases hc : c = '/'
    · subst hc
      refine ⟨"", w :: ns, by decide, List.forall_mem_cons.mpr ⟨hw, hns⟩, ?_⟩
      rw [hcons, trail_cons, String.empty_append, String.append_assoc]
    · refine ⟨String.ofList [c] ++ w, ns, ?_, hns, by rw [hcons, String.append_assoc]⟩
      rw [IsSegment, String.toList_append, String.toList_ofList, List.singleton_append, List.mem_cons, not_or]
      exact ⟨fun h => hc h.symm, hw⟩

/-- A path is its segments with a slash before each, after what opens it. -/
theorem exists_eq_append_trail (p : String) :
    ∃ w, IsSegment w ∧ (∀ n ∈ segments p, IsSegment n) ∧ p = w ++ trail (segments p) := by
  obtain ⟨w, ns, hw, hns, rfl⟩ := exists_trail p
  rw [segments_trail hw hns]
  exact ⟨w, hw, hns, rfl⟩

theorem isSegment_of_mem_segments (h : x ∈ segments p) : IsSegment x :=
  have ⟨_, _, hns, _⟩ := exists_eq_append_trail p
  hns x h

/-- Nothing opens an absolute path. -/
theorem trail_segments (habs : isAbsolute p = true) : trail (segments p) = p := by
  obtain ⟨w, hw, -, hp⟩ := exists_eq_append_trail p
  have hempty : w = "" := by
    rw [isAbsolute, decide_eq_true_eq, hp, String.toList_append] at habs
    cases hc : w.toList with
    | nil => exact String.toList_eq_nil_iff.mp hc
    | cons c cs =>
      rw [hc, List.cons_append, List.head?_cons, Option.some.injEq] at habs
      exact absurd (by simp [hc, habs]) hw
  rw [hempty, String.empty_append] at hp
  exact hp.symm

theorem isAbsolute_clean (habs : isAbsolute p = true) : isAbsolute (clean p) = true := by
  have hkeeps : ∀ (cs : List Component) (q : String), isAbsolute q = true →
      isAbsolute (cs.foldl (fun q c => join q c.text) q) = true := by
    intro cs
    induction cs with
    | nil => exact fun q hq => hq
    | cons c cs ih =>
      refine fun q hq => ih _ ?_
      obtain ⟨r, hr⟩ : ∃ r, q.toList = '/' :: r := by
        rw [isAbsolute, decide_eq_true_eq, List.head?_eq_some_iff] at hq
        exact hq
      change isAbsolute (join q c.text) = true
      rw [join]
      split_ifs with hc <;> first | exact hc | simp [isAbsolute, hr]
  obtain ⟨cs, hcs⟩ : ∃ cs, cleanComponents (components p) = .root :: cs := by
    obtain ⟨ns, hns | hns⟩ := cleanComponents_absolute habs <;> exact ⟨_, hns⟩
  rw [clean, hcs]
  exact hkeeps cs (join "" Component.root.text) (by decide)

/-! ## Runs of segments -/

/-- A path begins with another and a slash if it begins with its segments and has one more. -/
theorem startsWith_trail_iff (hw : IsSegment w) (hbase : ∀ n ∈ base, IsSegment n) (hv : IsSegment v)
    (hms : ∀ n ∈ ms, IsSegment n) :
    Text.startsWith (v ++ trail ms) (w ++ trail base ++ "/") = true ↔ v = w ∧ ∃ n, base ++ [n] <+: ms := by
  rw [Text.startsWith_iff_exists]
  constructor
  · rintro ⟨t, ht⟩
    have hsplit := congrArg (Text.split (· == '/')) ht
    rw [split_append_slash, split_trail hv hms, split_trail hw hbase, List.cons_append, List.cons.injEq] at hsplit
    obtain ⟨rfl, rfl⟩ := hsplit
    obtain ⟨n, rest, hn⟩ := List.exists_cons_of_ne_nil (Text.split_ne_nil (· == '/') t)
    exact ⟨rfl, n, rest, by rw [hn, List.append_assoc, List.singleton_append]⟩
  · rintro ⟨rfl, n, rest, rfl⟩
    exact ⟨n ++ trail rest, by simp [String.append_assoc]⟩

theorem trail_eq_iff (hbase : ∀ n ∈ base, IsSegment n) (habs : isAbsolute p = true) :
    trail base = p ↔ segments p = base := by
  constructor
  · rintro rfl
    simpa using segments_trail (w := "") (by decide) hbase
  · rintro rfl
    exact trail_segments habs

/-! ## The last place of a name -/

/-- The names before the last place where a name stands. -/
def namesBefore? (x : String) : List String → Option (List String)
  | [] => none
  | n :: ns => ((namesBefore? x ns).map (n :: ·)).or (if n = x then some [] else none)

theorem namesBefore?_eq_none_iff : namesBefore? x ns = none ↔ x ∉ ns := by
  induction ns with
  | nil => simp [namesBefore?]
  | cons n ns ih =>
    rw [namesBefore?, List.mem_cons, not_or, ← ih]
    cases namesBefore? x ns <;> simp [eq_comm]

theorem exists_of_namesBefore? (h : namesBefore? x ns = some base) : ∃ rest, ns = base ++ x :: rest ∧ x ∉ rest := by
  induction ns generalizing base with
  | nil => cases h
  | cons n ns ih =>
    rw [namesBefore?] at h
    cases hns : namesBefore? x ns with
    | some before =>
      obtain rfl : n :: before = base := by simpa [hns] using h
      obtain ⟨rest, rfl, hrest⟩ := ih hns
      exact ⟨rest, rfl, hrest⟩
    | none =>
      obtain ⟨rfl, rfl⟩ : n = x ∧ [] = base := by simpa [hns] using h
      exact ⟨ns, rfl, namesBefore?_eq_none_iff.mp hns⟩

theorem namesBefore?_concat (n : String) :
    namesBefore? x (ns ++ [n]) = if n = x then some ns else namesBefore? x ns := by
  induction ns with
  | nil => simp [namesBefore?]
  | cons m ns ih =>
    rw [List.cons_append, namesBefore?, ih, namesBefore?]
    split <;> rfl

/-- A name between slashes is found at its last place before the end. -/
theorem cutLast?_trail (hx : IsSegment x) (hw : IsSegment w) (hns : ∀ n ∈ ns, IsSegment n) :
    (Text.cutLast? (w ++ trail ns) ("/" ++ x ++ "/")).map Prod.fst =
      (namesBefore? x ns.dropLast).map (w ++ trail ·) := by
  rw [String.append_assoc]
  have hopens : ("/" ++ (x ++ "/")).toList = '/' :: (x ++ "/").toList := by simp
  induction ns generalizing w with
  | nil =>
    have hnone : Text.cutLast? "" ("/" ++ (x ++ "/")) = none := by
      rw [Text.cutLast?, hopens]
      rfl
    rw [trail_nil, Text.cutLast?_append_of_not_mem hopens hw, hnone]
    rfl
  | cons n ns ih =>
    rw [List.forall_mem_cons] at hns
    have hends : Text.startsWith (n ++ trail ns) (x ++ "/") = decide (n = x ∧ ns ≠ []) := by
      have hrun := @startsWith_trail_iff x n ns [] hx (by simp) hns.1 hns.2
      rw [Bool.eq_iff_iff, decide_eq_true_eq]
      cases ns <;> simpa using hrun
    rw [trail_cons, String.append_assoc, Text.cutLast?_append_of_not_mem hopens hw, Text.cutLast?_slash,
      ih hns.1 hns.2, hends]
    cases ns with
    | nil => simp [namesBefore?]
    | cons m ms =>
      rw [List.dropLast_cons_cons, namesBefore?]
      cases namesBefore? x (m :: ms).dropLast with
      | some bs => simp [String.append_assoc]
      | none => by_cases hn : n = x <;> simp [hn]

/-- The last name is found where a slash precedes it. -/
theorem before?_trail (hx : IsSegment x) (hw : IsSegment w) (hns : ∀ n ∈ ns, IsSegment n) :
    Text.before? (w ++ trail ns) ("/" ++ x) =
      if ns.getLast? = some x then some (w ++ trail ns.dropLast) else none := by
  ext t
  rw [Text.before?_eq_some_iff, ← String.append_assoc]
  constructor
  · intro ht
    have hsplit := congrArg (Text.split (· == '/')) ht
    rw [split_append_slash, split_trail hw hns, split_of_isSegment hx] at hsplit
    obtain ⟨v, init, hinit⟩ := List.exists_cons_of_ne_nil (Text.split_ne_nil (· == '/') t)
    rw [hinit, List.cons_append, List.cons.injEq] at hsplit
    obtain ⟨rfl, rfl⟩ := hsplit
    rw [if_pos List.getLast?_concat, List.dropLast_concat]
    have hcut : w ++ trail init ++ ("/" ++ x) = t ++ ("/" ++ x) := by
      simpa [String.append_assoc] using ht
    exact congrArg some ((String.append_left_inj _).mp hcut)
  · intro ht
    split at ht
    · next hlast =>
      obtain rfl := Option.some.inj ht
      obtain ⟨init, rfl⟩ := List.getLast?_eq_some_iff.mp hlast
      simp [String.append_assoc]
    · cases ht

end Path
end EditorAgent

import EditorAgent.Proofs.Text.Repair
import EditorAgent.Store.View
import Mathlib.Data.List.DropRight
import Mathlib.Data.Prod.Lex

/-!
# Cursors

A cursor is told as a character index, as a byte offset, or as a row and a column. In a text the three agree:
the offset of an index is the length of what stands before it, its row counts the line feeds there, its
column the characters since the last of them, and later indices have later rows and columns.
-/

namespace EditorAgent.View

open String (utf8EncodeChar)

section Offsets

theorem opensChar_ofNat : ∀ n < 256, opensChar (UInt8.ofNat n) = decide (n < 0x80 ∨ 0xC0 ≤ n) := by
  decide +kernel

theorem opensChar_lead {n : Nat} (hn : n < 0x80 ∨ 0xC0 ≤ n ∧ n < 256) : opensChar (UInt8.ofNat n) = true := by
  rw [opensChar_ofNat n (by omega), decide_eq_true_iff]
  omega

theorem opensChar_later {n : Nat} (hlo : 0x80 ≤ n) (hhi : n < 0xC0) : opensChar (UInt8.ofNat n) = false := by
  rw [opensChar_ofNat n (by omega), decide_eq_false_iff_not]
  omega

/-- Of the bytes of a character just the first opens it. -/
theorem exists_opening (c : Char) :
    ∃ b t, utf8EncodeChar c = b :: t ∧ opensChar b = true ∧ ∀ x ∈ t, opensChar x = false := by
  have hvalid : c.toNat < 0xD800 ∨ 0xDFFF < c.toNat ∧ c.toNat < 0x110000 := c.valid
  unfold utf8EncodeChar
  rw [show c.val.toNat = c.toNat from rfl]
  generalize c.toNat = v at hvalid
  dsimp only
  split_ifs
  all_goals
    refine ⟨_, _, rfl, opensChar_lead (by omega), ?_⟩
    simp (disch := omega) only [List.mem_cons, List.not_mem_nil, or_false, forall_eq_or_imp, forall_eq, opensChar_later,
      IsEmpty.forall_iff, implies_true, and_self]

theorem bytePos_append {t : Bytes} (ht : ∀ x ∈ t, opensChar x = false) (r : Bytes) (k : Nat) :
    bytePos (t ++ r) k = t.length + bytePos r k := by
  induction t with
  | nil => simp
  | cons b t ih =>
    obtain ⟨hb, ht⟩ := List.forall_mem_cons.mp ht
    rw [List.cons_append, bytePos.eq_def]
    dsimp only
    rw [if_neg (by simp [hb]), ih ht, List.length_cons]
    omega

theorem bytePos_zero (c : Char) (r : Bytes) : bytePos (utf8EncodeChar c ++ r) 0 = 0 := by
  obtain ⟨b, t, hc, hb, -⟩ := exists_opening c
  rw [hc, List.cons_append, bytePos, if_pos hb]

theorem bytePos_succ (c : Char) (r : Bytes) (k : Nat) :
    bytePos (utf8EncodeChar c ++ r) (k + 1) = (utf8EncodeChar c).length + bytePos r k := by
  obtain ⟨b, t, hc, hb, ht⟩ := exists_opening c
  rw [hc, List.cons_append, bytePos, if_pos hb, bytePos_append ht, List.length_cons]
  omega

/-- The offset of a character is the length of the characters before it. -/
theorem bytePos_flatMap (cs : List Char) (k : Nat) :
    bytePos (cs.flatMap utf8EncodeChar) k = ((cs.take k).flatMap utf8EncodeChar).length := by
  induction cs generalizing k with
  | nil => simp [bytePos]
  | cons c cs ih =>
    cases k with
    | zero => rw [List.flatMap_cons, bytePos_zero]; rfl
    | succ k => rw [List.flatMap_cons, bytePos_succ, ih, List.take_succ_cons, List.flatMap_cons, List.length_append]

/-- What stands before the offset of a character are the characters before it. -/
theorem take_bytePos (cs : List Char) (k : Nat) :
    (cs.flatMap utf8EncodeChar).take (bytePos (cs.flatMap utf8EncodeChar) k) =
      (cs.take k).flatMap utf8EncodeChar := by
  rw [bytePos_flatMap]
  nth_rewrite 2 [← List.take_append_drop k cs]
  rw [List.flatMap_append, List.take_left']
  rfl

end Offsets

section Rows

/-- The row and the column behind some characters. -/
def place (cs : List Char) : Nat × Nat := (cs.count '\n', (cs.rtakeWhile (· != '\n')).length)

/-- A character other than a line feed has no line feed among its bytes. -/
theorem feed_notMem {c : Char} (hc : c ≠ '\n') : 0x0A ∉ utf8EncodeChar c := by
  obtain ⟨p, hp, hfeed | hnone, -⟩ := Utf8.exists_of_step (Utf8.step_utf8EncodeChar c [])
  · have hc' : utf8EncodeChar c = utf8EncodeChar '\n' := (List.append_cancel_right hp).trans hfeed
    have h := Utf8.step_utf8EncodeChar c []
    rw [hc', Utf8.step_utf8EncodeChar] at h
    cases h
    exact absurd rfl hc
  · simpa [List.append_cancel_right hp] using hnone

theorem count_feed (cs : List Char) : (cs.flatMap utf8EncodeChar).count 0x0A = cs.count '\n' := by
  induction cs with
  | nil => rfl
  | cons c cs ih =>
    rw [List.flatMap_cons, List.count_append, ih, List.count_cons]
    by_cases hc : c = '\n'
    · subst hc
      rw [if_pos (by decide), show (utf8EncodeChar '\n').count 0x0A = 1 by decide, Nat.add_comm]
    · rw [if_neg (by simpa using hc), List.count_eq_zero.mpr (feed_notMem hc), Nat.zero_add, Nat.add_zero]

theorem lastLine_append (s : Bytes) {p : Bytes} (hp : 0x0A ∉ p) : lastLine (s ++ p) = lastLine s ++ p := by
  have hall : ∀ b ∈ p.reverse, (b != 0x0A) = true := fun b hb =>
    bne_iff_ne.mpr fun h => hp (h ▸ List.mem_reverse.mp hb)
  rw [lastLine, List.reverse_append, List.takeWhile_append_of_pos hall, List.reverse_append, List.reverse_reverse,
    lastLine]

/-- The last line of a text is the text of its last line. -/
theorem lastLine_flatMap (cs : List Char) :
    lastLine (cs.flatMap utf8EncodeChar) = (cs.rtakeWhile (· != '\n')).flatMap utf8EncodeChar := by
  induction cs using List.reverseRecOn with
  | nil => rfl
  | append_singleton cs c ih =>
    rw [List.flatMap_append, List.flatMap_singleton]
    by_cases hc : c = '\n'
    · subst hc
      rw [List.rtakeWhile_concat_neg _ _ _ (by decide)]
      simp [lastLine, utf8EncodeChar]
    · rw [List.rtakeWhile_concat_pos _ _ _ (by simpa using hc), List.flatMap_append, List.flatMap_singleton,
        lastLine_append _ (feed_notMem hc), ih]

theorem rowCol_flatMap (cs : List Char) (k : Nat) :
    rowCol (cs.flatMap utf8EncodeChar) (bytePos (cs.flatMap utf8EncodeChar) k) = place (cs.take k) := by
  rw [rowCol, take_bytePos, count_feed, lastLine_flatMap, place]
  have hline := Utf8.lossy_encode (String.ofList ((cs.take k).rtakeWhile (· != '\n')))
  rw [Utf8.encode, String.toList_ofList] at hline
  rw [hline, String.length_ofList]

/-- One more character begins a row or moves on in one. -/
theorem place_concat (cs : List Char) (c : Char) :
    place (cs ++ [c]) = if c = '\n' then ((place cs).1 + 1, 0) else ((place cs).1, (place cs).2 + 1) := by
  rw [place, List.count_append, List.count_singleton]
  by_cases hc : c = '\n'
  · subst hc
    rw [List.rtakeWhile_concat_neg _ _ _ (by decide)]
    rfl
  · rw [List.rtakeWhile_concat_pos _ _ _ (by simpa using hc), List.length_append, if_neg hc,
      if_neg (by simpa using hc)]
    rfl

theorem place_lt_concat (cs : List Char) (c : Char) : toLex (place cs) < toLex (place (cs ++ [c])) := by
  rw [place_concat, Prod.Lex.toLex_lt_toLex]
  split_ifs
  · exact .inl (Nat.lt_succ_self _)
  · exact .inr ⟨rfl, Nat.lt_succ_self _⟩

theorem place_lt_append (cs : List Char) {ds : List Char} (hds : ds ≠ []) :
    toLex (place cs) < toLex (place (cs ++ ds)) := by
  induction ds using List.reverseRecOn with
  | nil => exact absurd rfl hds
  | append_singleton ds c ih =>
    rw [← List.append_assoc]
    rcases eq_or_ne ds [] with rfl | hne
    · rw [List.append_nil]
      exact place_lt_concat cs c
    · exact (ih hne).trans (place_lt_concat _ c)

theorem place_take_lt {cs : List Char} {k k' : Nat} (hk : k < k') (hk' : k' ≤ cs.length) :
    toLex (place (cs.take k)) < toLex (place (cs.take k')) := by
  have htake : cs.take k' = cs.take k ++ (cs.take k').drop k := by
    nth_rewrite 1 [← List.take_append_drop k (cs.take k')]
    rw [List.take_take, Nat.min_eq_left hk.le]
  rw [htake]
  refine place_lt_append _ fun hnil => ?_
  have := congrArg List.length hnil
  simp at this
  omega

end Rows

/-- In a text the offset of a cursor is the length of the characters before it, its row and column are what these
characters make them, and later cursors have later rows and columns. -/
theorem cursor_agrees (s : String) :
    (∀ k, bytePos (Utf8.encode s) k = (Utf8.encode (String.ofList (s.toList.take k))).length ∧
      rowCol (Utf8.encode s) (bytePos (Utf8.encode s) k) = place (s.toList.take k)) ∧
    ∀ k k', k < k' → k' ≤ s.length →
      toLex (rowCol (Utf8.encode s) (bytePos (Utf8.encode s) k)) <
        toLex (rowCol (Utf8.encode s) (bytePos (Utf8.encode s) k')) := by
  refine ⟨fun k => ⟨?_, rowCol_flatMap s.toList k⟩, fun k k' hk hk' => ?_⟩
  · rw [Utf8.encode, Utf8.encode, bytePos_flatMap, String.toList_ofList]
  · rw [Utf8.encode, rowCol_flatMap, rowCol_flatMap]
    exact place_take_lt hk (by rwa [String.length_toList])

/-- A text with a wide character and a line feed. -/
theorem cursor_agrees_feed :
    2 < 3 ∧ 3 ≤ "…\nx".length ∧ rowCol (Utf8.encode "…\nx") 4 = (1, 0) ∧
      toLex (rowCol (Utf8.encode "…\nx") (bytePos (Utf8.encode "…\nx") 2)) <
        toLex (rowCol (Utf8.encode "…\nx") (bytePos (Utf8.encode "…\nx") 3)) :=
  have h2 : bytePos (Utf8.encode "…\nx") 2 = 4 := by decide
  ⟨by decide, by decide, h2 ▸ ((cursor_agrees "…\nx").1 2).2.trans (by decide),
    (cursor_agrees "…\nx").2 2 3 (by decide) (by decide)⟩

end EditorAgent.View

import EditorAgent.Proofs.Text.Encoding
import EditorAgent.Proofs.Text.Lines

/-!
# Texts from any bytes

Where bytes are read as a text whatever they are, nothing is put for what is well-formed, a text that nothing was put
into is spelt by its bytes, and what follows begins anew at a byte that stands for itself.
-/

namespace EditorAgent.Utf8

variable {s r x : Bytes} {cs : List Char} {c : Char}

theorem lossyChars_encode (acc cs : List Char) :
    lossyChars acc (cs.flatMap String.utf8EncodeChar) = acc.reverse ++ cs := by
  induction cs generalizing acc with
  | nil =>
    rw [List.flatMap_nil, lossyChars]
    simp [step]
  | cons c cs ih =>
    rw [List.flatMap_cons, lossyChars]
    split
    · next h => cases h.symm.trans (step_utf8EncodeChar c _)
    · next h => cases h.symm.trans (step_utf8EncodeChar c _)
    · next h =>
      cases h.symm.trans (step_utf8EncodeChar c _)
      rw [ih]
      simp

/-- Nothing is put for what is well-formed. -/
theorem lossy_encode (s : String) : lossy (encode s) = s := by
  rw [lossy, encode, lossyChars_encode]
  simp

theorem exists_lossyChars (acc : List Char) (s : Bytes) :
    ∃ cs, lossyChars acc s = acc.reverse ++ cs ∧
      (Char.ofNat 0xFFFD ∉ cs → s = cs.flatMap String.utf8EncodeChar) := by
  fun_induction lossyChars acc s with
  | case1 acc s h => exact ⟨[], by simp, fun _ => eq_nil_of_step h⟩
  | case2 acc s r h ih =>
    obtain ⟨cs, hcs, -⟩ := ih
    exact ⟨Char.ofNat 0xFFFD :: cs, by simp [hcs], fun hnone => absurd List.mem_cons_self hnone⟩
  | case3 acc s c r h ih =>
    obtain ⟨cs, hcs, hspelt⟩ := ih
    refine ⟨c :: cs, by simp [hcs], fun hnone => ?_⟩
    rw [List.flatMap_cons, ← hspelt fun hmem => hnone (List.mem_cons_of_mem _ hmem)]
    exact eq_append_of_step h

/-- A text that nothing was put into is spelt by its bytes. -/
theorem encode_lossy (h : Char.ofNat 0xFFFD ∉ (lossy s).toList) : encode (lossy s) = s := by
  obtain ⟨cs, hcs, hspelt⟩ := exists_lossyChars [] s
  rw [lossy, String.toList_ofList, hcs] at h
  rw [encode, lossy, String.toList_ofList, hcs]
  exact (hspelt h).symm

theorem tail_append_of_bad {k acc : Nat} {lo hi : UInt8} (hlo : 0x80 ≤ lo) (hx : ∀ b ∈ x.head?, b < 0x80)
    (h : tail k lo hi acc s = .bad r) : tail k lo hi acc (s ++ x) = .bad (r ++ x) := by
  induction k generalizing lo hi acc s with
  | zero => cases h
  | succ k ih =>
    cases s with
    | nil =>
      cases h
      cases x with
      | nil => rfl
      | cons b x =>
        have hb : b < 0x80 := hx b rfl
        rw [List.nil_append, tail, if_neg fun hin => UInt8.not_lt.mpr (UInt8.le_trans hlo hin.1) hb]
    | cons b s =>
      rw [tail] at h
      rw [List.cons_append, tail]
      split at h
      · next hin => rw [if_pos hin, ih (by decide) h]
      · next hout =>
        cases h
        rw [if_neg hout]
        rfl

theorem step_append_of_bad (hx : ∀ b ∈ x.head?, b < 0x80) (h : step s = .bad r) : step (s ++ x) = .bad (r ++ x) := by
  cases s with
  | nil => cases h
  | cons b s =>
    rw [step] at h
    rw [List.cons_append, step]
    split at h
    · cases h
    · next hb =>
      rw [if_neg hb]
      split at h
      · cases h
        rfl
      · next l hl => exact tail_append_of_bad (le_lo hl) hx h

theorem utf8EncodeChar_of_lt (hc : c.toNat < 0x80) : String.utf8EncodeChar c = [UInt8.ofNat c.toNat] := by
  have hle : c.val.toNat ≤ 0x7F := Nat.le_of_lt_succ hc
  rw [String.utf8EncodeChar.eq_1, if_pos hle]
  rfl

theorem step_append_of_char (h : step s = .char c r) : step (s ++ x) = .char c (r ++ x) := by
  rw [eq_append_of_step h, List.append_assoc, step_utf8EncodeChar]

/-- Behind anything, a text that begins with a character of one byte is read as it is. -/
theorem lossyChars_append (acc : List Char) (s : Bytes) (hcs : ∀ c ∈ cs.head?, c.toNat < 0x80) :
    lossyChars acc (s ++ cs.flatMap String.utf8EncodeChar) = lossyChars acc s ++ cs := by
  have hx : ∀ b ∈ (cs.flatMap String.utf8EncodeChar).head?, b < 0x80 := by
    intro b hb
    cases cs with
    | nil => cases hb
    | cons c cs =>
      have hc : c.toNat < 0x80 := hcs c rfl
      rw [List.flatMap_cons, utf8EncodeChar_of_lt hc] at hb
      cases hb
      exact (ofNat_lt_iff (by omega) _).mpr hc
  fun_induction lossyChars acc s with
  | case1 acc s h => rw [eq_nil_of_step h, List.nil_append, lossyChars_encode]
  | case2 acc s r h ih =>
    rw [lossyChars]
    split
    · next h' => cases h'.symm.trans (step_append_of_bad hx h)
    · next h' =>
      cases h'.symm.trans (step_append_of_bad hx h)
      exact ih
    · next h' => cases h'.symm.trans (step_append_of_bad hx h)
  | case3 acc s c r h ih =>
    rw [lossyChars]
    split
    · next h' => cases h'.symm.trans (step_append_of_char h)
    · next h' => cases h'.symm.trans (step_append_of_char h)
    · next h' =>
      cases h'.symm.trans (step_append_of_char h)
      exact ih

end EditorAgent.Utf8

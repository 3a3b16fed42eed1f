import EditorAgent.Text.Base64
import Mathlib.Algebra.Group.Nat.Defs
import Mathlib.Data.List.Basic

/-!
# Encodings and back

A text is read back from its UTF-8 bytes, and bytes from their base64 text.
-/

namespace EditorAgent

namespace Utf8

section Bytes

variable {n : Nat} (hn : n < 256)

include hn

theorem ofNat_lt_iff (b : UInt8) : UInt8.ofNat n < b ↔ n < b.toNat := by
  rw [UInt8.lt_iff_toNat_lt, UInt8.toNat_ofNat_of_lt' hn]

theorem ofNat_eq_iff (b : UInt8) : UInt8.ofNat n = b ↔ n = b.toNat := by
  rw [← UInt8.toNat_inj, UInt8.toNat_ofNat_of_lt' hn]

theorem step_ofNat (s : Bytes) : step (UInt8.ofNat n :: s) =
    if n < 0x80 then .char (Char.ofNat n) s
    else if n < 0xC2 then .bad s
    else if n < 0xE0 then tail 1 0x80 0xBF (n % 32) s
    else if n < 0xF0 then
      tail 2 (if n = 0xE0 then 0xA0 else 0x80) (if n = 0xED then 0x9F else 0xBF) (n % 16) s
    else if n < 0xF5 then tail 3 (if n = 0xF0 then 0x90 else 0x80) (if n = 0xF4 then 0x8F else 0xBF) (n % 8) s
    else .bad s := by
  simp only [step, lead?, ofNat_lt_iff hn, ofNat_eq_iff hn, UInt8.toNat_ofNat_of_lt' hn, UInt8.reduceToNat]
  split_ifs <;> rfl

theorem tail_ofNat {k : Nat} {lo hi : UInt8} {acc : Nat} {s : Bytes} (hlo : lo.toNat ≤ n) (hhi : n ≤ hi.toNat) :
    tail (k + 1) lo hi acc (UInt8.ofNat n :: s) = tail k 0x80 0xBF (acc * 64 + n % 64) s := by
  have hrange : lo ≤ UInt8.ofNat n ∧ UInt8.ofNat n ≤ hi := by
    rw [UInt8.le_iff_toNat_le, UInt8.le_iff_toNat_le, UInt8.toNat_ofNat_of_lt' hn]
    omega
  rw [tail, if_pos hrange, UInt8.toNat_ofNat_of_lt' hn]

theorem tail_later {k acc : Nat} {s : Bytes} (hlo : 0x80 ≤ n) (hhi : n ≤ 0xBF) :
    tail (k + 1) 0x80 0xBF acc (UInt8.ofNat n :: s) = tail k 0x80 0xBF (acc * 64 + n % 64) s :=
  tail_ofNat hn hlo hhi

end Bytes

/-- A character is read back, whatever follows it. -/
theorem step_utf8EncodeChar (c : Char) (s : Bytes) : step (String.utf8EncodeChar c ++ s) = .char c s := by
  have hvalid : c.toNat < 0xD800 ∨ 0xDFFF < c.toNat ∧ c.toNat < 0x110000 := c.valid
  have hc : Char.ofNat c.toNat = c := Char.ofNat_toNat c
  unfold String.utf8EncodeChar
  rw [show c.val.toNat = c.toNat from rfl]
  generalize c.toNat = v at hvalid hc
  subst hc
  dsimp only
  split_ifs with h1 h2 h3
  all_goals
    simp only [List.cons_append, List.nil_append]
    rw [step_ofNat (by omega)]
  · rw [if_pos (by omega)]
  · rw [if_neg (by omega), if_neg (by omega), if_pos (by omega), tail_later (by omega) (by omega) (by omega), tail]
    congr 2
    omega
  · rw [if_neg (by omega), if_neg (by omega), if_neg (by omega), if_pos (by omega),
      tail_ofNat (by omega) (by split_ifs <;> simp only [UInt8.reduceToNat] <;> omega)
        (by split_ifs <;> simp only [UInt8.reduceToNat] <;> omega), tail_later (by omega) (by omega) (by omega), tail]
    congr 2
    omega
  · rw [if_neg (by omega), if_neg (by omega), if_neg (by omega), if_neg (by omega), if_pos (by omega),
      tail_ofNat (by omega) (by split_ifs <;> simp only [UInt8.reduceToNat] <;> omega)
        (by split_ifs <;> simp only [UInt8.reduceToNat] <;> omega), tail_later (by omega) (by omega) (by omega),
      tail_later (by omega) (by omega) (by omega), tail]
    congr 2
    omega

/-! ## Characters from bytes -/

/-- The last `k` bytes of the character of number `v`. -/
def follow : Nat → Nat → Bytes
  | 0, _ => []
  | k + 1, v => UInt8.ofNat (v / 64 ^ k % 64 + 128) :: follow k v

/-- What is read behind a lead byte is spelt by what was read, and continues the number that was begun. -/
theorem exists_of_tail_char {k acc : Nat} {lo hi : UInt8} {s r : Bytes} {c : Char} (hlo : 0x80 ≤ lo.toNat)
    (hhi : hi.toNat ≤ 0xBF) (h : tail (k + 1) lo hi acc s = .char c r) :
    ∃ v, c = Char.ofNat v ∧ s = follow (k + 1) v ++ r ∧ v / 64 ^ (k + 1) = acc ∧
      lo.toNat ≤ v / 64 ^ k % 64 + 128 ∧ v / 64 ^ k % 64 + 128 ≤ hi.toNat := by
  induction k generalizing lo hi acc s with
  | zero =>
    cases s with
    | nil => cases h
    | cons b s =>
      rw [tail] at h
      split at h
      · next hb =>
        rw [UInt8.le_iff_toNat_le, UInt8.le_iff_toNat_le] at hb
        cases h
        have hval : (acc * 64 + b.toNat % 64) % 64 + 128 = b.toNat := by omega
        refine ⟨acc * 64 + b.toNat % 64, rfl, ?_, by omega, ?_, ?_⟩
        · rw [follow, follow, Nat.pow_zero, Nat.div_one, hval, UInt8.ofNat_toNat]
          rfl
        all_goals
          rw [Nat.pow_zero, Nat.div_one, hval]
          omega
      · cases h
  | succ k ih =>
    cases s with
    | nil => cases h
    | cons b s =>
      rw [tail] at h
      split at h
      · next hb =>
        rw [UInt8.le_iff_toNat_le, UInt8.le_iff_toNat_le] at hb
        obtain ⟨v, hc, hs, hacc, -, -⟩ := ih (by decide) (by decide) h
        have hval : v / 64 ^ (k + 1) % 64 + 128 = b.toNat := by omega
        refine ⟨v, hc, ?_, ?_, by omega, by omega⟩
        · rw [follow, hval, UInt8.ofNat_toNat, hs]
          rfl
        · rw [Nat.pow_succ, ← Nat.div_div_eq_div_mul, hacc]
          omega
      · cases h

theorem utf8EncodeChar_ofNat {v : Nat} (hv : v < 0xD800 ∨ 0xDFFF < v ∧ v < 0x110000) :
    String.utf8EncodeChar (Char.ofNat v) =
      if v ≤ 0x7F then [UInt8.ofNat v]
      else if v ≤ 0x7FF then UInt8.ofNat (v / 64 % 32 + 192) :: follow 1 v
      else if v ≤ 0xFFFF then UInt8.ofNat (v / 4096 % 16 + 224) :: follow 2 v
      else UInt8.ofNat (v / 262144 % 8 + 240) :: follow 3 v := by
  have hchar : v.isValidChar := hv
  have hval : (Char.ofNat v).val.toNat = v := by
    rw [Char.ofNat, dif_pos hchar]
    rfl
  rw [String.utf8EncodeChar.eq_1, hval]
  simp [follow]

theorem lead?_bounds {b : UInt8} {l : Lead} (h : lead? b = some l) :
    0 < l.tail ∧ 0x80 ≤ l.lo.toNat ∧ l.hi.toNat ≤ 0xBF := by
  rw [lead?] at h
  split_ifs at h <;> cases h
  all_goals
    dsimp only
    decide

/-- A number within the bounds that a lead byte sets is spelt with it. -/
theorem utf8EncodeChar_of_lead {b : UInt8} {l : Lead} {v : Nat} (h : lead? b = some l)
    (hbits : v / 64 ^ l.tail = l.bits) (hlo : l.lo.toNat ≤ v / 64 ^ (l.tail - 1) % 64 + 128) (hhi : v / 64 ^ (l.tail - 1) % 64 + 128 ≤ l.hi.toNat) :
    String.utf8EncodeChar (Char.ofNat v) = b :: follow l.tail v := by
  have hb : ∀ n, n = b.toNat → UInt8.ofNat n = b := fun n hn => hn ▸ UInt8.ofNat_toNat
  simp only [lead?, UInt8.lt_iff_toNat_lt, ← UInt8.toNat_inj, UInt8.reduceToNat] at h
  split_ifs at h
  all_goals
    cases h
    simp only [UInt8.reduceToNat] at hbits hlo hhi
    rw [utf8EncodeChar_ofNat (by omega), if_neg (by omega)]
  -- one byte follows, or two, or three: what bounds the first of them depends on the lead byte
  · rw [if_pos (by omega), hb _ (by omega)]
  iterate 4
    · rw [if_neg (by omega), if_pos (by omega), hb _ (by omega)]
  iterate 4
    · rw [if_neg (by omega), if_neg (by omega), hb _ (by omega)]

/-- A character that is read is spelt by what was read. -/
theorem eq_append_of_step {s r : Bytes} {c : Char} (h : step s = .char c r) : s = String.utf8EncodeChar c ++ r := by
  cases s with
  | nil => cases h
  | cons b s =>
    rw [step] at h
    split at h
    · next hlt =>
      cases h
      have hlt : b.toNat < 0x80 := UInt8.lt_iff_toNat_lt.mp hlt
      rw [utf8EncodeChar_ofNat (by omega), if_pos (by omega), UInt8.ofNat_toNat, List.singleton_append]
    · split at h
      · cases h
      · next l hl =>
        obtain ⟨hpos, hlow, hhigh⟩ := lead?_bounds hl
        obtain ⟨k, hk⟩ := Nat.exists_eq_add_one_of_ne_zero (Nat.ne_of_gt hpos)
        rw [hk] at h
        obtain ⟨v, rfl, rfl, hbits, hlo, hhi⟩ := exists_of_tail_char hlow hhigh h
        rw [utf8EncodeChar_of_lead hl (by rwa [hk]) (by rwa [hk]) (by rwa [hk]), hk, List.cons_append]

theorem chars?_encode (acc cs : List Char) :
    chars? acc (cs.flatMap String.utf8EncodeChar) = some (acc.reverse ++ cs) := by
  induction cs generalizing acc with
  | nil =>
    rw [List.flatMap_nil, chars?]
    simp [step]
  | cons c cs ih =>
    rw [List.flatMap_cons, chars?]
    split
    · next h => cases h.symm.trans (step_utf8EncodeChar c _)
    · next h => cases h.symm.trans (step_utf8EncodeChar c _)
    · next h =>
      cases h.symm.trans (step_utf8EncodeChar c _)
      rw [ih]
      simp

theorem decode?_encode (s : String) : decode? (encode s) = some s := by
  rw [decode?, encode, chars?_encode]
  simp

theorem encode_injective {s t : String} (h : encode s = encode t) : s = t := by
  have hs := decode?_encode s
  rw [h, decode?_encode t] at hs
  cases hs
  rfl

end Utf8

namespace Base64

/-- The digits of an alphabet are told apart, and none is the padding. -/
def Alphabet.Legible (a : Alphabet) : Prop := ∀ n < 64, a.digit? (a.char n) = some n ∧ a.char n ≠ '='

theorem legible_standard : standard.Legible := by
  unfold Alphabet.Legible
  decide

theorem legible_urlSafe : urlSafe.Legible := by
  unfold Alphabet.Legible
  decide

section Legible

variable {a : Alphabet} (ha : a.Legible)

include ha

theorem decodeChars_encodeChars (s : Bytes) : decodeChars a (encodeChars a s) = some s := by
  fun_induction encodeChars a s with
  | case1 => rfl
  | case2 x n =>
    have hx : n < 256 := x.toNat_lt
    obtain ⟨h1, -⟩ := ha (n / 4) (by omega)
    obtain ⟨h2, -⟩ := ha (n % 4 * 16) (by omega)
    have hn : n / 4 * 4 + n % 4 * 16 / 16 = n := by omega
    have hpad : n % 4 * 16 % 16 = 0 := by omega
    simp only [decodeChars, h1, h2, Option.bind_eq_bind, Option.bind_some, hpad, if_true, hn]
    exact congrArg (fun b => some [b]) UInt8.ofNat_toNat
  | case3 x y n =>
    have hx := x.toNat_lt
    have hy := y.toNat_lt
    have hn : n = x.toNat * 256 + y.toNat := rfl
    obtain ⟨h1, -⟩ := ha (n / 1024) (by omega)
    obtain ⟨h2, -⟩ := ha (n / 16 % 64) (by omega)
    obtain ⟨h3, h3'⟩ := ha (n % 16 * 4) (by omega)
    have hpad : n % 16 * 4 % 4 = 0 := by omega
    have hx' : n / 1024 * 4 + n / 16 % 64 / 16 = x.toNat := by omega
    have hy' : n / 16 % 64 % 16 * 16 + n % 16 * 4 / 4 = y.toNat := by omega
    rw [decodeChars]
    · simp only [h1, h2, h3, Option.bind_eq_bind, Option.bind_some, hpad, if_true, hx', hy', UInt8.ofNat_toNat]
    · exact h3'
  | case4 x y z r n ih =>
    have hx := x.toNat_lt
    have hy := y.toNat_lt
    have hz := z.toNat_lt
    have hn : n = (x.toNat * 256 + y.toNat) * 256 + z.toNat := rfl
    obtain ⟨h1, -⟩ := ha (n / 262144) (by omega)
    obtain ⟨h2, -⟩ := ha (n / 4096 % 64) (by omega)
    obtain ⟨h3, -⟩ := ha (n / 64 % 64) (by omega)
    obtain ⟨h4, h4'⟩ := ha (n % 64) (by omega)
    have hx' : n / 262144 * 4 + n / 4096 % 64 / 16 = x.toNat := by omega
    have hy' : n / 4096 % 64 % 16 * 16 + n / 64 % 64 / 4 = y.toNat := by omega
    have hz' : n / 64 % 64 % 4 * 64 + n % 64 = z.toNat := by omega
    rw [decodeChars]
    · simp only [h1, h2, h3, h4, ih, Option.bind_eq_bind, Option.bind_some, hx', hy', hz', UInt8.ofNat_toNat]
    · exact fun _ h _ => h4' h
    · exact fun h _ => h4' h

/-- The padding fills the last group of four. -/
theorem exists_padding (s : Bytes) :
    ∃ u k, encodeChars a s = u ++ List.replicate k '=' ∧ '=' ∉ u ∧ k < 4 ∧ (u.length + k) % 4 = 0 := by
  fun_induction encodeChars a s with
  | case1 => exact ⟨[], 0, rfl, by simp, by decide, rfl⟩
  | case2 x n =>
    have hx : n < 256 := x.toNat_lt
    have h1 := (ha (n / 4) (by omega)).2
    have h2 := (ha (n % 4 * 16) (by omega)).2
    exact ⟨[_, _], 2, rfl, by simp [h1.symm, h2.symm], by decide, by simp⟩
  | case3 x y n =>
    have hx := x.toNat_lt
    have hy := y.toNat_lt
    have hn : n = x.toNat * 256 + y.toNat := rfl
    have h1 := (ha (n / 1024) (by omega)).2
    have h2 := (ha (n / 16 % 64) (by omega)).2
    have h3 := (ha (n % 16 * 4) (by omega)).2
    exact ⟨[_, _, _], 1, rfl, by simp [h1.symm, h2.symm, h3.symm], by decide, by simp⟩
  | case4 x y z r n ih =>
    have hx := x.toNat_lt
    have hy := y.toNat_lt
    have hz := z.toNat_lt
    have hn : n = (x.toNat * 256 + y.toNat) * 256 + z.toNat := rfl
    have h1 := (ha (n / 262144) (by omega)).2
    have h2 := (ha (n / 4096 % 64) (by omega)).2
    have h3 := (ha (n / 64 % 64) (by omega)).2
    have h4 := (ha (n % 64) (by omega)).2
    obtain ⟨u, k, hu, hno, hk, hfull⟩ := ih
    refine ⟨_ :: _ :: _ :: _ :: u, k, by rw [hu]; rfl, ?_, hk, ?_⟩
    · simp [h1.symm, h2.symm, h3.symm, h4.symm, hno]
    · simp only [List.length_cons]
      omega

/-- Without its padding a text can still be read back, since its length tells the padding. -/
theorem encodeUnpadded_injective {s t : Bytes} (h : encodeUnpadded a s = encodeUnpadded a t) : s = t := by
  obtain ⟨u, k, hu, huno, hk, hufull⟩ := exists_padding ha s
  obtain ⟨v, l, hv, hvno, hl, hvfull⟩ := exists_padding ha t
  have htake {w : List Char} (hw : '=' ∉ w) (m : Nat) :
      (w ++ List.replicate m '=').takeWhile (· != '=') = w := by
    have hne : ∀ c ∈ w, (c != '=') = true := fun c hc => by simpa using ne_of_mem_of_not_mem hc hw
    rw [List.takeWhile_append_of_pos hne]
    cases m <;> simp [List.replicate_succ]
  rw [encodeUnpadded, encodeUnpadded, hu, hv, htake huno, htake hvno, String.ofList_inj] at h
  subst h
  obtain rfl : k = l := by omega
  have hs := decodeChars_encodeChars ha s
  rw [hu, ← hv, decodeChars_encodeChars ha t] at hs
  exact (Option.some.inj hs).symm

end Legible

theorem decode?_encode (s : Bytes) : decode? standard (encode standard s) = some s := by
  rw [decode?, encode, String.toList_ofList, decodeChars_encodeChars legible_standard]

end Base64
end EditorAgent

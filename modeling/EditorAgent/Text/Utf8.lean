/-!
# UTF-8

Byte strings and their characters. `Utf8.step` reads one character; `Utf8.decode?` accepts exactly the
well-formed byte strings, `Utf8.lossy` puts U+FFFD for each maximal ill-formed piece.
-/

namespace EditorAgent

abbrev Bytes := List UInt8

namespace Utf8

def encode (s : String) : Bytes := s.toList.flatMap String.utf8EncodeChar

/-- What a lead byte announces: how many bytes follow, the range of the first of them, and the
value bits of the lead byte itself. -/
structure Lead where
  tail : Nat
  lo : UInt8
  hi : UInt8
  bits : Nat

def lead? (b : UInt8) : Option Lead :=
  if b < 0xC2 then none
  else if b < 0xE0 then some ⟨1, 0x80, 0xBF, b.toNat % 32⟩
  else if b < 0xF0 then
    some ⟨2, if b = 0xE0 then 0xA0 else 0x80, if b = 0xED then 0x9F else 0xBF, b.toNat % 16⟩
  else if b < 0xF5 then
    some ⟨3, if b = 0xF0 then 0x90 else 0x80, if b = 0xF4 then 0x8F else 0xBF, b.toNat % 8⟩
  else none

/-- The outcome of reading at the front of a byte string. -/
inductive Step where
  | done
  | char (c : Char) (rest : Bytes)
  | bad (rest : Bytes)

def tail : Nat → UInt8 → UInt8 → Nat → Bytes → Step
  | 0, _, _, acc, r => .char (Char.ofNat acc) r
  | _ + 1, _, _, _, [] => .bad []
  | n + 1, lo, hi, acc, b :: r =>
    if lo ≤ b ∧ b ≤ hi then tail n 0x80 0xBF (acc * 64 + b.toNat % 64) r else .bad (b :: r)

def step : Bytes → Step
  | [] => .done
  | b :: r =>
    if b < 0x80 then .char (Char.ofNat b.toNat) r
    else match lead? b with
      | none => .bad r
      | some l => tail l.tail l.lo l.hi l.bits r

def Step.Shorter (n : Nat) : Step → Prop
  | .done => True
  | .char _ r => r.length ≤ n
  | .bad r => r.length ≤ n

theorem shorter_tail (k : Nat) (lo hi : UInt8) (acc : Nat) (r : Bytes) :
    (tail k lo hi acc r).Shorter r.length := by
  induction k generalizing lo hi acc r with
  | zero => simp [tail, Step.Shorter]
  | succ k ih =>
    cases r with
    | nil => simp [tail, Step.Shorter]
    | cons b r =>
      simp only [tail]
      split
      · have := ih 0x80 0xBF (acc * 64 + b.toNat % 64) r
        revert this
        generalize tail k 0x80 0xBF (acc * 64 + b.toNat % 64) r = s
        cases s <;> simp [Step.Shorter] <;> omega
      · simp [Step.Shorter]

theorem shorter_step (b : UInt8) (r : Bytes) : (step (b :: r)).Shorter r.length := by
  simp only [step]
  split
  · simp [Step.Shorter]
  · split
    · simp [Step.Shorter]
    · exact shorter_tail _ _ _ _ _

theorem step_char_length {s r : Bytes} {c : Char} (h : step s = .char c r) :
    r.length < s.length := by
  cases s with
  | nil => simp [step] at h
  | cons b t =>
    have := shorter_step b t
    rw [h] at this
    simpa [Step.Shorter, Nat.lt_succ_iff] using this

theorem step_bad_length {s r : Bytes} (h : step s = .bad r) : r.length < s.length := by
  cases s with
  | nil => simp [step] at h
  | cons b t =>
    have := shorter_step b t
    rw [h] at this
    simpa [Step.Shorter, Nat.lt_succ_iff] using this

/-- The characters of a byte string, in reverse onto `acc`; `none` if it is ill-formed. -/
def chars? (acc : List Char) (s : Bytes) : Option (List Char) :=
  match _h : step s with
  | .done => some acc.reverse
  | .bad _ => none
  | .char c r => chars? (c :: acc) r
termination_by s.length
decreasing_by exact step_char_length ‹_›

def lossyChars (acc : List Char) (s : Bytes) : List Char :=
  match _h : step s with
  | .done => acc.reverse
  | .bad r => lossyChars (Char.ofNat 0xFFFD :: acc) r
  | .char c r => lossyChars (c :: acc) r
termination_by s.length
decreasing_by
  · exact step_bad_length ‹_›
  · exact step_char_length ‹_›

def decode? (s : Bytes) : Option String := (chars? [] s).map String.ofList

def lossy (s : Bytes) : String := String.ofList (lossyChars [] s)

end Utf8
end EditorAgent

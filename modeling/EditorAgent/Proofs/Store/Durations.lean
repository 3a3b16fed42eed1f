import EditorAgent.Store.Duration
import Mathlib

/-!
# Durations read back

The text of a duration is a run of numerals, each with its unit. Read back it is the duration rounded half up
to a multiple of the unit that its length calls for, so a longer duration never reads as a shorter one. The
text is worked out in 128 bits from seconds in 64 bits and a part of a second, and no step outgrows them.
-/

namespace EditorAgent.Duration

/-! ## Rounding -/

/-- The nearest multiple of a unit; where two are equally near, the greater. -/
def roundHalfUp (u n : Nat) : Nat := (2 * n + u) / (2 * u) * u

theorem roundHalfUp_eq_iff {u n v : Nat} (hu : 0 < u) :
    roundHalfUp u n = v ↔ u ∣ v ∧ 2 * v ≤ 2 * n + u ∧ 2 * n < 2 * v + u := by
  constructor
  · intro h
    have hrem := Nat.mod_lt (2 * n + u) (show 0 < 2 * u by omega)
    have hdiv := Nat.div_add_mod (2 * n + u) (2 * u)
    have hquot : 2 * v = 2 * u * ((2 * n + u) / (2 * u)) := by
      rw [← h, roundHalfUp, Nat.mul_comm _ u, Nat.mul_assoc]
    exact ⟨h ▸ Nat.dvd_mul_left u _, by omega, by omega⟩
  · rintro ⟨⟨k, rfl⟩, hle, hlt⟩
    have hquot : (2 * n + u) / (2 * u) = k := by
      refine Nat.div_eq_of_lt_le ?_ ?_
      · rw [Nat.mul_comm, Nat.mul_assoc]
        exact hle
      · rw [Nat.add_mul, Nat.mul_left_comm, Nat.mul_comm k]
        omega
    rw [roundHalfUp, hquot, Nat.mul_comm]

/-- What a duration is a multiple of when it is printed. -/
def unit (n : Nat) : Nat := if n < 1000000 then 1000 else if n < 60 * second then 1000000 else second

def rounded (n : Nat) : Nat := roundHalfUp (unit n) n

theorem rounded_mono {m n : Nat} (h : m ≤ n) : rounded m ≤ rounded n := by
  unfold rounded roundHalfUp unit second
  split_ifs <;> omega

/-! ## Reading a text -/

/-- The nanoseconds in a unit. -/
def unitNanos? : List Char → Option Nat
  | ['h'] => some (3600 * second)
  | ['m'] => some (60 * second)
  | ['s'] => some second
  | ['m', 's'] => some 1000000
  | ['µ', 's'] => some 1000
  | _ => none

def number (ds : List Char) : Nat := Nat.ofDigitChars 10 ds 0

/-- So many of a unit. Seconds may have up to three decimals. -/
def amount? (numeral unit : List Char) : Option Nat :=
  match unitNanos? unit, numeral.splitOn '.' with
  | some u, [whole] => some (number whole * u)
  | some u, [whole, decimals] =>
    if unit = ['s'] ∧ whole ≠ [] ∧ decimals ≠ [] ∧ decimals.length ≤ 3 then
      some (number whole * u + number decimals * (u / 10 ^ decimals.length))
    else none
  | _, _ => none

def isNumeral (c : Char) : Bool := c.isDigit || c == '.'

/-- The sum of what alternating numerals and units come to. -/
def total? : List (List Char) → Option Nat
  | [] => some 0
  | [_] => none
  | numeral :: unit :: rest => do return (← amount? numeral unit) + (← total? rest)

/-- The length that a text tells: numerals, each with the unit that follows it. -/
def read? (s : String) : Option Nat := total? (s.toList.splitBy fun a b => isNumeral a == isNumeral b)

/-- A numeral and its unit. -/
structure Part where
  numeral : List Char
  unit : List Char

namespace Part

def text (p : Part) : List Char := p.numeral ++ p.unit

/-- Neither is empty, and each is told from the other by its characters. -/
structure Plain (p : Part) : Prop where
  numeral_ne : p.numeral ≠ []
  unit_ne : p.unit ≠ []
  isNumeral_numeral : ∀ c ∈ p.numeral, isNumeral c = true
  isNumeral_unit : ∀ c ∈ p.unit, isNumeral c = false

/-- So many whole units. -/
def whole (k : Nat) (unit : List Char) : Part := ⟨Nat.toDigits 10 k, unit⟩

theorem isNumeral_of_isDigit {c : Char} (h : c.isDigit = true) : isNumeral c = true := by simp [isNumeral, h]

theorem plain_whole (k : Nat) (unit : List Char) (hne : unit ≠ []) (hunit : unit.all (fun c => !isNumeral c) = true) :
    (whole k unit).Plain where
  numeral_ne := Nat.toDigits_ne_nil
  unit_ne := hne
  isNumeral_numeral _ hc := isNumeral_of_isDigit (Nat.isDigit_of_mem_toDigits (by decide) (by decide) hc)
  isNumeral_unit := by simpa [whole] using hunit

end Part

/-- A run of like characters is not divided. -/
theorem splitBy_run {cs : List Char} {b : Bool} (hne : cs ≠ []) (h : ∀ c ∈ cs, isNumeral c = b) :
    (cs.splitBy fun x y => isNumeral x == isNumeral y) = [cs] := by
  refine List.splitBy_of_isChain hne (List.Pairwise.isChain ?_)
  refine List.pairwise_of_forall_mem_list fun x hx y hy => ?_
  rw [h x hx, h y hy, beq_self_eq_true]

/-- The numerals and units of a text are its runs. -/
theorem splitBy_flatMap_text {ps : List Part} (h : ∀ p ∈ ps, p.Plain) :
    ((ps.flatMap Part.text).splitBy fun x y => isNumeral x == isNumeral y) =
      ps.flatMap fun p => [p.numeral, p.unit] := by
  induction ps with
  | nil => rfl
  | cons p ps ih =>
    obtain ⟨hp, hps⟩ := List.forall_mem_cons.mp h
    have hnext : ∀ y ∈ (ps.flatMap Part.text).head?, isNumeral y = true := by
      cases ps with
      | nil => simp
      | cons q ps =>
        have hq := hps q List.mem_cons_self
        obtain ⟨c, cs, hc⟩ := List.exists_cons_of_ne_nil hq.numeral_ne
        intro y hy
        rw [List.flatMap_cons, Part.text, hc, List.cons_append, List.cons_append, List.head?_cons,
          Option.mem_some_iff] at hy
        exact hq.isNumeral_numeral y (by simp [hc, hy])
    have hends : ∀ x ∈ p.numeral.getLast?, ∀ y ∈ (p.unit ++ ps.flatMap Part.text).head?,
        (isNumeral x == isNumeral y) = false := by
      intro x hx y hy
      rw [List.head?_append_of_ne_nil _ hp.unit_ne] at hy
      rw [hp.isNumeral_numeral x (List.mem_of_mem_getLast? hx), hp.isNumeral_unit y (List.mem_of_mem_head? hy)]
      rfl
    have hstarts : ∀ x ∈ p.unit.getLast?, ∀ y ∈ (ps.flatMap Part.text).head?,
        (isNumeral x == isNumeral y) = false := by
      intro x hx y hy
      rw [hp.isNumeral_unit x (List.mem_of_mem_getLast? hx), hnext y hy]
      rfl
    rw [List.flatMap_cons, Part.text, List.append_assoc, List.splitBy_append hends, List.splitBy_append hstarts,
      splitBy_run hp.numeral_ne hp.isNumeral_numeral, splitBy_run hp.unit_ne hp.isNumeral_unit, ih hps]
    rfl

theorem read?_parts {s : String} {ps : List Part} (hs : s.toList = ps.flatMap Part.text) (h : ∀ p ∈ ps, p.Plain) :
    read? s = total? (ps.flatMap fun p => [p.numeral, p.unit]) := by
  rw [read?, hs, splitBy_flatMap_text h]

theorem amount?_whole (k : Nat) (unit : List Char) {u : Nat} (hu : unitNanos? unit = some u) :
    amount? (Nat.toDigits 10 k) unit = some (k * u) := by
  have hpoint : '.' ∉ Nat.toDigits 10 k := by
    intro hc
    exact absurd (Nat.isDigit_of_mem_toDigits (by decide) (by decide) hc) (by decide)
  rw [amount?, hu, List.splitOn_eq_singleton hpoint]
  exact congrArg (fun n => some (n * u)) Nat.ofDigitChars_ten_toDigits

/-! ## The three forms -/

def micros (us : Nat) : String := s!"{us}µs"

/-- Seconds with up to three decimals, from a second on. -/
def millis (ms : Nat) : String :=
  if ms < 1000 then s!"{ms}ms"
  else
    let whole := toString (ms / 1000)
    match trimZeros (thousandths (ms % 1000)) with
    | [] => whole ++ "s"
    | ds => whole ++ "." ++ String.ofList ds ++ "s"

/-- Minutes and seconds, with the hours if there are any. -/
def clock (total : Nat) : String :=
  let h := total / 3600
  let m := total % 3600 / 60
  let s := total % 60
  if 0 < h then s!"{h}h{m}m{s}s" else s!"{m}m{s}s"

theorem render_eq (n : Nat) : render n =
    if n = 0 then "0s"
    else if n < 1000000 then micros ((n + 500) / 1000)
    else if n < 60 * second then millis ((n / 1000 + 500) / 1000)
    else clock ((n / 1000000 + 500) / 1000) := rfl

theorem read?_micros (us : Nat) : read? (micros us) = some (us * 1000) := by
  have htext : (micros us).toList = [Part.whole us ['µ', 's']].flatMap Part.text := by
    simp [micros, Part.text, Part.whole, toString]
  have hplain : ∀ p ∈ [Part.whole us ['µ', 's']], p.Plain := by
    simpa using Part.plain_whole us _ (by decide) (by decide)
  have hamount := amount?_whole us ['µ', 's'] (u := 1000) rfl
  rw [read?_parts htext hplain]
  simp [total?, Part.whole, hamount]

theorem read?_clock (total : Nat) : read? (clock total) = some (total * second) := by
  have hhours := amount?_whole (total / 3600) ['h'] rfl
  have hminutes := amount?_whole (total % 3600 / 60) ['m'] rfl
  have hseconds := amount?_whole (total % 60) ['s'] rfl
  have hplain : ∀ k, ∀ u ∈ [['h'], ['m'], ['s']], (Part.whole k u).Plain := by
    intro k u hu
    refine Part.plain_whole k _ ?_ ?_ <;> revert u <;> decide
  by_cases h : 0 < total / 3600
  · have htext : (clock total).toList = [Part.whole (total / 3600) ['h'], Part.whole (total % 3600 / 60) ['m'],
        Part.whole (total % 60) ['s']].flatMap Part.text := by
      simp [clock, h, Part.text, Part.whole, toString]
    rw [read?_parts htext (by simp [hplain])]
    simp [total?, Part.whole, hhours, hminutes, hseconds, second]
    omega
  · have htext : (clock total).toList = [Part.whole (total % 3600 / 60) ['m'],
        Part.whole (total % 60) ['s']].flatMap Part.text := by
      simp [clock, h, Part.text, Part.whole, toString]
    rw [read?_parts htext (by simp [hplain])]
    simp [total?, Part.whole, hminutes, hseconds, second]
    omega

/-! ### Decimals -/

theorem number_append_zeros (ds : List Char) (k : Nat) :
    number (ds ++ List.replicate k '0') = 10 ^ k * number ds := by
  rw [number, Nat.ofDigitChars_append, Nat.ofDigitChars_replicate_zero, number]

theorem number_thousandths {n : Nat} (h : n < 1000) : number (thousandths n) = n := by
  have hchar : ∀ d < 10, Char.ofNat (48 + d) = Nat.digitChar d := by decide
  have hdigit : ∀ k, k % 10 < 10 := fun k => Nat.mod_lt k (by decide)
  rw [number, thousandths, List.map_cons, List.map_cons, List.map_singleton, hchar _ (hdigit _), hchar _ (hdigit _),
    hchar _ (hdigit _), Nat.ofDigitChars_cons_digitChar_of_lt_ten (hdigit _),
    Nat.ofDigitChars_cons_digitChar_of_lt_ten (hdigit _), Nat.ofDigitChars_cons_digitChar_of_lt_ten (hdigit _),
    Nat.ofDigitChars_nil]
  omega

theorem isDigit_of_mem_thousandths {n : Nat} {c : Char} (hc : c ∈ thousandths n) : c.isDigit = true := by
  have hdigit : ∀ d < 10, (Char.ofNat (48 + d)).isDigit = true := by decide
  obtain ⟨d, hd, rfl⟩ := List.mem_map.mp hc
  refine hdigit d ?_
  simp only [List.mem_cons, List.not_mem_nil, or_false] at hd
  omega

/-- Only zeros are cut off. -/
theorem trimZeros_append (ds : List Char) : ∃ k, ds = trimZeros ds ++ List.replicate k '0' := by
  refine ⟨(ds.reverse.takeWhile (· == '0')).length, ?_⟩
  have hzeros : ds.reverse.takeWhile (· == '0') = List.replicate (ds.reverse.takeWhile (· == '0')).length '0' := by
    rw [List.eq_replicate_iff]
    exact ⟨rfl, fun c hc => by simpa using List.all_eq_true.mp List.all_takeWhile c hc⟩
  rw [trimZeros, ← List.reverse_replicate, ← hzeros, ← List.reverse_append, List.takeWhile_append_dropWhile,
    List.reverse_reverse]

theorem mem_of_mem_trimZeros {ds : List Char} {c : Char} (hc : c ∈ trimZeros ds) : c ∈ ds := by
  obtain ⟨k, hk⟩ := trimZeros_append ds
  rw [hk]
  exact List.mem_append_left _ hc

/-- The decimals that are printed come to the thousandths that they stand for. -/
theorem number_trimZeros {n : Nat} (h : n < 1000) :
    (trimZeros (thousandths n)).length ≤ 3 ∧
      number (trimZeros (thousandths n)) * (second / 10 ^ (trimZeros (thousandths n)).length) = n * 1000000 := by
  obtain ⟨k, hk⟩ := trimZeros_append (thousandths n)
  have hlength : (trimZeros (thousandths n)).length + k = 3 := by
    have hthree := congrArg List.length hk
    rw [List.length_append, List.length_replicate] at hthree
    exact hthree.symm
  have hnumber : n = 10 ^ k * number (trimZeros (thousandths n)) := by
    rw [← number_append_zeros, ← hk, number_thousandths h]
  have hscale : second / 10 ^ (trimZeros (thousandths n)).length = 10 ^ k * 1000000 := by
    have hsecond : second = 10 ^ (trimZeros (thousandths n)).length * (10 ^ k * 1000000) := by
      rw [← Nat.mul_assoc, ← Nat.pow_add, hlength]
      rfl
    rw [hsecond, Nat.mul_div_cancel_left _ (Nat.pow_pos (by decide))]
  refine ⟨by omega, ?_⟩
  rw [hscale, ← Nat.mul_assoc, Nat.mul_comm (number _), ← hnumber]

theorem amount?_decimals (k : Nat) {ds : List Char} (hds : ∀ c ∈ ds, c.isDigit = true) (hne : ds ≠ [])
    (hlength : ds.length ≤ 3) :
    amount? (Nat.toDigits 10 k ++ '.' :: ds) ['s'] =
      some (k * second + number ds * (second / 10 ^ ds.length)) := by
  have hpoint : ∀ cs : List Char, (∀ c ∈ cs, c.isDigit = true) → '.' ∉ cs := by
    intro cs hcs hc
    exact absurd (hcs '.' hc) (by decide)
  have hwhole : ∀ c ∈ Nat.toDigits 10 k, c.isDigit = true := by
    intro c hc
    exact Nat.isDigit_of_mem_toDigits (by decide) (by decide) hc
  have hvalue : number (Nat.toDigits 10 k) = k := Nat.ofDigitChars_ten_toDigits
  rw [amount?, List.splitOn_append_cons_self_of_not_mem (hpoint _ hwhole), List.splitOn_eq_singleton (hpoint _ hds)]
  simp [unitNanos?, hne, hlength, hvalue, Nat.toDigits_ne_nil]

theorem read?_millis (ms : Nat) : read? (millis ms) = some (ms * 1000000) := by
  by_cases hshort : ms < 1000
  · have htext : (millis ms).toList = [Part.whole ms ['m', 's']].flatMap Part.text := by
      simp [millis, hshort, Part.text, Part.whole, toString]
    have hplain : ∀ p ∈ [Part.whole ms ['m', 's']], p.Plain := by
      simpa using Part.plain_whole ms _ (by decide) (by decide)
    rw [read?_parts htext hplain]
    simp [total?, Part.whole, amount?_whole ms ['m', 's'] (u := 1000000) rfl]
  · have hmod : ms % 1000 < 1000 := Nat.mod_lt _ (by decide)
    obtain ⟨hlength, hvalue⟩ := number_trimZeros hmod
    cases hds : trimZeros (thousandths (ms % 1000)) with
    | nil =>
      have htext : (millis ms).toList = [Part.whole (ms / 1000) ['s']].flatMap Part.text := by
        simp [millis, hshort, hds, Part.text, Part.whole, toString]
      have hplain : ∀ p ∈ [Part.whole (ms / 1000) ['s']], p.Plain := by
        simpa using Part.plain_whole (ms / 1000) _ (by decide) (by decide)
      rw [read?_parts htext hplain]
      simp [total?, Part.whole, amount?_whole (ms / 1000) ['s'] (u := second) rfl]
      rw [hds] at hvalue
      simp [number, second] at hvalue ⊢
      omega
    | cons d ds =>
      rw [hds] at hlength hvalue
      have hdigit : ∀ c ∈ d :: ds, c.isDigit = true := by
        intro c hc
        exact isDigit_of_mem_thousandths (mem_of_mem_trimZeros (hds ▸ hc))
      have htext : (millis ms).toList =
          [(⟨Nat.toDigits 10 (ms / 1000) ++ '.' :: d :: ds, ['s']⟩ : Part)].flatMap Part.text := by
        simp [millis, hshort, hds, Part.text, toString]
      have hplain : ∀ p ∈ [(⟨Nat.toDigits 10 (ms / 1000) ++ '.' :: d :: ds, ['s']⟩ : Part)], p.Plain := by
        refine List.forall_mem_singleton.mpr ⟨by simp, by simp, fun c hc => ?_, by simp [isNumeral]⟩
        rcases List.mem_append.mp hc with hc | hc
        · exact (Part.plain_whole (ms / 1000) ['s'] (by decide) (by decide)).isNumeral_numeral c hc
        · rcases List.mem_cons.mp hc with rfl | hc
          · rfl
          · exact Part.isNumeral_of_isDigit (hdigit c hc)
      rw [read?_parts htext hplain]
      simp only [List.flatMap_cons, List.flatMap_nil, List.append_nil, total?,
        amount?_decimals (ms / 1000) hdigit (List.cons_ne_nil d ds) hlength, hvalue]
      simp [second]
      omega

/-! ## What is printed -/

theorem read?_render (n : Nat) : read? (render n) = some (rounded n) := by
  rw [render_eq, rounded, roundHalfUp, unit]
  by_cases hzero : n = 0
  · subst hzero
    decide
  · rw [if_neg hzero]
    split_ifs
    · rw [read?_micros]
      exact congrArg some (by omega)
    · rw [read?_millis]
      exact congrArg some (by omega)
    · rw [read?_clock, second]
      exact congrArg some (by omega)

/-- A nanosecond short of a millisecond, and half a millisecond short of a minute. -/
example : render 999999 = "1000µs" ∧ read? "1000µs" = some 1000000 ∧
    render 59999500000 = "60s" ∧ read? "59.999s" = some 59999000000 := by decide

/-! ## Steps in 128 bits -/

/-- A duration as it is kept: seconds in 64 bits, and the nanoseconds beyond them. -/
structure Stored where
  seconds : UInt64
  subsec : Nat
  subsec_lt : subsec < second

/-- A number that fits 128 bits. -/
def word? (n : Nat) : Option Nat := if n < 2 ^ 128 then some n else none

namespace Stored

variable (d : Stored)

def nanos : Nat := d.seconds.toNat * second + d.subsec

theorem nanos_lt : d.nanos < 2 ^ 64 * second := by
  have hseconds := d.seconds.toNat_lt
  have hsubsec := d.subsec_lt
  simp only [nanos, second] at *
  omega

/-- The durations that are kept are those that fit. -/
theorem exists_nanos_eq_iff {n : Nat} : (∃ d : Stored, d.nanos = n) ↔ fits n = true := by
  constructor
  · rintro ⟨d, rfl⟩
    simpa [fits] using d.nanos_lt
  · intro h
    have hseconds : n / second < 2 ^ 64 := by
      rw [fits, decide_eq_true_eq] at h
      exact Nat.div_lt_of_lt_mul (by rwa [Nat.mul_comm])
    refine ⟨⟨.ofNat (n / second), n % second, Nat.mod_lt _ (by decide)⟩, ?_⟩
    rw [nanos, UInt64.toNat_ofNat_of_lt' hseconds]
    exact Nat.div_add_mod' n second

/-- The whole parts of so many nanoseconds in the duration, worked out from its seconds and the rest. -/
def parts? (length : Nat) : Option Nat := do
  let seconds ← word? (d.seconds.toNat * (second / length))
  word? (seconds + d.subsec / length)

/-- The thousands of those parts, rounded half up. -/
def thousands? (length : Nat) : Option Nat := do
  let parts ← d.parts? length
  return (← word? (parts + 500)) / 1000

/-- The text, unless a step on the way does not fit. -/
def render? : Option String :=
  if d.seconds = 0 ∧ d.subsec = 0 then some "0s"
  else if d.seconds = 0 ∧ d.subsec < 1000000 then (d.thousands? 1).map micros
  else if d.seconds < 60 then (d.thousands? 1000).map millis
  else (d.thousands? 1000000).map clock

theorem thousands?_eq {length : Nat} (hpos : 0 < length) (hdvd : length ∣ second) :
    d.thousands? length = some ((d.nanos / length + 500) / 1000) := by
  obtain ⟨perSecond, hsecond⟩ := hdvd
  have hper : second / length = perSecond := by rw [hsecond, Nat.mul_div_cancel_left _ hpos]
  have hparts : d.nanos / length = d.seconds.toNat * perSecond + d.subsec / length := by
    rw [nanos, hsecond, Nat.mul_left_comm, Nat.mul_add_div hpos]
  have hle : d.nanos / length ≤ d.nanos := Nat.div_le_self _ _
  have hseconds : d.seconds.toNat * perSecond ≤ d.nanos / length := hparts ▸ Nat.le_add_right _ _
  have hlt : d.nanos < 2 ^ 94 := d.nanos_lt.trans (by decide)
  rw [thousands?, parts?, hper, word?, if_pos (by omega)]
  simp only [word?, Option.bind_eq_bind, Option.bind_some, ← hparts]
  rw [if_pos (by omega), Option.bind_some, if_pos (by omega)]
  rfl

/-- No step outgrows 128 bits. -/
theorem render?_eq : d.render? = some (render d.nanos) := by
  have hsubsec := d.subsec_lt
  have hzero : (d.seconds = 0 ∧ d.subsec = 0) ↔ d.nanos = 0 := by
    simp only [nanos, second, ← UInt64.toNat_inj, UInt64.toNat_zero]
    omega
  have hmicro : (d.seconds = 0 ∧ d.subsec < 1000000) ↔ d.nanos < 1000000 := by
    simp only [nanos, second, ← UInt64.toNat_inj, UInt64.toNat_zero]
    omega
  have hminute : d.seconds < 60 ↔ d.nanos < 60 * second := by
    rw [UInt64.lt_iff_toNat_lt]
    simp only [nanos, second] at hsubsec ⊢
    change d.seconds.toNat < 60 ↔ _
    omega
  rw [render_eq, render?, d.thousands?_eq (by decide) (by decide), d.thousands?_eq (by decide) (by decide),
    d.thousands?_eq (by decide) (by decide)]
  simp only [hzero, hmicro, hminute, Option.map_some, Nat.div_one]
  split_ifs <;> rfl

end Stored

/-- The text of a duration reads as the duration rounded half up to a multiple of its unit, a longer duration does
not read as a shorter one, and no step on the way to the text outgrows 128 bits. -/
theorem render_correctly_rounded (d : Stored) :
    read? (render d.nanos) = some (roundHalfUp (unit d.nanos) d.nanos) ∧
      (∀ e : Stored, d.nanos ≤ e.nanos →
        ∃ m n, read? (render d.nanos) = some m ∧ read? (render e.nanos) = some n ∧ m ≤ n) ∧
      d.render? = some (render d.nanos) := by
  refine ⟨read?_render _, fun e h => ?_, d.render?_eq⟩
  exact ⟨_, _, read?_render _, read?_render _, rounded_mono h⟩

end EditorAgent.Duration

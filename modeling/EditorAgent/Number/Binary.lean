/-!
# Binary floating point

The interchange formats as arithmetic on natural numbers. A finite magnitude is `m * 2 ^ q`;
`Format.nearest` rounds a quotient to the format, halves going to the even mantissa.
-/

namespace EditorAgent.Binary

/-- Widths of the stored mantissa and of the exponent. -/
structure Format where
  mantissa : Nat
  exponent : Nat

def half : Format := ⟨10, 5⟩
def single : Format := ⟨23, 8⟩
def double : Format := ⟨52, 11⟩

namespace Format

variable (f : Format)

def bias : Nat := Nat.pow 2 (f.exponent - 1) - 1

/-- The exponent of the last place of a subnormal number. -/
def least : Int := 1 - (f.bias : Int) - f.mantissa

def infinity : Nat := (Nat.pow 2 f.exponent - 1) * Nat.pow 2 f.mantissa

def signBit : Nat := Nat.pow 2 (f.mantissa + f.exponent)

end Format

/-- A stored pattern taken apart; the sign stands beside. -/
inductive Magnitude where
  | finite (m : Nat) (q : Int)
  | infinite
  | nan (payload : Nat)
deriving DecidableEq, Repr

def Format.magnitude (f : Format) (bits : Nat) : Magnitude :=
  let m := bits % Nat.pow 2 f.mantissa
  let e := bits / Nat.pow 2 f.mantissa % Nat.pow 2 f.exponent
  if e = Nat.pow 2 f.exponent - 1 then (if m = 0 then .infinite else .nan m)
  else if e = 0 then .finite m f.least
  else .finite (m + Nat.pow 2 f.mantissa) (f.least + (e - 1 : Nat))

def Format.negative (f : Format) (bits : Nat) : Bool := bits / f.signBit % 2 = 1

/-- `num / den` to the nearest integer, halves to even. -/
def roundDiv (num den : Nat) : Nat :=
  let q := num / den
  let r := num % den
  if 2 * r < den then q else if den < 2 * r then q + 1 else q + q % 2

/-- `num / den / 2 ^ e` to the nearest integer. -/
def scaledRound (num den : Nat) (e : Int) : Nat :=
  match e with
  | .ofNat k => roundDiv num (den * Nat.pow 2 k)
  | .negSucc k => roundDiv (num * Nat.pow 2 (k + 1)) den

/-- The exponent of the last place that keeps `f.mantissa + 1` bits of `num / den`. -/
def Format.placeOf (f : Format) (num den : Nat) : Int :=
  let guess : Int := (Nat.log2 num : Int) - Nat.log2 den
  let low : Bool := match guess with
    | .ofNat k => num < den * Nat.pow 2 k
    | .negSucc k => num * Nat.pow 2 (k + 1) < den
  max f.least ((if low then guess - 1 else guess) - f.mantissa)

/-- The pattern nearest to `num / den`; too large a quotient gives the pattern of infinity. -/
def Format.nearest (f : Format) (num den : Nat) : Nat :=
  if num = 0 then 0
  else
    let e := f.placeOf num den
    let q := scaledRound num den e
    let bits := if q < Nat.pow 2 f.mantissa then q else (e - f.least).toNat * Nat.pow 2 f.mantissa + q
    min bits f.infinity

/-- `m * 2 ^ q` as a quotient. -/
def quotient (m : Nat) (q : Int) : Nat × Nat :=
  match q with
  | .ofNat k => (m * Nat.pow 2 k, 1)
  | .negSucc k => (m, Nat.pow 2 (k + 1))

/-- The pattern in `dst` of a pattern of `src`: rounded if need be, a NaN keeps its leading payload
bits and becomes quiet. -/
def convert (src dst : Format) (bits : Nat) : Nat :=
  let sign := if src.negative bits then dst.signBit else 0
  sign + match src.magnitude bits with
    | .finite m q => dst.nearest (quotient m q).1 (quotient m q).2
    | .infinite => dst.infinity
    | .nan p =>
      let kept := if src.mantissa ≤ dst.mantissa then p * Nat.pow 2 (dst.mantissa - src.mantissa)
        else p / Nat.pow 2 (src.mantissa - dst.mantissa)
      dst.infinity + (kept % Nat.pow 2 (dst.mantissa - 1) + Nat.pow 2 (dst.mantissa - 1))

end EditorAgent.Binary

import EditorAgent.Number.Binary

/-!
# Decimal text of floating-point numbers

`shortest` gives the fewest digits that read back as the same number. `scaled` reads digits and a
power of ten with one rounding for the digits and one for each multiplication or division by a
stored power of ten.
-/

namespace EditorAgent.Decimal

open Binary

/-- A positive decimal `digits * 10 ^ place`. -/
structure Digits where
  digits : Nat
  place : Int
deriving DecidableEq, Repr

/-- The interval of values that round to `m * 2 ^ q`, in units of `2 ^ (q - 2)`. -/
structure Interval where
  lo : Nat
  mid : Nat
  hi : Nat
  closed : Bool
  unit : Int

def interval (m : Nat) (q : Int) : Interval :=
  let narrow := m = Nat.pow 2 double.mantissa ∧ q ≠ double.least
  ⟨if narrow then 4 * m - 1 else 4 * m - 2, 4 * m, 4 * m + 2, m % 2 = 0, q - 2⟩

/-- Numerator and denominator of `2 ^ a / 10 ^ b`. -/
def scale (a b : Int) : Nat × Nat :=
  (Nat.pow 2 a.toNat * Nat.pow 10 (-b).toNat, Nat.pow 2 (-a).toNat * Nat.pow 10 b.toNat)

/-- The digit string of the grid `10 ^ place` nearest to the middle, if one lies in the interval. -/
def onGrid (i : Interval) (place : Int) : Option Nat :=
  let (n, d) := scale i.unit place
  let below := i.mid * n / d
  let inside (x : Nat) : Bool :=
    if i.closed then i.lo * n ≤ x * d && x * d ≤ i.hi * n
    else i.lo * n < x * d && x * d < i.hi * n
  let gapBelow := i.mid * n - below * d
  let gapAbove := (below + 1) * d - i.mid * n
  match decide (below ≠ 0) && inside below, inside (below + 1) with
  | true, true =>
    some (if gapBelow < gapAbove then below
      else if gapAbove < gapBelow then below + 1
      else below + below % 2)
  | true, false => some below
  | false, true => some (below + 1)
  | false, false => none

/-- The number of digits before the point of `m * 2 ^ q`, at most zero for a fraction. -/
def leading (m : Nat) (q : Int) : Int :=
  let (n, d) := quotient m q
  let guess := ((Nat.log2 m : Int) + q) * 30103 / 100000
  let reach (k : Int) : Bool := d * Nat.pow 10 k.toNat ≤ n * Nat.pow 10 (-k).toNat
  if reach (guess + 1) then guess + 2 else if reach guess then guess + 1 else guess

def trim : Nat → Digits → Digits
  | 0, x => x
  | n + 1, x => if x.digits % 10 = 0 then trim n ⟨x.digits / 10, x.place + 1⟩ else x

def search (i : Interval) (top : Int) : Nat → Digits
  | 0 => ⟨(onGrid i (top - 17)).getD 0, top - 17⟩
  | n + 1 =>
    let place := top - (17 - n : Nat)
    match onGrid i place with
    | some x => ⟨x, place⟩
    | none => search i top n

/-- The shortest decimal of `m * 2 ^ q`, for `0 < m`. -/
def shortest (m : Nat) (q : Int) : Digits :=
  trim 20 (search (interval m q) (leading m q) 17)

/-- How a number is laid out in text. -/
structure Layout where
  /-- Exponents of the leading digit from here on … -/
  plainFrom : Int
  /-- … and below here are written without an exponent. -/
  plainBelow : Int
  /-- The mark before a positive exponent. -/
  plus : String

def digitText (n : Nat) : List Char := Nat.toDigits 10 n

def Layout.write (l : Layout) (x : Digits) : String :=
  let ds := digitText x.digits
  let e : Int := x.place + ds.length - 1
  if l.plainFrom ≤ e ∧ e < l.plainBelow then
    if 0 ≤ x.place then
      String.ofList (ds ++ List.replicate x.place.toNat '0' ++ ['.', '0'])
    else if 0 ≤ e then
      String.ofList (ds.take (e.toNat + 1) ++ '.' :: ds.drop (e.toNat + 1))
    else
      String.ofList ('0' :: '.' :: List.replicate (-e - 1).toNat '0' ++ ds)
  else
    let head := match ds with
      | [] => []
      | [c] => [c]
      | c :: r => c :: '.' :: r
    let sign := if e < 0 then "-" else l.plus
    String.ofList head ++ "e" ++ sign ++ String.ofList (digitText e.natAbs)

/-- Texts of the numbers in messages: positional from 0.00001 to below 10 ^ 16. -/
def messageLayout : Layout := ⟨-5, 16, "+"⟩

/-- The text of a finite double, `none` for a NaN or an infinity. -/
def text? (l : Layout) (bits : UInt64) : Option String :=
  let sign := if double.negative bits.toNat then "-" else ""
  match double.magnitude bits.toNat with
  | .finite 0 _ => some (sign ++ "0.0")
  | .finite m q => some (sign ++ l.write (shortest m q))
  | _ => none

/-- The product of two finite patterns without sign, rounded. -/
def mulBits (x y : Nat) : Nat :=
  match double.magnitude x, double.magnitude y with
  | .finite m q, .finite n r => let (a, b) := quotient (m * n) (q + r); double.nearest a b
  | _, _ => double.infinity

/-- The quotient of two finite patterns without sign, rounded. -/
def divBits (x y : Nat) : Nat :=
  match double.magnitude x, double.magnitude y with
  | .finite m q, .finite n r =>
    let (a, b) := quotient 1 (q - r)
    double.nearest (m * a) (n * b)
  | _, _ => 0

def powerBits (n : Nat) : Nat := double.nearest (Nat.pow 10 n) 1

/-- The largest power of ten with a finite pattern. -/
def topPower : Nat := 308

/-- Divides by `10 ^ n` in steps of at most `10 ^ 308`. -/
def divPower (x : Nat) : Nat → Nat → Nat
  | 0, _ => 0
  | fuel + 1, n =>
    if n ≤ topPower then divBits x (powerBits n)
    else if x = 0 then 0
    else divPower (divBits x (powerBits topPower)) fuel (n - topPower)

/-- `significand * 10 ^ e` by stored powers of ten; `none` if the result is too large. -/
def scaled (significand : Nat) (e : Int) : Option Nat :=
  let x := double.nearest significand 1
  match e with
  | .ofNat k =>
    if k ≤ topPower then
      let r := mulBits x (powerBits k)
      if r = double.infinity then none else some r
    else if x = 0 then some 0 else none
  | .negSucc k => some (divPower x ((k + 1) / topPower + 2) (k + 1))

end EditorAgent.Decimal

import EditorAgent.Text.Utf8

/-!
# Secure hashes

The SHA-2 family over words of `w` bits. The round constants are what their definition says: the
leading fractional bits of the roots of the first primes.
-/

namespace EditorAgent.Digest

/-- The largest `r < 2 ^ bits` above `acc` with `r ^ k ≤ n`, found bit by bit. -/
def root (k n : Nat) : Nat → Nat → Nat
  | 0, acc => acc
  | b + 1, acc => root k n b (if Nat.pow (acc + Nat.pow 2 b) k ≤ n then acc + Nat.pow 2 b else acc)

def isPrime (n : Nat) : Bool := 2 ≤ n && (List.range n).all fun d => d < 2 || n % d != 0

def primes (count : Nat) : List Nat := ((List.range 410).filter isPrime).take count

/-- The first `w` fractional bits of the `k`-th root of `p`. -/
def rootBits (w k p : Nat) : BitVec w := BitVec.ofNat w (root k (p * Nat.pow 2 (k * w)) (w + 5) 0)

/-- Parameters of one member of the family. -/
structure Sha2 (w : Nat) where
  rounds : Nat
  bigSigma0 : Nat × Nat × Nat
  bigSigma1 : Nat × Nat × Nat
  smallSigma0 : Nat × Nat × Nat
  smallSigma1 : Nat × Nat × Nat

def sha256Family : Sha2 32 := ⟨64, (2, 13, 22), (6, 11, 25), (7, 18, 3), (17, 19, 10)⟩
def sha512Family : Sha2 64 := ⟨80, (28, 34, 39), (14, 18, 41), (1, 8, 7), (19, 61, 6)⟩

variable {w : Nat}

def rotations (r : Nat × Nat × Nat) (x : BitVec w) : BitVec w :=
  x.rotateRight r.1 ^^^ x.rotateRight r.2.1 ^^^ x.rotateRight r.2.2

def rotationsShift (r : Nat × Nat × Nat) (x : BitVec w) : BitVec w :=
  x.rotateRight r.1 ^^^ x.rotateRight r.2.1 ^^^ (x >>> r.2.2)

/-- Big-endian words of a byte string. -/
def words (w : Nat) : Bytes → List (BitVec w)
  | [] => []
  | b :: r =>
    let head := (b :: r).take (w / 8)
    BitVec.ofNat w (head.foldl (fun n x => n * 256 + x.toNat) 0) :: words w (r.drop (w / 8 - 1))
termination_by s => s.length
decreasing_by simp only [List.length_drop, List.length_cons]; omega

def wordBytes (x : BitVec w) : Bytes :=
  (List.range (w / 8)).map fun i => UInt8.ofNat (x.toNat / Nat.pow 256 (w / 8 - 1 - i))

def lengthBytes (n count : Nat) : Bytes :=
  (List.range count).map fun i => UInt8.ofNat (n / Nat.pow 256 (count - 1 - i))

/-- The message, a one bit, zeros, and the length in bits, filling whole blocks of 16 words. -/
def pad (w : Nat) (s : Bytes) : Bytes :=
  let block := 2 * w
  let field := w / 4
  let used := (s.length + 1 + field) % block
  s ++ 0x80 :: List.replicate ((block - used) % block) 0 ++ lengthBytes (s.length * 8) field

/-- The message schedule, newest word first. -/
def schedule (p : Sha2 w) : Nat → List (BitVec w) → List (BitVec w)
  | 0, ws => ws
  | n + 1, ws =>
    let at_ (i : Nat) := ws.getD (i - 1) 0
    schedule p n
      ((rotationsShift p.smallSigma1 (at_ 2) + at_ 7 + rotationsShift p.smallSigma0 (at_ 15)
        + at_ 16) :: ws)

structure Chain (w : Nat) where
  a : BitVec w
  b : BitVec w
  c : BitVec w
  d : BitVec w
  e : BitVec w
  f : BitVec w
  g : BitVec w
  h : BitVec w

def Chain.add (x y : Chain w) : Chain w :=
  ⟨x.a + y.a, x.b + y.b, x.c + y.c, x.d + y.d, x.e + y.e, x.f + y.f, x.g + y.g, x.h + y.h⟩

def Chain.toList (x : Chain w) : List (BitVec w) := [x.a, x.b, x.c, x.d, x.e, x.f, x.g, x.h]

def round (p : Sha2 w) (s : Chain w) (kw : BitVec w × BitVec w) : Chain w :=
  let choose := (s.e &&& s.f) ^^^ (~~~s.e &&& s.g)
  let majority := (s.a &&& s.b) ^^^ (s.a &&& s.c) ^^^ (s.b &&& s.c)
  let t1 := s.h + rotations p.bigSigma1 s.e + choose + kw.1 + kw.2
  let t2 := rotations p.bigSigma0 s.a + majority
  ⟨t1 + t2, s.a, s.b, s.c, s.d + t1, s.e, s.f, s.g⟩

def compress (p : Sha2 w) (ks : List (BitVec w)) (s : Chain w) (block : List (BitVec w)) : Chain w :=
  let ws := (schedule p (p.rounds - 16) block.reverse).reverse
  s.add ((ks.zip ws).foldl (round p) s)

def blocks {α : Type} (n : Nat) : Nat → List α → List (List α)
  | 0, _ => []
  | k + 1, xs => xs.take n :: blocks n k (xs.drop n)

def start (w : Nat) : Chain w :=
  let r i := rootBits w 2 i
  ⟨r 2, r 3, r 5, r 7, r 11, r 13, r 17, r 19⟩

def roundConstants (w rounds : Nat) : List (BitVec w) := (primes rounds).map (rootBits w 3)

def hash (p : Sha2 w) (ks : List (BitVec w)) (s : Bytes) : Bytes :=
  let ws := words w (pad w s)
  ((blocks 16 (ws.length / 16) ws).foldl (compress p ks) (start w)).toList.flatMap wordBytes

def sha256Constants : List (BitVec 32) := roundConstants 32 64
def sha512Constants : List (BitVec 64) := roundConstants 64 80

def sha256 (s : Bytes) : Bytes := hash sha256Family sha256Constants s
def sha512 (s : Bytes) : Bytes := hash sha512Family sha512Constants s

def hexDigit (n : Nat) : Char := Char.ofNat (if n < 10 then 48 + n else 87 + n)

/-- Two lower-case digits a byte. -/
def hex (s : Bytes) : String :=
  String.ofList (s.flatMap fun b => [hexDigit (b.toNat / 16), hexDigit (b.toNat % 16)])

end EditorAgent.Digest

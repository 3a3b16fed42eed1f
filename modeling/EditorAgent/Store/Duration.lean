/-!
# Durations

Lengths of time in nanoseconds and their text: microseconds below a millisecond, milliseconds below a
minute, seconds from there on, each rounded half up.
-/

namespace EditorAgent.Duration

def second : Nat := 1000000000

/-- Whether the seconds still fit 64 bits. -/
def fits (nanos : Nat) : Bool := nanos < 0x10000000000000000 * second

/-- Digits after the point without the zeros at the end. -/
def trimZeros (ds : List Char) : List Char := (ds.reverse.dropWhile (· == '0')).reverse

/-- Thousandths as three digits. -/
def thousandths (n : Nat) : List Char :=
  [n / 100 % 10, n / 10 % 10, n % 10].map fun d => Char.ofNat (48 + d)

def render (nanos : Nat) : String :=
  if nanos = 0 then "0s"
  else if nanos < 1000000 then s!"{(nanos + 500) / 1000}µs"
  else if nanos < 60 * second then
    let ms := (nanos / 1000 + 500) / 1000
    if ms < 1000 then s!"{ms}ms"
    else
      let whole := toString (ms / 1000)
      match trimZeros (thousandths (ms % 1000)) with
      | [] => whole ++ "s"
      | ds => whole ++ "." ++ String.ofList ds ++ "s"
  else
    let total := (nanos / 1000000 + 500) / 1000
    let h := total / 3600
    let m := total % 3600 / 60
    let s := total % 60
    if 0 < h then s!"{h}h{m}m{s}s" else s!"{m}m{s}s"

end EditorAgent.Duration

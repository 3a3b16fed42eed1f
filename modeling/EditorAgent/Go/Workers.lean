import EditorAgent.Text.Blank

/-!
# Workers

How many dependencies of a package are imported at a time: what was configured, or else what the process
was started with, or else one for each processor; at least one and at most `maxWorkers`.
-/

namespace EditorAgent.Go

def maxWorkers : Nat := 64

def clampWorkers (n : Nat) : Nat := min (max n 1) maxWorkers

/-- A number of 64 bits, with an optional plus sign. -/
def number64? (s : String) : Option Nat :=
  let digits := match s.toList with
    | '+' :: r => r
    | r => r
  if digits.isEmpty || !digits.all Char.isDigit then none
  else
    let n := digits.foldl (fun n c => n * 10 + (c.toNat - 48)) 0
    if n < 0x10000000000000000 then some n else none

/-- The number of workers of a process, from the text of its environment; what is no number is ignored. -/
def processWorkers (raw : Option String) (processors : Nat) : Nat :=
  clampWorkers ((raw.bind fun s => number64? (Text.trim s)).getD (clampWorkers processors))

/-- The number of workers for an import; zero stands for that of the process. -/
def effectiveWorkers (configured process : Nat) : Nat :=
  if configured = 0 then process else clampWorkers configured

end EditorAgent.Go

/-!
# Ranges of code points
-/

namespace EditorAgent.Text

def inRanges (rs : List (Nat × Nat)) (n : Nat) : Bool := rs.any fun r => r.1 ≤ n && n ≤ r.2

end EditorAgent.Text

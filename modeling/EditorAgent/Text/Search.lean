/-!
# Last occurrences
-/

namespace EditorAgent.Text

/-- Cuts a list at the last place where `p` stands. -/
def cutLastChars (p : List Char) : List Char → Option (List Char × List Char)
  | [] => if p.isEmpty then some ([], []) else none
  | c :: r => match cutLastChars p r with
    | some (before, after) => some (c :: before, after)
    | none => if p.isPrefixOf (c :: r) then some ([], (c :: r).drop p.length) else none

/-- The texts before and after the last `p`. -/
def cutLast? (s p : String) : Option (String × String) :=
  (cutLastChars p.toList s.toList).map fun x => (String.ofList x.1, String.ofList x.2)

/-- The text after the last `p`, or all of it. -/
def afterLast (s p : String) : String :=
  match cutLast? s p with
  | some (_, after) => after
  | none => s

end EditorAgent.Text

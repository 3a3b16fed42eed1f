import EditorAgent.Text.Blank
import EditorAgent.Text.Digit

/-!
# Build constraints

An expression over tags with `!`, `&&`, `||` and parentheses; both operators associate to the left, and
`&&` binds more tightly.
-/

namespace EditorAgent.Go

inductive Constraint where
  | tag (name : String)
  | not (x : Constraint)
  | and (x y : Constraint)
  | or (x y : Constraint)
deriving DecidableEq, Repr, Inhabited

namespace Constraint

def eval (ok : String → Bool) : Constraint → Bool
  | .tag name => ok name
  | .not x => !x.eval ok
  | .and x y => x.eval ok && y.eval ok
  | .or x y => x.eval ok || y.eval ok

inductive Tok where
  | lparen
  | rparen
  | not
  | and
  | or
  | tag (name : String)
deriving DecidableEq, Repr, Inhabited

def isTagChar (c : Char) : Bool := Text.isAlphanumeric c || c = '_' || c = '.'

/-- The tokens of a text; `tag` holds the characters of the tag that is being read, last first. -/
def lexFrom (tag : List Char) : List Char → Option (List Tok)
  | [] => some (pending tag)
  | c :: r =>
    if isTagChar c then lexFrom (c :: tag) r
    else (match c with
      | ' ' => lexFrom [] r
      | '\t' => lexFrom [] r
      | '(' => (lexFrom [] r).map (.lparen :: ·)
      | ')' => (lexFrom [] r).map (.rparen :: ·)
      | '!' => (lexFrom [] r).map (.not :: ·)
      | '&' => match r with
        | '&' :: r => (lexFrom [] r).map (.and :: ·)
        | _ => none
      | '|' => match r with
        | '|' :: r => (lexFrom [] r).map (.or :: ·)
        | _ => none
      | _ => none).map (pending tag ++ ·)
where
  pending (tag : List Char) : List Tok :=
    if tag.isEmpty then [] else [.tag (String.ofList tag.reverse)]

def lex (s : String) : Option (List Tok) := lexFrom [] s.toList

mutual

def parseOr (s : List Tok) : Option (Constraint × { r : List Tok // r.length < s.length }) :=
  match parseAnd s with
  | none => none
  | some (x, r) => match parseOrs x r.1 with
    | none => none
    | some (y, t) => some (y, ⟨t.1, Nat.lt_of_le_of_lt t.2 r.2⟩)
termination_by (s.length, 3)

/-- The operands after the first of a disjunction. -/
def parseOrs (x : Constraint) (s : List Tok) :
    Option (Constraint × { r : List Tok // r.length ≤ s.length }) :=
  match s with
  | .or :: r => match parseAnd r with
    | none => none
    | some (y, t) => match parseOrs (.or x y) t.1 with
      | none => none
      | some (z, u) =>
        some (z, ⟨u.1, by have := u.2; have := t.2; simp only [List.length_cons]; omega⟩)
  | s => some (x, ⟨s, Nat.le_refl _⟩)
termination_by (s.length, 0)
decreasing_by
  · simp_wf; omega
  · have := t.2; simp_wf; omega

def parseAnd (s : List Tok) : Option (Constraint × { r : List Tok // r.length < s.length }) :=
  match parseNot s with
  | none => none
  | some (x, r) => match parseAnds x r.1 with
    | none => none
    | some (y, t) => some (y, ⟨t.1, Nat.lt_of_le_of_lt t.2 r.2⟩)
termination_by (s.length, 2)

/-- The operands after the first of a conjunction. -/
def parseAnds (x : Constraint) (s : List Tok) :
    Option (Constraint × { r : List Tok // r.length ≤ s.length }) :=
  match s with
  | .and :: r => match parseNot r with
    | none => none
    | some (y, t) => match parseAnds (.and x y) t.1 with
      | none => none
      | some (z, u) =>
        some (z, ⟨u.1, by have := u.2; have := t.2; simp only [List.length_cons]; omega⟩)
  | s => some (x, ⟨s, Nat.le_refl _⟩)
termination_by (s.length, 0)
decreasing_by
  · simp_wf; omega
  · have := t.2; simp_wf; omega

def parseNot (s : List Tok) : Option (Constraint × { r : List Tok // r.length < s.length }) :=
  match s with
  | .not :: r => match parseNot r with
    | none => none
    | some (x, t) =>
      some (.not x, ⟨t.1, by have := t.2; simp only [List.length_cons]; omega⟩)
  | .lparen :: r => match parseOr r with
    | some (x, ⟨.rparen :: t, h⟩) =>
      some (x, ⟨t, by simp only [List.length_cons] at h ⊢; omega⟩)
    | _ => none
  | .tag name :: r => some (.tag name, ⟨r, by simp⟩)
  | _ => none
termination_by (s.length, 1)

end

/-- Reads a text that is an expression as a whole. -/
def parse (s : String) : Option Constraint :=
  match lex s with
  | none => none
  | some toks => match parseOr toks with
    | some (x, ⟨[], _⟩) => some x
    | _ => none

end Constraint
end EditorAgent.Go

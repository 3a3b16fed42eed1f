import EditorAgent.Syntax.Token
import EditorAgent.Text.Utf8

/-!
# Source text

A text as its letters, places in it, and the search for a token at a place.
-/

namespace EditorAgent.Syntax

/-- A place in a text, or the way between two: bytes, rows, and bytes in the last row. -/
structure Extent where
  bytes : Nat := 0
  rows : Nat := 0
  cols : Nat := 0
deriving DecidableEq, Repr, Inhabited

namespace Extent

instance : Add Extent where
  add a b := ⟨a.bytes + b.bytes, a.rows + b.rows, if b.rows > 0 then b.cols else a.cols + b.cols⟩

/-- The way from `b` to `a`. -/
instance : Sub Extent where
  sub a b := ⟨a.bytes - b.bytes, a.rows - b.rows, if a.rows > b.rows then a.cols else a.cols - b.cols⟩

end Extent

/-- A character, or a byte that belongs to none. -/
structure Glyph where
  letter : Nat
  size : Nat
  isByteOrderMark : Bool := false
deriving DecidableEq, Repr, Inhabited

structure Source where
  bytes : Array UInt8
  /-- By byte, the glyph that starts there. -/
  glyphs : Array Glyph
deriving Inhabited

namespace Source

/-- The glyphs of a text whose first `within` bytes belong to a glyph before. -/
def glyphsOf : Nat → Bytes → List Glyph
  | _, [] => []
  | within + 1, _ :: r => default :: glyphsOf within r
  | 0, b :: r =>
    match Utf8.step (b :: r) with
    | .char c _ => ⟨Letters.ofChar c, c.utf8Size, c.toNat = 0xFEFF⟩ :: glyphsOf (c.utf8Size - 1) r
    | _ => ⟨Letters.other, 1, false⟩ :: glyphsOf 0 r

def ofBytes (bs : Bytes) : Source := ⟨bs.toArray, (glyphsOf 0 bs).toArray⟩

variable (s : Source)

def size : Nat := s.bytes.size

def atEnd (p : Extent) : Bool := p.bytes ≥ s.size

/-- The letter at a place; at the end it is NUL. -/
def letter (p : Extent) : Nat := (s.glyphs[p.bytes]?.map (·.letter)).getD 0

def advance (p : Extent) : Extent :=
  match s.glyphs[p.bytes]? with
  | none => p
  | some g => if g.letter = 10 then ⟨p.bytes + g.size, p.rows + 1, 0⟩ else ⟨p.bytes + g.size, p.rows, p.cols + g.size⟩

/-- Skips the mark that a text may start with. -/
def skipMark (p : Extent) : Extent :=
  if p.bytes = 0 && (s.glyphs[0]?.any (·.isByteOrderMark)) then s.advance p else p

/-- The text between two places; empty if it is not well formed. -/
def text (start size : Nat) : String :=
  (Utf8.decode? (s.bytes.extract start (start + size)).toList).getD ""

/-- The letters between two places. -/
def lettersOf (start size : Nat) : List Nat :=
  ((s.glyphs.extract start (start + size)).toList.filter (·.size > 0)).map (·.letter)

end Source

/-- The outcome of a search for a token. -/
structure Scan where
  /-- The longest token found. -/
  symbol : Option Nat
  start : Extent
  stop : Extent
  /-- How far was read. -/
  place : Extent
deriving Repr, Inhabited

namespace Scan

/-- Reads on with these threads. The end of the input counts as a token if nothing but blanks came before it. -/
def go (lx : Lexicon) (src : Source) : Nat → List Thread → Bool → Scan → Scan
  | 0, _, _, s => s
  | n + 1, ts, ends, s =>
    let s := match lx.complete? ts with
      | some t => { s with symbol := some t, stop := s.place }
      | none => s
    if ends && src.atEnd s.place then { s with symbol := some 0, stop := s.place }
    else match lx.step? ts (src.letter s.place) with
      | none => s
      | some m =>
        let place := src.advance s.place
        go lx src n m.threads (ends && m.skips)
          { s with place, start := if m.skips then place else s.start }

/-- Looks for one of the tokens that `ts` match. A token that is complete before the blanks read after it starts
where it ends. -/
def run (lx : Lexicon) (src : Source) (ts : List Thread) (ends : Bool) (p : Extent) : Scan :=
  let p := src.skipMark p
  let s := go lx src (src.size - p.bytes + 2) ts ends ⟨none, p, p, p⟩
  if s.symbol.isSome && s.stop.bytes < s.start.bytes then { s with start := s.stop } else s

end Scan
end EditorAgent.Syntax

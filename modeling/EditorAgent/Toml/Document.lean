import EditorAgent.Toml.Scalar

/-!
# Settings files

A TOML document as a table. A table may be opened once by a header; tables named on the way to another may
still be opened, and only tables made by dotted keys take values from dotted keys.
-/

namespace EditorAgent.Toml

/-- How a table came about. -/
inductive Origin where
  /-- By its own header. -/
  | header
  /-- On the way to another header. -/
  | implied
  /-- By a dotted key. -/
  | dotted
deriving DecidableEq, Repr

inductive Item where
  | scalar (s : Scalar)
  /-- An array, or a table in braces: nothing is added to it later. -/
  | closed
  | table (origin : Origin) (entries : List (String × Item))
  /-- Tables of one name; headers go on with the last. -/
  | tables (before : Nat) (last : List (String × Item))
deriving Repr

abbrev Table := List (String × Item)

def Table.get? (t : Table) (k : String) : Option Item := (t.find? (·.1 == k)).map (·.2)

def Table.set (t : Table) (k : String) (i : Item) : Table :=
  if t.any (·.1 == k) then t.map fun e => if e.1 == k then (k, i) else e else t ++ [(k, i)]

/-- Sets a value under a dotted key. The way may lead through tables that a header implies and through the last of
several, but only a table made by dotted keys, or the one that `isOpen`, takes the value. -/
def Table.assign (t : Table) (isOpen : Bool) : List String → Item → Option Table
  | [], _ => none
  | [k], i => if isOpen && (t.get? k).isNone then some (t.set k i) else none
  | k :: path, i =>
    match t.get? k with
    | none => (Table.assign [] true path i).map fun inner => t.set k (.table .dotted inner)
    | some (.table .header _) => none
    | some (.table origin inner) =>
      (Table.assign inner (origin == .dotted) path i).map fun inner => t.set k (.table origin inner)
    | some (.tables n last) =>
      (Table.assign last false path i).map fun last => t.set k (.tables n last)
    | some _ => none

/-- Changes the table at the end of a header's path, which the headers before have opened. -/
def Table.within (t : Table) : List String → (Table → Option Table) → Option Table
  | [], f => f t
  | k :: path, f =>
    match t.get? k with
    | none => (Table.within [] path f).map fun inner => t.set k (.table .implied inner)
    | some (.table origin inner) => (Table.within inner path f).map fun inner => t.set k (.table origin inner)
    | some (.tables n last) => (Table.within last path f).map fun last => t.set k (.tables n last)
    | some _ => none

/-- Opens a table by its header. -/
def Table.openHeader (t : Table) (k : String) : Option Table :=
  match t.get? k with
  | none => some (t.set k (.table .header []))
  | some (.table .implied inner) => some (t.set k (.table .header inner))
  | some _ => none

/-- Opens one more table of a name. -/
def Table.openNext (t : Table) (k : String) : Option Table :=
  match t.get? k with
  | none => some (t.set k (.tables 0 []))
  | some (.tables n _) => some (t.set k (.tables (n + 1) []))
  | some _ => none

/-! ## Reading -/

def isBareChar (c : Char) : Bool := c.isAlphanum || c == '_' || c == '-'

/-- A part of a key: bare, or a string on one line. -/
def keyPart : Take String := fun s =>
  match s with
  | [] => none
  | c :: r =>
    if c = '"' then basic (r.length + 1) [] r
    else if c = tick then literal tick (r.length + 1) [] r
    else
      let w := s.takeWhile isBareChar
      if w.isEmpty then none else some (String.ofList w, s.dropWhile isBareChar)

def maxDepth : Nat := 80

/-- A key of at most so many parts, parted by dots. -/
def key : Nat → Take (List String)
  | 0, _ => none
  | n + 1, s => match keyPart (skipBlank s) with
    | none => none
    | some (k, r) => match skipBlank r with
      | '.' :: r => (key n r).map fun x => (k :: x.1, x.2)
      | r => some ([k], r)

/-- The text after a comment, if one stands here. -/
def skipComment (s : List Char) : Option (List Char) :=
  match s with
  | '#' :: r =>
    let rest := r.dropWhile fun c => !isControl c
    if rest.isEmpty || (newline? rest).isSome then some rest else none
  | s => some s

/-- The text after blanks, comments and line endings. -/
def skipLines : Nat → List Char → Option (List Char)
  | 0, _ => none
  | n + 1, s => match skipComment (skipBlank s) with
    | none => none
    | some r => match newline? r with
      | some r => skipLines n r
      | none => some r

/-- The end of a line. -/
def lineEnd (s : List Char) : Option (List Char) :=
  match skipComment (skipBlank s) with
  | none => none
  | some [] => some []
  | some r => newline? r

/-- The values of an array after its bracket; `value` reads one. -/
def elements (value : Take Item) : Nat → List Char → Option (List Char)
  | 0, _ => none
  | n + 1, s => match skipLines (s.length + 1) s with
    | some (']' :: r) => some r
    | some r => match value r with
      | none => none
      | some (_, r) => match skipLines (r.length + 1) r with
        | some (',' :: r) => elements value n r
        | some (']' :: r) => some r
        | _ => none
    | none => none

/-- The entries of a table in braces after the first is expected. -/
def inlineEntries (value : Take Item) : Nat → Table → List Char → Option (List Char)
  | 0, _, _ => none
  | n + 1, t, s => match key (maxDepth - 1) s with
    | some (k, '=' :: r) => match value (skipBlank r) with
      | none => none
      | some (i, r) => match t.assign true k i with
        | none => none
        | some t => match skipBlank r with
          | ',' :: r => inlineEntries value n t r
          | '}' :: r => some r
          | _ => none
    | _ => none

/-- A value in which containers are nested less deeply than the number says. -/
def value : Nat → Take Item
  | 0, _ => none
  | n + 1, s => match s with
    | '[' :: r => if n = 0 then none else (elements (value n) (r.length + 1) r).map (.closed, ·)
    | '{' :: r =>
      if n = 0 then none
      else match skipBlank r with
        | '}' :: r => some (.closed, r)
        | r => (inlineEntries (value n) (r.length + 1) [] r).map (.closed, ·)
    | c :: _ =>
      if c = '"' || c = tick then (string s).map fun x => (.scalar (.text x.1), x.2)
      else (plain s).map fun x => (.scalar x.1, x.2)
    | [] => none

/-- A document under way: the table and the path of the open header. -/
structure Draft where
  root : Table
  header : List String

/-- Opens the table of a header. -/
def Draft.enter (d : Draft) (path : List String) (array : Bool) : Option Draft :=
  match path.getLast? with
  | none => none
  | some k =>
    let opened := d.root.within path.dropLast fun t => if array then t.openNext k else t.openHeader k
    opened.map fun root => ⟨root, path⟩

def Draft.assign (d : Draft) (path : List String) (i : Item) : Option Draft :=
  (d.root.within d.header fun t => t.assign true path i).map fun root => { d with root }

/-- A line that is neither empty nor only a comment. -/
def line (d : Draft) (s : List Char) : Option (Draft × List Char) :=
  match s with
  | '[' :: '[' :: r => match key (maxDepth - 1) r with
    | some (path, ']' :: ']' :: r) => (d.enter path true).map (·, r)
    | _ => none
  | '[' :: r => match key (maxDepth - 1) r with
    | some (path, ']' :: r) => (d.enter path false).map (·, r)
    | _ => none
  | s => match key (maxDepth - 1) s with
    | some (path, '=' :: r) => match value maxDepth (skipBlank r) with
      | some (i, r) => (d.assign path i).map (·, r)
      | none => none
    | _ => none

def document : Nat → Draft → List Char → Option Table
  | 0, _, _ => none
  | n + 1, d, s => match skipLines (s.length + 1) s with
    | none => none
    | some [] => some d.root
    | some r => match line d r with
      | none => none
      | some (d, r) => match lineEnd r with
        | none => none
        | some r => document n d r

/-- The table of a document; a mark of the byte order may precede it. -/
def parse (text : String) : Option Table :=
  let s := match text.toList with
    | c :: r => if c.toNat = 0xFEFF then r else c :: r
    | [] => []
  document (s.length + 1) ⟨[], []⟩ s

end EditorAgent.Toml

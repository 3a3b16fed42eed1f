import EditorAgent.Text.Utf8

/-!
# Message values

The data model that all codecs write. A table keeps its entries in order; `Value.ofEntries` gives the
table of a mapping read from a message: sorted by key, the last of equal keys kept.
-/

namespace EditorAgent

inductive Value where
  | null
  /-- The only value of a type that carries nothing. -/
  | unit
  | bool (b : Bool)
  | int (i : Int)
  /-- A double, as its bit pattern. -/
  | float (bits : UInt64)
  | text (s : String)
  | bytes (b : Bytes)
  | list (xs : List Value)
  | table (entries : List (String × Value))
deriving BEq, Repr, Inhabited

/-- Sets a key of a list sorted by key. -/
def sortedInsert {α : Type} (k : String) (v : α) : List (String × α) → List (String × α)
  | [] => [(k, v)]
  | (k', v') :: r =>
    if k < k' then (k, v) :: (k', v') :: r
    else if k = k' then (k, v) :: r
    else (k', v') :: sortedInsert k v r

def sortedOfEntries {α : Type} (entries : List (String × α)) : List (String × α) :=
  entries.foldl (fun t e => sortedInsert e.1 e.2 t) []

namespace Value

def ofEntries (entries : List (String × Value)) : Value := .table (sortedOfEntries entries)

def nat (n : Nat) : Value := .int n

def texts (xs : List String) : Value := .list (xs.map .text)

/-- The entry of a table. -/
def get? (v : Value) (key : String) : Option Value :=
  match v with
  | .table entries => (entries.find? (·.1 == key)).map (·.2)
  | _ => none

def isNull : Value → Bool
  | .null => true
  | _ => false

/-- The elements of a list; other values have none. -/
def items : Value → List Value
  | .list xs => xs
  | _ => []

/-- The entries of a table; other values have none. -/
def entries : Value → List (String × Value)
  | .table es => es
  | _ => []

end Value
end EditorAgent

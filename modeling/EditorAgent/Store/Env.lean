import EditorAgent.Codec.Reader
import EditorAgent.Text.Blank

/-!
# Environments

Variables sorted by name, one value each.
-/

namespace EditorAgent

structure Env where
  entries : List (String × String)
deriving DecidableEq, Repr, Inhabited

namespace Env

def empty : Env := ⟨[]⟩

def ofList (entries : List (String × String)) : Env := ⟨sortedOfEntries entries⟩

def get? (e : Env) (k : String) : Option String := (e.entries.find? (·.1 == k)).map (·.2)

def insert (e : Env) (k v : String) : Env := ⟨sortedInsert k v e.entries⟩

/-- Every variable of `other` overrides. -/
def merge (e other : Env) : Env := other.entries.foldl (fun e kv => e.insert kv.1 kv.2) e

/-- The value, or `default` if it is unset or empty. -/
def getD (e : Env) (k default : String) : String :=
  match e.get? k with
  | some v => if v = "" then default else v
  | none => default

/-- `KEY=value` texts. -/
def assignments (e : Env) : List String := e.entries.map fun kv => kv.1 ++ "=" ++ kv.2

/-- The elements of a list-valued variable, separated by colons. -/
def list (e : Env) (k : String) : List String :=
  match e.get? k with
  | some v => (Text.split (· == ':') v).filter (· != "")
  | none => []

def size (e : Env) : Nat := e.entries.length

def toValue (e : Env) : Value := .table (e.entries.map fun kv => (kv.1, .text kv.2))

def reader (d : Dialect) : Reader Env := (d.table d.text).map ofList

instance : Message Env := ⟨reader, toValue⟩

end Env
end EditorAgent

import EditorAgent.Text.Blank
import EditorAgent.Text.Utf8

/-!
# Disks

A disk is what stands at each location. A path is followed from the root: a link on the way is replaced
by its target, and one at the end too unless it is asked for itself.
-/

namespace EditorAgent

/-- The names that lead from the root to a place. -/
abbrev Location := List String

inductive FileKind where
  | dir
  | file
  | symlink
  | other
deriving DecidableEq, Repr, Inhabited

/-- What a program does when it is run. -/
structure Tool where
  stdout : Bytes := []
  stderr : Bytes := []
  code : Nat := 0
deriving DecidableEq, Repr, Inhabited

inductive Item where
  | dir
  | file (data : Bytes) (tool : Option Tool)
  | link (target : String)
  /-- Something that reads as nothing. -/
  | device
deriving DecidableEq, Repr, Inhabited

/-- Why the system refuses a path. -/
inductive DiskError where
  | notFound
  | denied
  | notDirectory
  | isDirectory
  | nameTooLong
  | linkLoop
  | nulInName
deriving DecidableEq, Repr, Inhabited

structure DiskEntry where
  item : Item
  /-- Seconds since the epoch. -/
  modified : Int
deriving DecidableEq, Repr, Inhabited

structure Disk where
  entries : List (Location × DiskEntry)
deriving DecidableEq, Repr, Inhabited

def DiskError.message : DiskError → String
  | .notFound => "No such file or directory (os error 2)"
  | .denied => "Permission denied (os error 13)"
  | .notDirectory => "Not a directory (os error 20)"
  | .isDirectory => "Is a directory (os error 21)"
  | .nameTooLong => "File name too long (os error 36)"
  | .linkLoop => "Too many levels of symbolic links (os error 40)"
  | .nulInName => "file name contained an unexpected NUL byte"

def Item.kind : Item → FileKind
  | .dir => .dir
  | .file _ _ => .file
  | .link _ => .symlink
  | .device => .other

namespace Disk

def empty : Disk := ⟨[]⟩

/-- What stands at a location; the root is always a directory. -/
def get? (d : Disk) (l : Location) : Option DiskEntry :=
  if l = [] then some ⟨.dir, 0⟩ else (d.entries.find? (·.1 = l)).map (·.2)

/-- The steps of a path. A closing slash is a step to the place itself. -/
def steps (path : String) : List String :=
  (Text.split (· == '/') path).filter (· != "") ++ if Text.endsWith path "/" then ["."] else []

def maxLinks : Nat := 40
def maxName : Nat := 255
def maxPath : Nat := 4096

/-- Follows steps from a location. `links` more links may be taken. -/
def follow (d : Disk) (last : Bool) (links : Nat) (here : Location) (steps : List String) :
    Except DiskError Location :=
  match steps with
  | [] => .ok here
  | s :: rest =>
    match d.get? here with
    | some ⟨.dir, _⟩ =>
      if s = "." then follow d last links here rest
      else if s = ".." then follow d last links here.dropLast rest
      else if maxName < s.utf8ByteSize then .error .nameTooLong
      else match d.get? (here ++ [s]) with
        | none => .error .notFound
        | some ⟨.link target, _⟩ =>
          if rest.isEmpty && !last then .ok (here ++ [s])
          else match links with
            | 0 => .error .linkLoop
            | links + 1 =>
              let start := if Text.startsWith target "/" then [] else here
              follow d last links start (Disk.steps target ++ rest)
        | some _ => follow d last links (here ++ [s]) rest
    | _ => .error .notDirectory
termination_by (links, steps.length)

/-- The location a path leads to; `last` tells whether a link at its end is followed. -/
def locate (d : Disk) (path : String) (last : Bool) : Except DiskError Location :=
  if path.toList.contains '\x00' then .error .nulInName
  else if path = "" then .error .notFound
  else if maxPath ≤ path.utf8ByteSize then .error .nameTooLong
  else d.follow last maxLinks [] (steps path)

/-- What a path leads to, through links. -/
def entry (d : Disk) (path : String) : Except DiskError DiskEntry :=
  match d.locate path true with
  | .error e => .error e
  | .ok l => match d.get? l with
    | some e => .ok e
    | none => .error .notFound

def isFile (d : Disk) (path : String) : Bool :=
  match d.entry path with
  | .ok ⟨.file _ _, _⟩ => true
  | _ => false

/-- The bytes of a file. -/
def read (d : Disk) (path : String) : Except DiskError Bytes :=
  match d.entry path with
  | .error e => .error e
  | .ok ⟨.file data _, _⟩ => .ok data
  | .ok ⟨.dir, _⟩ => .error .isDirectory
  | .ok _ => .ok []

/-- The entries right below a location, with their own kinds. -/
def below (d : Disk) (l : Location) : List (String × FileKind) :=
  d.entries.filterMap fun e =>
    if e.1 ≠ [] ∧ e.1.dropLast = l then e.1.getLast?.map fun n => (n, e.2.item.kind) else none

/-- The entries of a directory. -/
def list (d : Disk) (path : String) : Except DiskError (List (String × FileKind)) :=
  match d.locate path true with
  | .error e => .error e
  | .ok l => match d.get? l with
    | some ⟨.dir, _⟩ => .ok (d.below l)
    | some _ => .error .notDirectory
    | none => .error .notFound

end Disk
end EditorAgent

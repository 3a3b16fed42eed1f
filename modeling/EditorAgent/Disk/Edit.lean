import EditorAgent.Disk.Basic
import EditorAgent.Path.Basic

/-!
# Edits of a disk

Every edit happens at a time, which becomes the modification time of what it makes or changes, and of
the directory whose entries it changes.
-/

namespace EditorAgent.Disk

def set (d : Disk) (l : Location) (e : DiskEntry) : Disk :=
  if (d.entries.any (·.1 = l)) then
    ⟨d.entries.map fun x => if x.1 = l then (l, e) else x⟩
  else ⟨d.entries ++ [(l, e)]⟩

/-- Sets the modification time of a location. -/
def stamp (d : Disk) (l : Location) (time : Int) : Disk :=
  ⟨d.entries.map fun x => if x.1 = l then (l, { x.2 with modified := time }) else x⟩

/-- The location of a path whose last steps may be missing. -/
def target (d : Disk) : List String → Location
  | steps =>
    let n := steps.length
    let found := (List.range (n + 1)).reverse.findSome? fun k =>
      match d.follow true maxLinks [] (steps.take k) with
      | .ok l => some (l ++ steps.drop k)
      | .error _ => none
    found.getD steps

/-- Makes a directory and those above it. -/
def mkdirs (d : Disk) (l : Location) (time : Int) : Disk :=
  let missing := ((List.range l.length).map fun k => l.take (k + 1)).filter fun p => (d.get? p).isNone
  let d' := missing.foldl (fun d p => d.set p ⟨.dir, time⟩) d
  match missing with
  | [] => d'
  | p :: _ => d'.stamp p.dropLast time

def mkdir (d : Disk) (path : String) (time : Int) : Disk := d.mkdirs (d.target (steps path)) time

/-- Puts a new item at a location, after the directories above it. -/
def place (d : Disk) (l : Location) (item : Item) (time mtime : Int) : Disk :=
  ((d.mkdirs l.dropLast time).set l ⟨item, mtime⟩).stamp l.dropLast time

/-- Writes a file; writing over one leaves its directory as it was. -/
def write (d : Disk) (path : String) (data : Bytes) (tool : Option Tool) (time mtime : Int) : Disk :=
  let l := d.target (steps path)
  match d.get? l with
  | some ⟨.file _ old, _⟩ => d.set l ⟨.file data (old <|> tool), mtime⟩
  | _ => d.place l (.file data tool) time mtime

/-- The location of a path, its last step not followed. -/
def ownLocation (d : Disk) (path : String) : Location :=
  let s := steps path
  d.target s.dropLast ++ s.getLast?.toList

def link (d : Disk) (path dest : String) (time : Int) : Disk :=
  d.place (d.ownLocation path) (.link dest) time time

/-- Removes a file, a link or a whole tree. -/
def remove (d : Disk) (path : String) (time : Int) : Disk :=
  let l := d.ownLocation path
  if (d.get? l).isSome then
    (⟨d.entries.filter fun e => !l.isPrefixOf e.1⟩ : Disk).stamp l.dropLast time
  else d

def touch (d : Disk) (path : String) (time : Int) : Disk := d.stamp (d.target (steps path)) time

/-- Gives everything below a location one modification time. -/
def stampAll (d : Disk) (l : Location) (time : Int) : Disk :=
  ⟨d.entries.map fun e => if l.isPrefixOf e.1 then (e.1, { e.2 with modified := time }) else e⟩

end EditorAgent.Disk

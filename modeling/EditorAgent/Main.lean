import EditorAgent.Agent.Command
import EditorAgent.Disk.Edit
import Std.Time.DateTime.Timestamp

/-!
# The program

Input, environment and disk are read before anything is served. Of the disk that is the settings file and
what lies below the working directory and the Go roots.
-/

namespace EditorAgent.Program

/-- Adds what stands at a path, and below it to a depth, to a disk. What cannot be read is left out. -/
def load : Nat → Disk → String → IO Disk
  | 0, d, _ => pure d
  | depth + 1, d, path => try
      let p ← IO.FS.realPath path
      let time := (← p.metadata).modified.sec
      if ← p.isDir then
        (← p.readDir).foldlM (fun d e => load depth d (path ++ "/" ++ e.fileName)) (d.mkdir path time)
      else
        return d.write path (← IO.FS.readBinFile path).toList none time time
    catch _ => pure d

/-- How deep a tree is read. -/
def depth : Nat := 40

partial def readAll (s : IO.FS.Stream) (acc : ByteArray) : IO ByteArray := do
  let chunk ← s.read 65536
  if chunk.isEmpty then return acc else readAll s (acc ++ chunk)

/-- The variables of a block of assignments, each ended by a zero byte. -/
def assigned (block : Bytes) : Env :=
  Env.ofList ((Text.split (· == '\x00') (Utf8.lossy block)).filterMap fun s => Text.cut? s "=")

def environment : IO Env :=
  try return assigned (← IO.FS.readBinFile "/proc/self/environ").toList
  catch _ => return .empty

/-- The roots of the trees that are read. -/
def roots (args : List String) (env : Env) (here : String) : List String :=
  match Options.parse args with
  | .serve o =>
    o.config.toList ++ if o.legacy then [] else here :: env.list "GOROOT" ++ env.list "GOPATH"
  | _ => []

end EditorAgent.Program

open EditorAgent in
def main (args : List String) : IO UInt32 := do
  let start ← IO.monoNanosNow
  let env ← Program.environment
  let here := (← IO.currentDir).toString
  let disk ← (Program.roots args env here).foldlM (Program.load Program.depth) .empty
  let bytes ← Program.readAll (← IO.getStdin) .empty
  let now := (← Std.Time.Timestamp.now).toSecondsSinceUnixEpoch.val
  let clock := ⟨now.toNat, (← IO.monoNanosNow) - start⟩
  let r := Command.run disk args env clock ⟨bytes.toList, none⟩
  (← IO.getStdout).write ⟨r.stdout.toArray⟩
  (← IO.getStderr).putStr r.stderr
  return UInt32.ofNat r.code

import EditorAgent.Go.Importer
import EditorAgent.Proofs.Vfs.Later

/-!
# Looking for packages

Finding a package and reading its sources are questions: they make no record and change none.
-/

namespace EditorAgent.Go

open Vfs

variable {α β : Type}

/-- A key under which no record is kept. -/
def CacheKey.Plain : CacheKey → Prop
  | .package _ => False
  | _ => True

open CacheKey (Plain)

theorem looks_hasGoFiles (d : Disk) (dir : String) : Looks Plain (hasGoFiles d dir) :=
  (looks_namesAt d dir).bind fun r => by cases r <;> exact .pure _

theorem looks_modFile? (d : Disk) (srcDir : String) : Looks Plain (modFile? d srcDir) := by
  refine (looks_nodeAt _).bind fun n => (looks_locate d n "go.mod").bind fun o => ?_
  cases o with
  | none => exact .pure _
  | some c => exact (looks_hasKind d .file c).bind fun b => by cases b <;> exact .pure _

theorem looks_readFlag {n : NodeId} {k : CacheKey} (hk : k.Plain) {init : StateM Tree Bool}
    (h : Looks Plain init) : Looks Plain (readFlag n k init) := by
  refine (looks_readNote hk (h.bind fun _ => .pure _)).bind fun x => ?_
  cases x with
  | flag b => exact .pure _
  | _ => exact h

theorem looks_readFound {n : NodeId} {k : CacheKey} (hk : k.Plain) {init : StateM Tree (Except ImportError PackagePath)}
    (h : Looks Plain init) : Looks Plain (readFound n k init) := by
  refine (looks_readNote hk (h.bind fun _ => .pure _)).bind fun x => ?_
  cases x with
  | found r => exact .pure _
  | _ => exact h

theorem looks_inModule (d : Disk) (b : BuildContext) (dir : String) : Looks Plain (inModule d b dir) := by
  unfold inModule
  split
  · exact .pure _
  · exact (looks_modFile? d dir).bind fun _ => .pure _

theorem looks_modEnabled (d : Disk) (b : BuildContext) (srcDir : String) : Looks Plain (modEnabled d b srcDir) := by
  unfold modEnabled
  split
  · exact .pure _
  · exact .pure _
  · exact (looks_nodeAt _).bind fun n => looks_readFlag (by trivial) (looks_inModule d b _)

namespace ModuleRoot

theorem looks_ofReplace (d : Disk) (dir : String) (r : Replace) : Looks Plain (ofReplace d dir r) := by
  unfold ofReplace
  extract_lets other target
  split
  · exact .pure _
  · exact (looks_isFileAt d _).bind fun b => by cases b <;> exact .pure _

theorem looks_requirementsOf (d : Disk) (dir : String) (m : ModFile) : Looks Plain (requirementsOf d dir m) := by
  refine (Looks.foldlM (fun _ r => (looks_ofReplace d dir r).bind fun _ => .pure _) _ _).bind fun rs => ?_
  exact (looks_blobAt d _).bind fun r => by cases r <;> exact .pure _

theorem looks_load (d : Disk) (dir : String) : Looks Plain (load d dir) := by
  refine (looks_blobAt d _).bind fun r => ?_
  cases r with
  | error e => exact .pure _
  | ok src =>
    dsimp only
    split
    · exact .pure _
    · exact (looks_requirementsOf d dir _).bind fun _ => .pure _

theorem looks_firstPackage (d : Disk) (dirs : List String) : Looks Plain (firstPackage d dirs) := by
  induction dirs with
  | nil => exact .pure _
  | cons dir dirs ih =>
    refine (looks_hasGoFiles d dir).bind fun b => ?_
    cases b with
    | true => exact .pure _
    | false => exact ih

theorem looks_find (d : Disk) (b : BuildContext) (m : ModuleRoot) (importPath : String) :
    Looks Plain (m.find d b importPath) := by
  unfold ModuleRoot.find
  split
  · exact .pure _
  split
  · exact .pure _
  split
  · exact (looks_firstPackage d _).bind fun o => by cases o <;> exact .pure _
  · exact (looks_firstPackage d _).bind fun o => by cases o <;> exact .pure _

end ModuleRoot

theorem looks_findLocal (d : Disk) (importPath srcDir : String) : Looks Plain (findLocal d importPath srcDir) :=
  (looks_hasGoFiles d _).bind fun b => by cases b <;> exact .pure _

theorem looks_searchModule (d : Disk) (b : BuildContext) (dir importPath : String) :
    Looks Plain (searchModule d b dir importPath) := by
  refine (ModuleRoot.looks_load d dir).bind fun r => ?_
  cases r with
  | error e => exact .pure _
  | ok m => exact m.looks_find d b importPath

theorem looks_findInModule (d : Disk) (b : BuildContext) (importPath srcDir : String) :
    Looks Plain (findInModule d b importPath srcDir) := by
  refine (looks_modFile? d srcDir).bind fun o => ?_
  cases o with
  | none => exact .pure _
  | some gomod =>
    refine .get fun t => ?_
    split
    · exact .pure _
    · exact looks_readFound (by trivial) (looks_searchModule d b _ importPath)

theorem looks_findInModCache (d : Disk) (importPath srcDir : String) : Looks Plain (findInModCache d importPath srcDir) := by
  unfold findInModCache
  split
  · exact .pure _
  split
  · exact .pure _
  split
  · exact .pure _
  · exact (looks_hasGoFiles d _).bind fun b => by cases b <;> exact .pure _

theorem looks_firstDir (d : Disk) (dirs : List (String × PackagePath)) : Looks Plain (firstDir d dirs) := by
  induction dirs with
  | nil => exact .pure _
  | cons dir dirs ih =>
    refine (looks_isDirAt d dir.1).bind fun b => ?_
    cases b with
    | true => exact .pure _
    | false => exact ih

theorem looks_searchRoots (d : Disk) (b : BuildContext) (importPath dir : String) :
    Looks Plain (searchRoots d b importPath dir) :=
  (looks_firstDir d _).bind fun o => by cases o <;> exact .pure _

theorem looks_findInGopath (d : Disk) (b : BuildContext) (importPath srcDir : String) :
    Looks Plain (findInGopath d b importPath srcDir) :=
  (looks_nodeAt _).bind fun _ => looks_readFound (by trivial) (looks_searchRoots d b importPath _)

theorem looks_findPackage (d : Disk) (b : BuildContext) (importPath srcDir : String) :
    Looks Plain (findPackage d b importPath srcDir) := by
  unfold findPackage
  split
  · exact looks_findLocal d importPath srcDir
  refine (looks_hasGoFiles d _).bind fun std => ?_
  cases std with
  | true => exact .pure _
  | false =>
    refine (looks_modEnabled d b srcDir).bind fun enabled => ?_
    cases enabled with
    | true => exact looks_findInModule d b importPath srcDir
    | false =>
      refine (looks_findInModCache d importPath srcDir).bind fun o => ?_
      cases o with
      | some p => exact .pure _
      | none => exact looks_findInGopath d b importPath srcDir

/-! ## In a session -/

/-- An action of a session that only asks. -/
def Asks (act : StateM Session α) : Prop := ∀ s, Later Plain s.tree (act s).2.tree

namespace Asks

theorem pure (a : α) : Asks (pure a) := fun s => .refl s.tree

theorem bind {act : StateM Session α} {f : α → StateM Session β} (h : Asks act) (hf : ∀ a, Asks (f a)) :
    Asks (act >>= f) :=
  fun s => (h s).trans (hf _ _)

theorem onTree {act : StateM Tree α} (h : Looks Plain act) : Asks (Session.onTree act) := fun s => h s.tree

theorem framed {act : StateM Session α} (h : Asks act) (name : String) : Asks (Session.framed name act) :=
  fun s => h { s with profile := s.profile.push name }

end Asks

namespace Importer

theorem looks_readSource (d : Disk) (view : Option View) (o : Overrides) (path : String) :
    Looks Plain (readSource d view o path) := by
  unfold readSource
  extract_lets buffer
  split
  · exact .pure _
  · refine (looks_blobAt d path).bind fun r => ?_
    cases r with
    | ok src => exact .pure _
    | error e =>
      dsimp only
      split
      · exact .pure _
      · exact .pure _

theorem looks_sourceNames (d : Disk) (i : Importer) (dir : String) : Looks Plain (i.sourceNames d dir) :=
  (looks_namesAt d dir).bind fun r => by cases r <;> exact .pure _

theorem asks_parse (i : Importer) (src : Bytes) : Asks (i.parse src) := by
  intro s
  unfold parse
  dsimp only
  split <;> exact .refl s.tree

theorem asks_parseFile (d : Disk) (i : Importer) (path : String) : Asks (i.parseFile d path) := by
  refine (Asks.onTree (looks_readSource d i.view i.overrides path)).bind fun r => ?_
  cases r with
  | error e => exact .pure _
  | ok src =>
    dsimp only
    split
    · exact .pure _
    · refine (asks_parse i src).bind fun f => ?_
      split
      · exact .pure _
      · exact .pure _

theorem asks_untilFailure {f : α → StateM Session (Except ImportError β)} (hf : ∀ a, Asks (f a)) (l : List α) :
    Asks (untilFailure f l) := by
  induction l with
  | nil => exact .pure _
  | cons a l ih =>
    refine (hf a).bind fun r => ?_
    cases r with
    | error e => exact .pure _
    | ok b => exact ih.bind fun r => by cases r <;> exact .pure _

theorem asks_parseDir (d : Disk) (i : Importer) (p : PackagePath) : Asks (i.parseDir d p) := by
  refine Asks.framed ((Asks.onTree (looks_sourceNames d i p.dir)).bind fun r => ?_) _
  cases r with
  | error e => exact .pure _
  | ok names =>
    refine (asks_untilFailure (fun n => asks_parseFile d i (Path.join p.dir n)) names).bind fun r => ?_
    cases r with
    | error e => exact .pure _
    | ok files =>
      dsimp only
      split
      · exact .pure _
      · exact .pure _

theorem looks_refresh (d : Disk) (n : NodeId) : Looks Plain (refresh d n) := by
  refine (looks_readDir d n).bind fun r => ?_
  cases r with
  | error e => exact .pure _
  | ok cs => exact .get fun t => .forM (fun c => (looks_stat d c).bind fun _ => .pure _) _

end Importer
end EditorAgent.Go

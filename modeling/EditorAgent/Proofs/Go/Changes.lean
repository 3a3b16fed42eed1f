import EditorAgent.Proofs.Go.Serving
import EditorAgent.Proofs.Vfs.Invalidation
import Mathlib

/-!
# Changes reach importers

When a file turns out to have changed, the records at its directory are invalidated, and with them those of the
packages that import them, however indirectly, as long as the directories of these packages have not left the tree.
The next import that gets as far as such a record checks its package again.
-/

namespace EditorAgent.Go

open Vfs Importer Watched Relation

variable {t : Tree} {w : Watched} {d : Disk} {n : NodeId} {c u : CellId} {p : PackagePath} {l : List Incident}

/-! ## The order of a course -/

namespace Course

theorem getElem?_append_of_some {α : Type} {l l' : List α} {i : Nat} {a : α} (h : l[i]? = some a) :
    (l ++ l')[i]? = some a := by
  rw [List.getElem?_append_left (List.getElem?_eq_some_iff.mp h).1, h]

/-- A record that serves nothing is checked at once. -/
theorem next_of_none (h : Course l) {i : Nat} (hi : l[i]? = some (.consulted c p none)) :
    ∃ b, l[i + 1]? = some (.began c b) := by
  induction h generalizing i with
  | nil => cases hi
  | marked => cases i <;> cases hi
  | served => cases i <;> cases hi
  | @checked l c' p' b r _ ih =>
    match i with
    | 0 =>
      cases hi
      exact ⟨b, rfl⟩
    | 1 => cases hi
    | i + 2 =>
      have hi : (l ++ [.ended c' p' b r])[i]? = some (.consulted c p none) := hi
      rw [List.getElem?_append] at hi
      split at hi
      · obtain ⟨b', hb'⟩ := ih hi
        exact ⟨b', getElem?_append_of_some hb'⟩
      · have := List.mem_of_getElem? hi
        simp at this
  | @append l l' _ _ ih ih' =>
    rw [List.getElem?_append] at hi
    split at hi
    · obtain ⟨b, hb⟩ := ih hi
      exact ⟨b, getElem?_append_of_some hb⟩
    · next hge =>
      obtain ⟨b, hb⟩ := ih' hi
      refine ⟨b, ?_⟩
      rw [List.getElem?_append_right (by omega), ← hb]
      congr 1
      omega

/-- Only a record that serves nothing is checked. -/
theorem of_began (h : Course l) {i b : Nat} (hi : l[i]? = some (.began c b)) :
    ∃ j p, i = j + 1 ∧ l[j]? = some (.consulted c p none) := by
  induction h generalizing i with
  | nil => cases hi
  | marked => cases i <;> cases hi
  | served => cases i <;> cases hi
  | @checked l c' p' b' r _ ih =>
    match i with
    | 0 => cases hi
    | 1 =>
      cases hi
      exact ⟨0, p', rfl, rfl⟩
    | i + 2 =>
      have hi : (l ++ [.ended c' p' b' r])[i]? = some (.began c b) := hi
      rw [List.getElem?_append] at hi
      split at hi
      · obtain ⟨j, p, rfl, hj⟩ := ih hi
        exact ⟨j + 2, p, rfl, getElem?_append_of_some hj⟩
      · have := List.mem_of_getElem? hi
        simp at this
  | @append l l' _ _ ih ih' =>
    rw [List.getElem?_append] at hi
    split at hi
    · obtain ⟨j, p, rfl, hj⟩ := ih hi
      exact ⟨j, p, rfl, getElem?_append_of_some hj⟩
    · next hge =>
      obtain ⟨j, p, hj, hp⟩ := ih' hi
      refine ⟨l.length + j, p, by omega, ?_⟩
      rw [List.getElem?_append_right (by omega), ← hp]
      congr 1
      omega

end Course

/-! ## Changes -/

/-- The directory of a record has not left the tree. -/
def AtHome (t : Tree) (c : CellId) : Prop := ∃ x, t.cell? c = some x ∧ t.isAlive x.home = true

/-- The package of a record is imported by that of another, directly or by way of others, all of which have their
directories in the tree. -/
def ImportedBy (w : Watched) : CellId → CellId → Prop := ReflTransGen fun c u => Uses w.log u c ∧ AtHome w.tree u

/-- A file is in the directory of a record, and a stat of it tells another time than the last one did. -/
structure Changed (d : Disk) (t : Tree) (n : NodeId) (c : CellId) : Prop where
  within : ∃ x, t.cell? c = some x ∧ (t.node n).parent = some x.home
  times : ∃ old info, (t.node n).stat = .found old ∧ (Vfs.stat d n t).1 = .ok info ∧ info.kind ≠ .dir ∧
    info.modified ≠ old.modified

/-- After a log, the next import that gets as far as a record begins a check of its package. -/
def ChecksNext (c : CellId) (log log' : List Incident) : Prop :=
  ∀ before p stored rest, log' = log ++ (before ++ .consulted c p stored :: rest) →
    (∀ p' stored', .consulted c p' stored' ∉ before) → stored = none ∧ ∃ b rest', rest = .began c b :: rest'

theorem affects_of_importedBy {free : CacheKey → Prop} (h : w.Sound free) (himported : ImportedBy w c u) :
    w.tree.Affects c u := by
  refine ReflTransGen.mono (fun c u hu => ?_) _ _ himported
  obtain ⟨huses, y, hy, halive⟩ := hu
  obtain ⟨x, y', hx, hy', hdeps⟩ := h.used u c huses
  obtain rfl : y = y' := Option.some.inj (hy.symm.trans hy')
  rw [liveDependents, hx]
  refine List.mem_filter.mpr ⟨hdeps halive, ?_⟩
  rw [isLiveCell, hy, Bool.or_eq_true]
  exact .inr halive

theorem ImportedBy.exists_cell {x : Cell PackageRecord} (h : ImportedBy w c u) (hx : w.tree.cell? c = some x) :
    ∃ y, w.tree.cell? u = some y := by
  cases h with
  | refl => exact ⟨x, hx⟩
  | tail _ hu =>
    obtain ⟨-, y, hy, -⟩ := hu
    exact ⟨y, hy⟩

/-- A stat that tells another time looks at the disk. -/
theorem stat_eq_sync {old info : FileInfo} (hold : (t.node n).stat = .found old) (hinfo : (Vfs.stat d n t).1 = .ok info)
    (htime : info.modified ≠ old.modified) : Vfs.stat d n t = sync d n t := by
  unfold Vfs.stat at hinfo ⊢
  dsimp only at hinfo ⊢
  rw [hold] at hinfo ⊢
  cases hfresh : (t.node n).fresh with
  | true =>
    rw [hfresh] at hinfo
    cases hinfo
    exact absurd rfl htime
  | false => rfl

/-- A file that has changed: its memo is cleared, and then that of its directory. -/
theorem observeFound_changed {old info : FileInfo} {q : NodeId} (hold : (t.node n).stat = .found old)
    (htime : info.modified ≠ old.modified) (hkind : info.kind ≠ .dir) (hparent : (t.node n).parent = some q) :
    ∃ t', Later CacheKey.Plain t t' ∧ SameTies t t' ∧ observeFound d n info t = t'.clearMemo q := by
  let seen : Tree := t.modifyNode n (Node.found · info t.expiry)
  have hseen : SameTies t seen := .modifyNode (fun _ => rfl) fun _ => rfl
  have hties : SameTies t (seen.clearMemo n) :=
    hseen.trans ((sameTies_cleared seen n).trans (marks_clearMemo seen n).sameTies)
  have hlater : Later CacheKey.Plain t seen :=
    .look (fun _ => rfl) (fun _ => rfl) (fun _ => rfl) fun _ => List.Subset.refl _
  refine ⟨seen.clearMemo n, hlater.trans (.clearMemo ..), hties, ?_⟩
  have hq : ((seen.clearMemo n).node n).parent = some q := (hties.parent n).trans hparent
  have hchange : Stat.change (t.node n).stat info = ⟨true, false⟩ := by
    rw [hold, Stat.change]
    simp [Ne.symm htime]
  simp only [observeFound, hchange, Bool.not_true, Bool.false_eq_true, if_false, if_neg hkind]
  split
  case h_1 p hp =>
    obtain rfl : q = p := Option.some.inj (hq.symm.trans hp)
    rfl
  case h_2 hp =>
    cases hq.symm.trans hp

/-- A stat that tells another time clears the memo of the directory last. -/
theorem Changed.stat_eq (h : Changed d t n c) :
    ∃ x t', t.cell? c = some x ∧ Later CacheKey.Plain t t' ∧ SameTies t t' ∧ (Vfs.stat d n t).2 = t'.clearMemo x.home := by
  obtain ⟨x, hx, hparent⟩ := h.within
  obtain ⟨old, info, hold, hinfo, hkind, htime⟩ := h.times
  have hsync := stat_eq_sync hold hinfo htime
  rw [hsync] at hinfo ⊢
  rw [sync] at hinfo ⊢
  cases he : d.entry (t.path n) with
  | error e =>
    rw [he] at hinfo
    cases hinfo
  | ok e =>
    rw [he] at hinfo
    cases hinfo
    obtain ⟨t', hlater, hties, hcleared⟩ := observeFound_changed (d := d) hold htime hkind hparent
    exact ⟨x, t', hx, hlater, hties, hcleared⟩

/-- Whatever a stat that tells another time has to do with, is invalidated after every check that has begun. -/
theorem Changed.lt_markOf {free : CacheKey → Prop} (hfree : ∀ key, ¬ free (.package key)) (h : w.Sound free)
    (hchanged : Changed d w.tree n c) (himported : ImportedBy w c u) :
    w.tree.stamp < markOf (Vfs.stat d n w.tree).2 u := by
  obtain ⟨x, t', hx, hlater, hties, hstat⟩ := hchanged.stat_eq
  obtain ⟨hhome, key, hkey | hfirm⟩ := h.filed.home c x hx
  · exact absurd hkey (hfree key)
  have hfirm' := (hlater.memo x.home).firm (h.filed.numbered _) (.package key) c not_false hfirm
  have honward : Onward free w.tree t' := onward_of_asking hlater
  have hnew : ∀ a y, t'.cell? a = some y → y.invalidatedAt ≤ t'.stamp := by
    intro a y hy
    have hmarks := honward.marks a
    have hstamped := h.stamped a
    have hstamp := hlater.stamp
    rw [markOf_of_cell hy] at hmarks
    omega
  have hu : t'.cell? u ≠ none := by
    obtain ⟨y, hy⟩ := himported.exists_cell hx
    obtain ⟨y', hy', -⟩ := hlater.cells u y hy
    simp [hy']
  obtain ⟨y, hy, hle⟩ := marked_clearMemo hfirm' hnew ((affects_of_importedBy h himported).of_sameTies hties) hu
  have hstamp := hlater.stamp
  rw [hstat, markOf_of_cell hy]
  omega

/-- After a mark that is above all checks that have begun, the next import that gets as far as the record checks. -/
theorem checksNext_of_lt {free : CacheKey → Prop} {w' : Watched} (h : Spares free [] w w') {m : Nat}
    (hmarked : .marked u m ∈ w.log) (hbegun : ∀ b, .began u b ∈ w.log → b < m) : ChecksNext u w.log w'.log := by
  intro before p stored rest hlog hfirst
  obtain ⟨l, hl, hl'⟩ := h.course
  obtain rfl : l = before ++ .consulted u p stored :: rest := List.append_cancel_left (hl'.symm.trans hlog)
  have hhere : (before ++ .consulted u p stored :: rest)[before.length]? = some (.consulted u p stored) := by simp
  have hnone : stored = none := by
    cases stored with
    | none => rfl
    | some x =>
      have hpre : (w.log ++ before) ++ [.consulted u p (some x)] <+: w'.log := ⟨rest, by simp [hlog]⟩
      obtain ⟨k, -, hbegan, -, hmarks, -⟩ := (h.sound.fair _ u p _ hpre).sound x rfl
      have hlt := hmarks m (List.mem_append_left _ hmarked)
      rcases List.mem_append.mp hbegan with hbegan | hbegan
      · exact absurd (hbegun _ hbegan) (Nat.not_lt_of_gt hlt)
      · -- The check began since, so an import has got as far as the record before this one.
        obtain ⟨i, hi⟩ := List.getElem?_of_mem hbegan
        obtain ⟨j, p', rfl, hj⟩ := hl.of_began (Course.getElem?_append_of_some hi)
        have hjlt : j < before.length := Nat.lt_of_succ_lt (List.getElem?_eq_some_iff.mp hi).1
        rw [List.getElem?_append_left hjlt] at hj
        exact absurd (List.mem_of_getElem? hj) (hfirst p' none)
  subst hnone
  obtain ⟨b, hb⟩ := hl.next_of_none hhere
  rw [List.getElem?_append_right (by omega)] at hb
  match rest with
  | [] => simp at hb
  | e :: rest' =>
    obtain rfl : e = .began u b := by simpa using hb
    exact ⟨rfl, b, rest', rfl⟩

namespace OneFile

def disk (modified : Int) : Disk := ⟨[(["a_js.go"], ⟨.file [] none, modified⟩)]⟩

def importer : Importer := { build := ⟨"", [], "linux", "amd64", [], false, ⟨[]⟩⟩ }

def package : PackagePath := { dir := "/", importPath := "_/" }

/-- The tree with the root listed and the file looked at. -/
def seen (file : Stat) (fresh : Bool) : Tree where
  expiry := .never
  nodes := #[
    { parent := none, name := "", children := [1], kind := some .dir, stat := .found ⟨"", .dir, 0, 0⟩, fresh := true },
    { parent := some 0, name := "a_js.go", kind := some .file, stat := file, fresh }]

def info (modified : Int) : FileInfo := ⟨"a_js.go", .file, 0, modified⟩

/-- The tree with the record. -/
def recorded : Tree :=
  ((seen (.found (info 1)) true).readCell 0 (.package (importer.key package)) { importPath := "_/", dir := "/" }).2

/-- The tree while the package is checked. -/
def checking : Tree := { recorded.tick.2 with active := [0] }

/-- The tree after the import. -/
def imported : Tree := store 0 1 (.error (.noGo "/")) { checking with active := [] }

theorem entry_disk (m : Int) : (disk m).entry "/a_js.go" = .ok ⟨.file [] none, m⟩ := by
  have hsteps : Disk.steps "/a_js.go" = ["a_js.go"] := by decide
  have hlocate : (disk m).locate "/a_js.go" true = .ok ["a_js.go"] := by
    rw [Disk.locate, if_neg (by decide), if_neg (by decide), if_neg (by decide), hsteps, Disk.follow]
    simp [Disk.get?, disk, Disk.maxName, Disk.follow]
    decide
  rw [Disk.entry, hlocate]
  rfl

theorem findPackage_disk :
    findPackage (disk 1) importer.build "." "/" (make .never) = (.ok package, seen .unknown false) := by
  cbv

theorem record_disk : importer.record (disk 1) package (seen .unknown false) = (0, recorded) := by
  have hpath : (seen .unknown false).path 1 = "/a_js.go" := by cbv
  have hstat : Vfs.stat (disk 1) 1 (seen .unknown false) = (.ok (info 1), seen (.found (info 1)) true) := by
    have hsync : Vfs.stat (disk 1) 1 (seen .unknown false) = sync (disk 1) 1 (seen .unknown false) := rfl
    rw [hsync, sync, hpath, entry_disk]
    rfl
  have hrecord : importer.record (disk 1) package (seen .unknown false) =
      (Vfs.stat (disk 1) 1 (seen .unknown false)).2.readCell 0 (.package (importer.key package))
        { importPath := "_/", dir := "/" } := rfl
  rw [hrecord, hstat]
  rfl

theorem sourceNames_disk : importer.sourceNames (disk 1) "/" checking = (.ok [], checking) := by
  have hset : SourceFile.nameSet (["a_js.go"] ++ importer.overriddenNames "/") = ["a_js.go"] := by cbv
  have hfilter : ["a_js.go"].filter importer.isSourceName = [] := by decide
  have hnames : importer.sourceNames (disk 1) "/" checking =
      (.ok ((SourceFile.nameSet (["a_js.go"] ++ importer.overriddenNames "/")).filter importer.isSourceName), checking) :=
    rfl
  rw [hnames, hset, hfilter]

theorem parseDir_disk (s : Session) (hs : s.tree = checking) :
    (importer.parseDir (disk 1) package s).1 = .error (.noGo "/") ∧
      (importer.parseDir (disk 1) package s).2.tree = checking := by
  have hnames : Session.onTree (importer.sourceNames (disk 1) package.dir)
      { s with profile := s.profile.push "parseDir" } = (.ok [], { s with profile := s.profile.push "parseDir" }) := by
    have hdir : package.dir = "/" := rfl
    dsimp only [Session.onTree]
    rw [hdir, hs, sourceNames_disk]
  rw [parseDir, framed_run, bind_run, hnames]
  exact ⟨rfl, hs⟩

theorem consult_disk (deps : Importer → String → String → Import) (s : Session) (hs : s.tree = seen .unknown false) :
    (importer.consult (disk 1) deps package s).2.tree = imported := by
  have hserved : served? (importer.depend 0 recorded) 0 = none := rfl
  obtain ⟨herror, htree⟩ := parseDir_disk { s with tree := checking } rfl
  have hcheck : importer.check (disk 1) deps 0 package { s with tree := checking } =
      (.error (.noGo "/"), (importer.parseDir (disk 1) package { s with tree := checking }).2) := by
    rw [check_run]
    generalize importer.parseDir (disk 1) package { s with tree := checking } = r at herror ⊢
    obtain ⟨a, s'⟩ := r
    cases herror
    rfl
  rw [consult_run, hs, record_disk]
  dsimp only
  rw [hserved]
  dsimp only
  rw [renew_run]
  change store 0 1 (importer.check (disk 1) deps 0 package { s with tree := checking }).1
    { (importer.check (disk 1) deps 0 package { s with tree := checking }).2.tree with
      active := (importer.check (disk 1) deps 0 package { s with tree := checking }).2.tree.active.drop 1 } = _
  rw [hcheck]
  dsimp only
  rw [htree]
  rfl

theorem importFrom_disk (s : Session) (hs : s.tree = make .never) :
    (importer.importFrom (disk 1) "." "/" 0 s).2.tree = imported := by
  have hclean : Path.clean (Path.join "/" "/") = "/" := by decide
  have hretarget : importer.retarget package = importer := rfl
  have hcycle : importer.detectCycle package = .ok () := rfl
  obtain ⟨fuel, hfuel⟩ : ∃ fuel, depthBound (disk 1) importer = fuel + 1 := ⟨_, rfl⟩
  have hfind : ∃ profile, Session.framed "findPkg" (Session.onTree (findPackage (disk 1) importer.build "." "/")) s =
      (.ok package, { s with tree := seen .unknown false, profile }) := by
    rw [framed_run]
    dsimp only [Session.onTree]
    rw [hs, findPackage_disk]
    exact ⟨_, rfl⟩
  obtain ⟨profile, hfind⟩ := hfind
  rw [importFrom, if_neg (by decide), hfuel, importTo, importStep, if_neg (by decide), if_neg (by decide),
    if_neg (by decide), hclean, bind_run, hfind]
  dsimp only
  rw [importPackage, hretarget, framed_run, hcycle]
  dsimp only
  exact consult_disk _ _ rfl

/-- The package is imported, and the stat of its file expires. -/
def before : List Operation := [.importing (disk 1) importer "." "/" 0, .asking (.expire 1)]

end OneFile
end EditorAgent.Go

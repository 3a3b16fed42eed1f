import EditorAgent.Proofs.Go.Watched
import EditorAgent.Proofs.Path.Normal

/-!
# What a log says of the records

A record serves the outcome of its last check, if that was no cycle and nothing has invalidated the record since
the check began, and it serves nothing else. `Sound` is what a session and its log have in common at any time; each
thing that is done to a record keeps it.
-/

namespace EditorAgent.Go

open Vfs Importer Watched

variable {α β : Type} {free : CacheKey → Prop} {t t' t'' : Tree} {c : CellId} {p : PackagePath} {log : List Incident}

/-! ## Reading a log -/

/-- A check that has ended. -/
structure Check where
  path : PackagePath
  /-- The stamp that was taken when it began. -/
  stamp : Nat
  result : Except ImportError Package

def Incident.check? (c : CellId) : Incident → Option Check
  | .ended c' p stamp r => if c' = c then some ⟨p, stamp, r⟩ else none
  | _ => none

/-- The last check of a record. -/
def lastCheck (c : CellId) (log : List Incident) : Option Check := log.reverse.findSome? (Incident.check? c)

/-- What an import returned of a record without a check is the outcome of the last check, which was no cycle and
began after every invalidation; and after such a check it did return it. -/
structure Fair (before : List Incident) (c : CellId) (p : PackagePath)
    (stored : Option (Except ImportError Package)) : Prop where
  sound : ∀ x, stored = some x → ∃ k, lastCheck c before = some k ∧ .began c k.stamp ∈ before ∧
    isCycle k.result = false ∧ (∀ m, .marked c m ∈ before → m < k.stamp) ∧ x = outcome p.importPath k.result
  complete : ∀ k early late, lastCheck c before = some k → isCycle k.result = false →
    before = early ++ .began c k.stamp :: late → (∀ m, .marked c m ∉ late) →
      stored = some (outcome k.path.importPath k.result)

/-- Every import that got as far as a record was treated fairly. -/
def Justified (log : List Incident) : Prop :=
  ∀ before c p stored, before ++ [.consulted c p stored] <+: log → Fair before c p stored

/-- The checks under way after an incident, the innermost first. -/
def Incident.follow (under : List CellId) : Incident → List CellId
  | .began c _ => c :: under
  | .ended .. => under.drop 1
  | _ => under

/-- The checks under way at the end of a log, the innermost first. -/
def opens (log : List Incident) : List CellId := log.foldl Incident.follow []

/-- The package of one record imports that of another: an import got as far as the other record while the innermost
check under way was that of the first. -/
def Uses (log : List Incident) (u c : CellId) : Prop :=
  ∃ before p stored, before ++ [.consulted c p stored] <+: log ∧ (opens before).head? = some u

/-- Stamps go up: a check begins after the invalidations before it and before those after it. -/
def Ordered : Incident → Incident → Prop
  | .marked _ m, .began _ b => m < b
  | .began _ b, .marked _ m => b < m
  | _, _ => True

theorem lastCheck_append (c : CellId) (log l : List Incident) :
    lastCheck c (log ++ l) = (lastCheck c l).or (lastCheck c log) := by
  simp [lastCheck, List.findSome?_append]

theorem lastCheck_append_eq {l : List Incident} (h : ∀ e ∈ l, e.check? c = none) :
    lastCheck c (log ++ l) = lastCheck c log := by
  rw [lastCheck_append, lastCheck, List.findSome?_eq_none_iff.mpr (by simpa using h), Option.none_or]

theorem justified_append {l : List Incident} (h : Justified log)
    (hl : ∀ e ∈ l, ∀ c p stored, e ≠ .consulted c p stored) : Justified (log ++ l) := by
  induction l using List.reverseRecOn with
  | nil => simpa using h
  | append_singleton l e ih =>
    have ih := ih fun e he => hl e (List.mem_append_left _ he)
    intro before c p stored hpre
    rw [← List.append_assoc, List.prefix_concat_iff] at hpre
    rcases hpre with heq | hpre
    · obtain ⟨-, heq⟩ := List.append_inj' heq rfl
      exact absurd (List.singleton_inj.mp heq).symm (hl e (by simp) c p stored)
    · exact ih before c p stored hpre

theorem uses_concat {u : CellId} {e : Incident} (h : Uses (log ++ [e]) u c) :
    Uses log u c ∨ (∃ p stored, e = .consulted c p stored) ∧ (opens log).head? = some u := by
  obtain ⟨before, p, stored, hpre, hopen⟩ := h
  rcases List.prefix_concat_iff.mp hpre with heq | hpre
  · obtain ⟨rfl, hlast⟩ := List.append_inj' heq rfl
    exact .inr ⟨⟨p, stored, (List.singleton_inj.mp hlast).symm⟩, hopen⟩
  · exact .inl ⟨before, p, stored, hpre, hopen⟩

theorem uses_append {u : CellId} {l : List Incident} (hl : ∀ e ∈ l, ∀ c p stored, e ≠ .consulted c p stored)
    (h : Uses (log ++ l) u c) : Uses log u c := by
  induction l using List.reverseRecOn with
  | nil => simpa using h
  | append_singleton l e ih =>
    rw [← List.append_assoc] at h
    rcases uses_concat h with h | ⟨⟨p, stored, rfl⟩, -⟩
    · exact ih (fun e he => hl e (List.mem_append_left _ he)) h
    · exact absurd rfl (hl _ (by simp) c p stored)

theorem mem_marksIn {e : Incident} (h : e ∈ marksIn t t') :
    ∃ c, e = .marked c (markOf t' c) ∧ markOf t' c ≠ markOf t c := by
  obtain ⟨c, -, hc⟩ := List.mem_filterMap.mp h
  split at hc
  · cases hc
  · next hne => exact ⟨c, (Option.some.inj hc).symm, hne⟩

theorem marked_mem_marksIn (h : markOf t' c ≠ markOf t c) (hpos : markOf t' c ≠ 0) :
    .marked c (markOf t' c) ∈ marksIn t t' := by
  refine List.mem_filterMap.mpr ⟨c, List.mem_range.mpr ?_, by rw [if_neg h]⟩
  by_contra hlt
  have hnone : t'.cell? c = none := Array.getElem?_eq_none (Nat.le_of_not_lt hlt)
  exact hpos (by rw [markOf, hnone]; rfl)

theorem markOf_of_cell {x : Cell PackageRecord} (h : t.cell? c = some x) : markOf t c = x.invalidatedAt := by
  rw [markOf, h]
  rfl

/-! ## Records and their keys -/

/-- Memos lead to records of the packages that the keys are for. A record is kept at its home, and outlives clears,
unless notes may be written under its key. -/
structure Filed (free : CacheKey → Prop) (t : Tree) : Prop where
  bounded : t.Bounded
  numbered : ∀ n, (t.node n).memo.Numbered
  intact : ∀ n, (t.node n).memo.Intact
  note : ∀ n k c, (t.node n).memo.Kept (.user k) (.cell c) → ∃ x key, t.cell? c = some x ∧ k = .package key ∧
    key.dir = Path.normal x.content.dir ∧ key.importPath = x.content.importPath
  home : ∀ c x, t.cell? c = some x → x.home < t.nodes.size ∧
    ∃ key, free (.package key) ∨ (t.node x.home).memo.Firm (.user (.package key)) (.cell c)

/-- What is never undone: a node that has left the tree stays away, and what depends on a record goes on to do so
while its own home is in the tree. -/
structure Tied (t t' : Tree) : Prop where
  alive : ∀ n < t.nodes.size, t'.isAlive n = true → t.isAlive n = true
  cells : ∀ c x, t.cell? c = some x → ∃ x', t'.cell? c = some x' ∧ x'.home = x.home ∧
    ∀ u y, t.cell? u = some y → y.home < t.nodes.size → t'.isAlive y.home = true →
      u ∈ x.dependents → u ∈ x'.dependents

/-- What may become of a tree without a check: cells may be made and invalidated. -/
structure Onward (free : CacheKey → Prop) (t t' : Tree) : Prop extends Tied t t' where
  filed : Filed free t → Filed free t'
  size_le : t.nodes.size ≤ t'.nodes.size
  stamp : t.stamp ≤ t'.stamp
  marks : ∀ c, markOf t' c = markOf t c ∨ t.stamp < markOf t' c ∧ markOf t' c ≤ t'.stamp
  content : ∀ c x, t.cell? c = some x → ∃ x', t'.cell? c = some x' ∧ x'.content = x.content
  fresh : ∀ c x', t'.cell? c = some x' → (∃ x, t.cell? c = some x) ∨ x'.content.checkedAt = 0

namespace Onward

theorem trans (h : Onward free t t') (h' : Onward free t' t'') : Onward free t t'' where
  alive n hn halive := h.alive n hn (h'.alive n (Nat.lt_of_lt_of_le hn h.size_le) halive)
  cells c x hx := by
    obtain ⟨x', hx', hhome, hdeps⟩ := h.cells c x hx
    obtain ⟨x'', hx'', hhome', hdeps'⟩ := h'.cells c x' hx'
    refine ⟨x'', hx'', hhome'.trans hhome, fun u y hy hlt halive hu => ?_⟩
    obtain ⟨y', hy', hsame, -⟩ := h.cells u y hy
    have hlt' : y.home < t'.nodes.size := Nat.lt_of_lt_of_le hlt h.size_le
    exact hdeps' u y' hy' (hsame ▸ hlt') (hsame ▸ halive) (hdeps u y hy hlt (h'.alive _ hlt' halive) hu)
  filed ht := h'.filed (h.filed ht)
  size_le := h.size_le.trans h'.size_le
  stamp := h.stamp.trans h'.stamp
  marks c := by
    have hs := h.stamp
    have hs' := h'.stamp
    have hm := h.marks c
    have hm' := h'.marks c
    omega
  content c x hx := by
    obtain ⟨x', hx', hc⟩ := h.content c x hx
    obtain ⟨x'', hx'', hc'⟩ := h'.content c x' hx'
    exact ⟨x'', hx'', hc'.trans hc⟩
  fresh c x'' hx'' := by
    rcases h'.fresh c x'' hx'' with ⟨x', hx'⟩ | hzero
    · obtain ⟨y, hy, hcontent⟩ := h'.content c x' hx'
      obtain rfl : y = x'' := Option.some.inj (hy.symm.trans hx'')
      exact (h.fresh c x' hx').imp id fun hzero => hcontent ▸ hzero
    · exact .inr hzero

end Onward

/-- Whatever is asked of a tree, with notes written under keys of records only if these are free. -/
theorem onward_of_later {keys : CacheKey → Prop} (hkeys : ∀ key, keys (.package key) → free (.package key))
    (h : Later keys t t') : Onward free t t' where
  alive _ hn := h.isAlive hn
  cells c x hx := by
    obtain ⟨x', hx', hlater⟩ := h.cells c x hx
    exact ⟨x', hx', hlater.home, hlater.dependents⟩
  filed ht :=
    { bounded := h.bounded ht.bounded
      numbered := fun n => (h.memo n).numbered (ht.numbered n)
      intact := fun n => (h.memo n).intact (ht.intact n)
      note := fun n k c hk => by
        obtain ⟨x, key, hx, hkey, hdir, hpath⟩ := ht.note n k c ((h.memo n).notes (ht.numbered n) _ c hk)
        obtain ⟨x', hx', hlater⟩ := h.cells c x hx
        exact ⟨x', key, hx', hkey, hlater.content ▸ hdir, hlater.content ▸ hpath⟩
      home := fun c x' hx' => by
        have hlt : c < t.cells.size := h.size ▸ (Array.getElem?_eq_some_iff.mp hx').1
        have hx : t.cell? c = some t.cells[c] := Array.getElem?_eq_getElem hlt
        obtain ⟨y, hy, hlater⟩ := h.cells c _ hx
        obtain rfl : y = x' := Option.some.inj (hy.symm.trans hx')
        obtain ⟨hhome, key, hfirm⟩ := ht.home c _ hx
        rw [hlater.home]
        refine ⟨Nat.lt_of_lt_of_le hhome h.size_le, key, ?_⟩
        by_cases hkey : keys (.package key)
        · exact .inl (hkeys key hkey)
        · exact hfirm.imp id ((h.memo _).firm (ht.numbered _) _ c hkey) }
  size_le := h.size_le
  stamp := h.stamp
  marks c := by
    cases hx : t.cell? c with
    | none =>
      have hlt : t'.cells.size ≤ c := h.size ▸ Array.getElem?_eq_none_iff.mp hx
      have hx' : t'.cell? c = none := Array.getElem?_eq_none hlt
      exact .inl (by rw [markOf, markOf, hx, hx'])
    | some x =>
      obtain ⟨x', hx', hlater⟩ := h.cells c x hx
      rw [markOf_of_cell hx, markOf_of_cell hx']
      exact hlater.mark
  content c x hx := by
    obtain ⟨x', hx', hlater⟩ := h.cells c x hx
    exact ⟨x', hx', hlater.content⟩
  fresh c x' hx' := by
    have hlt : c < t.cells.size := h.size ▸ (Array.getElem?_eq_some_iff.mp hx').1
    exact .inl ⟨_, Array.getElem?_eq_getElem hlt⟩

/-- Questions leave the keys of records alone. -/
theorem onward_of_asking (h : Later CacheKey.Plain t t') : Onward free t t' := onward_of_later (fun _ => False.elim) h

section Record

variable {n : NodeId} {serial : Nat} {key : PackageKey} {record : PackageRecord}

theorem cell?_cellMade (t : Tree) (n : NodeId) (k : CacheKey) (serial : Nat) (record : PackageRecord) (c : CellId) :
    (cellMade t n k serial record).cell? c =
      if c = t.cells.size then some { home := n, content := record } else t.cell? c := by
  rw [cellMade, cell?, Array.getElem?_push]
  rfl

theorem cell?_cellMade_of_cell {k : CacheKey} {x : Cell PackageRecord} (hx : t.cell? c = some x) :
    (cellMade t n k serial record).cell? c = some x := by
  have hne : c ≠ t.cells.size := (Array.getElem?_eq_some_iff.mp hx).1.ne
  rw [cell?_cellMade, if_neg hne, hx]

theorem node_cellMade (t : Tree) (n : NodeId) (k : CacheKey) (serial : Nat) (record : PackageRecord) (m : NodeId) :
    (cellMade t n k serial record).node m =
      (t.modifyNode n fun nd => { nd with memo := memoMade t n k serial }).node m :=
  rfl

theorem memo_cellMade (t : Tree) (n : NodeId) (k : CacheKey) (serial : Nat) (record : PackageRecord) (m : NodeId) :
    ((cellMade t n k serial record).node m).memo = (t.node m).memo ∨
      m = n ∧ ((cellMade t n k serial record).node m).memo = memoMade t n k serial := by
  rw [node_cellMade, node_modifyNode]
  split
  · next h => exact .inr ⟨h.1.symm, rfl⟩
  · exact .inl rfl

theorem links_cellMade (t : Tree) (n : NodeId) (k : CacheKey) (serial : Nat) (record : PackageRecord)
    (m : NodeId) : ((cellMade t n k serial record).node m).parent = (t.node m).parent ∧
      ((cellMade t n k serial record).node m).children = (t.node m).children := by
  rw [node_cellMade, node_modifyNode]
  split <;> exact ⟨rfl, rfl⟩

section Made

variable (ht : Filed free t)
  (hstart : ((t.node n).memo.start (.user (.package key)) Note.isCell).2 = .missing serial)
include ht hstart

/-- The one new note in a memo is that of the new cell. -/
theorem kept_memoMade {k : NoteKey CacheKey} {x : Note CacheValue}
    (hk : (memoMade t n (.package key) serial).Kept k x) :
    (k = .user (.package key) ∧ x = .cell t.cells.size) ∨ (t.node n).memo.Kept k x := by
  have hnum := ht.numbered n
  have howns := (Memo.start_missing hnum hstart).1
  rcases Memo.Kept.of_write (fun _ => rfl) (fun _ ho => (hnum.start _).owns_unique ho howns) hk with hk | hk
  · exact .inl hk
  · exact .inr ((Memo.kept_start _).mp hk)

/-- A record that was kept is kept beside the new one. -/
theorem firm_memoMade {k : NoteKey CacheKey} (h : (t.node n).memo.Firm k (.cell c)) :
    (memoMade t n (.package key) serial).Firm k (.cell c) := by
  have hnum := ht.numbered n
  refine (h.start_of_wanted hnum rfl).modify fun s hs hv heq => ?_
  have hcell := (Memo.start_missing hnum hstart).2 (k, s) hs heq _ hv
  cases hcell

theorem filed_cellMade (hn : n < t.nodes.size) (hdir : key.dir = Path.normal record.dir)
    (hpath : key.importPath = record.importPath) : Filed free (cellMade t n (.package key) serial record) := by
  have hsize : (cellMade t n (.package key) serial record).nodes.size = t.nodes.size := by simp [cellMade]
  have hnode := memo_cellMade t n (.package key) serial record
  refine ⟨⟨hsize ▸ ht.bounded.root, fun m c hc => ?_⟩, fun m => ?_, fun m => ?_, fun m k c hk => ?_, fun c x hx => ?_⟩
  · rw [(links_cellMade t n _ serial record m).2] at hc
    exact hsize ▸ ht.bounded.children m c hc
  · rcases hnode m with hm | ⟨-, hm⟩ <;> rw [hm]
    · exact ht.numbered m
    · exact ((ht.numbered n).start _).finish _ _
  · rcases hnode m with hm | ⟨-, hm⟩ <;> rw [hm]
    · exact ht.intact m
    · exact ((ht.intact n).start _).modify fun _ => rfl
  · have hold : (t.node m).memo.Kept (.user k) (.cell c) →
        ∃ x key', (cellMade t n (.package key) serial record).cell? c = some x ∧ k = .package key' ∧
          key'.dir = Path.normal x.content.dir ∧ key'.importPath = x.content.importPath := by
      intro hk
      obtain ⟨x, key', hx, hrest⟩ := ht.note m k c hk
      exact ⟨x, key', cell?_cellMade_of_cell hx, hrest⟩
    rcases hnode m with hm | ⟨rfl, hm⟩ <;> rw [hm] at hk
    · exact hold hk
    · rcases kept_memoMade ht hstart hk with ⟨hkey, hc⟩ | hk
      · cases hkey
        cases hc
        exact ⟨⟨m, 0, [], record⟩, key, by rw [cell?_cellMade, if_pos rfl], rfl, hdir, hpath⟩
      · exact hold hk
  · rw [hsize]
    rw [cell?_cellMade] at hx
    split at hx
    · next hc =>
      cases hx
      have hmemo : ((cellMade t n (.package key) serial record).node n).memo = memoMade t n (.package key) serial := by
        rw [node_cellMade, node_modifyNode_self _ hn]
      refine ⟨hn, key, .inr ?_⟩
      rw [hmemo, hc]
      exact Memo.firm_finish (Memo.start_missing (ht.numbered n) hstart).1 ((ht.intact n).start _) _
    · obtain ⟨hhome, key', hfirm⟩ := ht.home c x hx
      refine ⟨hhome, key', hfirm.imp id fun hfirm => ?_⟩
      rcases hnode x.home with hm | ⟨hm, hm'⟩
      · rw [hm]
        exact hfirm
      · rw [hm']
        exact firm_memoMade ht hstart (hm ▸ hfirm)

end Made

theorem onward_cellMade (hn : n < t.nodes.size) (hdir : key.dir = Path.normal record.dir)
    (hpath : key.importPath = record.importPath) (hzero : record.checkedAt = 0)
    (hstart : ((t.node n).memo.start (.user (.package key)) Note.isCell).2 = .missing serial) :
    Onward free t (cellMade t n (.package key) serial record) where
  alive m _ h := by
    have hnodes := links_cellMade t n (.package key) serial record
    rwa [isAlive_congr (fun m => (hnodes m).1) (fun m => (hnodes m).2) rfl m] at h
  cells c x hx := ⟨x, cell?_cellMade_of_cell hx, rfl, fun _ _ _ _ _ => id⟩
  filed ht := filed_cellMade ht hstart hn hdir hpath
  size_le := by simp [cellMade]
  stamp := Nat.le_refl _
  marks c := by
    left
    rw [markOf, markOf, cell?_cellMade]
    split
    · next h =>
      have hnone : t.cell? c = none := Array.getElem?_eq_none h.ge
      rw [hnone]
      rfl
    · rfl
  content c x hx := ⟨x, cell?_cellMade_of_cell hx, rfl⟩
  fresh c x' hx' := by
    rw [cell?_cellMade] at hx'
    split at hx'
    · cases hx'
      exact .inr hzero
    · exact .inl ⟨x', hx'⟩

/-- The record of a package is one of its directory and its path. -/
structure Finds (free : CacheKey → Prop) (p : PackagePath) (t : Tree) (r : CellId × Tree) : Prop where
  onward : Onward free t r.2
  cell : ∃ x, r.2.cell? r.1 = some x ∧ Path.same x.content.dir p.dir = true ∧ x.content.importPath = p.importPath

theorem finds_readCell (ht : Filed free t) (hn : n < t.nodes.size) (i : Importer) (p : PackagePath) :
    Finds free p t (t.readCell n (.package (i.key p)) { importPath := p.importPath, dir := p.dir }) := by
  have hsame : ∀ {x : Cell PackageRecord}, (i.key p).dir = Path.normal x.content.dir →
      Path.same x.content.dir p.dir = true := fun h => Path.same_iff_normal_eq.mpr h.symm
  rw [readCell_eq]
  split
  · next c hfound =>
    refine ⟨onward_of_asking (.refl t), ?_⟩
    obtain ⟨x, key, hx, hkey, hdir, hpath⟩ := ht.note n _ c (Memo.start_found hfound).1
    cases hkey
    exact ⟨x, hx, hsame hdir, hpath.symm⟩
  · next y hy hfound =>
    have hcell := (Memo.start_found hfound).2
    cases y with
    | cell c => exact absurd rfl (hy c)
    | _ => cases hcell
  · next serial hstart =>
    refine ⟨onward_cellMade hn rfl rfl rfl hstart, ⟨n, 0, [], { importPath := p.importPath, dir := p.dir }⟩, ?_⟩
    exact ⟨by rw [cell?_cellMade, if_pos rfl], hsame rfl, rfl⟩

theorem finds_record (ht : Filed free t) (d : Disk) (i : Importer) (p : PackagePath) :
    Finds free p t (i.record d p t) := by
  have hlook : Looks CacheKey.Plain (look d p.dir) :=
    (looks_nodeAt p.dir).bind fun n => (looks_refresh d n).bind fun _ => .pure _
  have hlater : Onward free t (look d p.dir t).2 := onward_of_asking (hlook t)
  have hn : (look d p.dir t).1 < (look d p.dir t).2.nodes.size := by
    rw [look_run]
    have hsize := (looks_refresh d (nodeAt p.dir t).1 (nodeAt p.dir t).2).size_le
    exact Nat.lt_of_lt_of_le (nodeAt_lt ht.bounded p.dir) hsize
  have hread := finds_readCell (hlater.filed ht) hn i p
  rw [record_eq]
  exact ⟨hlater.trans hread.onward, hread.cell⟩

end Record

/-! ## What a log says of the records -/

/-- What a record says is what the log says of its last check. One that was a cycle left the time of an earlier
check, which an invalidation has overtaken. -/
def Told (log : List Incident) (c : CellId) (mark : Nat) (x : PackageRecord) : Prop :=
  match lastCheck c log with
  | none => x.checkedAt = 0
  | some k => x.result = some k.result ∧ k.path.importPath = x.importPath ∧ .began c k.stamp ∈ log ∧
    if isCycle k.result then x.checkedAt ≤ mark else x.checkedAt = k.stamp

/-- A record has another among its dependents, if that one is at home in the tree. -/
def Bound (t : Tree) (u c : CellId) : Prop :=
  ∃ x y, t.cell? c = some x ∧ t.cell? u = some y ∧ (t.isAlive y.home = true → u ∈ x.dependents)

theorem Bound.tied {u : CellId} (h : Bound t u c) (ht : Filed free t) (htied : Tied t t') : Bound t' u c := by
  obtain ⟨x, y, hx, hy, hdeps⟩ := h
  obtain ⟨x', hx', -, hdeps'⟩ := htied.cells c x hx
  obtain ⟨y', hy', hhome, -⟩ := htied.cells u y hy
  have hlt := (ht.home u y hy).1
  refine ⟨x', y', hx', hy', fun halive => ?_⟩
  rw [hhome] at halive
  exact hdeps' u y hy hlt halive (hdeps (htied.alive _ hlt halive))

/-- What is true of a session and its log at any time, with notes written under free keys. -/
structure Watched.Sound (free : CacheKey → Prop) (w : Watched) : Prop where
  filed : Filed free w.tree
  used : ∀ u c, Uses w.log u c → Bound w.tree u c
  stamped : ∀ c, markOf w.tree c ≤ w.tree.stamp
  marked : ∀ c m, .marked c m ∈ w.log → m ≤ markOf w.tree c
  mark : ∀ c, markOf w.tree c = 0 ∨ .marked c (markOf w.tree c) ∈ w.log
  begun : ∀ c b, .began c b ∈ w.log → 0 < b ∧ b ≤ w.tree.stamp
  ordered : w.log.Pairwise Ordered
  told : ∀ c x, w.tree.cell? c = some x → Told w.log c (markOf w.tree c) x.content
  known : ∀ c, w.tree.cell? c = none → lastCheck c w.log = none
  fair : Justified w.log

theorem Told.mono {log' : List Incident} {mark mark' : Nat} {x : PackageRecord} (h : Told log c mark x)
    (hlast : lastCheck c log' = lastCheck c log) (hlog : ∀ e ∈ log, e ∈ log') (hmark : mark ≤ mark') :
    Told log' c mark' x := by
  unfold Told at h ⊢
  rw [hlast]
  split at h
  · exact h
  · obtain ⟨hresult, hpath, hbegan, hchecked⟩ := h
    refine ⟨hresult, hpath, hlog _ hbegan, ?_⟩
    split_ifs at hchecked ⊢
    · exact hchecked.trans hmark
    · exact hchecked

namespace Watched.Sound

variable {w w' : Watched} {x : Cell PackageRecord}

/-- A record serves what it should. -/
theorem served (h : w.Sound free) (hx : w.tree.cell? c = some x) (hpath : x.content.importPath = p.importPath) :
    Fair w.log c p ((served? w.tree c).map (outcome p.importPath)) := by
  have htold := h.told c x hx
  rw [Told, markOf_of_cell hx] at htold
  have hserved : served? w.tree c =
      if x.content.checkedAt != 0 && x.invalidatedAt < x.content.checkedAt then x.content.result else none := by
    rw [served?, hx]
  constructor
  · intro y hy
    obtain ⟨r, hr, rfl⟩ := Option.map_eq_some_iff.mp hy
    rw [hserved] at hr
    split at hr
    · next hcond =>
      simp only [Bool.and_eq_true, bne_iff_ne, decide_eq_true_eq] at hcond
      split at htold
      · exact absurd htold hcond.1
      · next k hk =>
        obtain ⟨hresult, -, hbegan, hchecked⟩ := htold
        obtain rfl : k.result = r := Option.some.inj (hresult.symm.trans hr)
        split at hchecked
        · omega
        · next hcycle =>
          refine ⟨k, hk, hbegan, by simpa using hcycle, fun m hm => ?_, rfl⟩
          have := h.marked c m hm
          rw [markOf_of_cell hx] at this
          omega
    · cases hr
  · intro k early late hk hcycle hlog hlate
    rw [hk] at htold
    obtain ⟨hresult, hkpath, hbegan, hchecked⟩ := htold
    rw [if_neg (by simp [hcycle])] at hchecked
    have hpos := (h.begun c k.stamp hbegan).1
    have hmark : markOf w.tree c < k.stamp := by
      rcases h.mark c with hzero | hmem
      · omega
      · -- An invalidation that is in the log came before the check.
        have hearly : .marked c (markOf w.tree c) ∈ early := by
          rw [hlog] at hmem
          rcases List.mem_append.mp hmem with hmem | hmem
          · exact hmem
          · rcases List.mem_cons.mp hmem with heq | hmem
            · cases heq
            · exact absurd hmem (hlate _)
        have hordered := h.ordered
        rw [hlog, List.pairwise_append] at hordered
        exact hordered.2.2 _ hearly _ List.mem_cons_self
    rw [markOf_of_cell hx] at hmark
    have hcond : (x.content.checkedAt != 0 && decide (x.invalidatedAt < x.content.checkedAt)) = true := by
      simp only [Bool.and_eq_true, bne_iff_ne, decide_eq_true_eq]
      omega
    rw [hserved, if_pos hcond, hresult, hkpath, hpath]
    rfl

/-- Whatever is done without a check, with the invalidations noted. -/
theorem watch (h : w.Sound free) {s : Session} (ho : Onward free w.tree s.tree) :
    (Watched.mk s (w.log ++ marksIn w.tree s.tree)).Sound free := by
  have hmono : ∀ c, markOf w.tree c ≤ markOf s.tree c := by
    intro c
    have := h.stamped c
    have := ho.marks c
    omega
  have hnone : ∀ c, ∀ e ∈ marksIn w.tree s.tree, e.check? c = none := by
    intro c e he
    obtain ⟨c', rfl, -⟩ := mem_marksIn he
    rfl
  have hmarks : ∀ e ∈ marksIn w.tree s.tree, ∀ c p stored, e ≠ .consulted c p stored := by
    intro e he
    obtain ⟨c', rfl, -⟩ := mem_marksIn he
    simp
  refine ⟨ho.filed h.filed, fun u c hu => (h.used u c (uses_append hmarks hu)).tied h.filed ho.toTied, fun c => ?_,
    fun c m hm => ?_, fun c => ?_, fun c b hb => ?_, ?_, fun c x' hx' => ?_, fun c hc => ?_,
    justified_append h.fair hmarks⟩
  · have := h.stamped c
    have := ho.marks c
    have := ho.stamp
    change markOf s.tree c ≤ s.tree.stamp
    omega
  · rcases List.mem_append.mp hm with hm | hm
    · exact (h.marked c m hm).trans (hmono c)
    · obtain ⟨c', heq, -⟩ := mem_marksIn hm
      cases heq
      exact Nat.le_refl _
  · change markOf s.tree c = 0 ∨ _
    by_cases hzero : markOf s.tree c = 0
    · exact .inl hzero
    · by_cases hsame : markOf s.tree c = markOf w.tree c
      · rcases h.mark c with hold | hold
        · exact .inl (hsame.trans hold)
        · exact .inr (List.mem_append_left _ (hsame ▸ hold))
      · exact .inr (List.mem_append_right _ (marked_mem_marksIn hsame hzero))
  · rcases List.mem_append.mp hb with hb | hb
    · obtain ⟨hpos, hle⟩ := h.begun c b hb
      exact ⟨hpos, hle.trans ho.stamp⟩
    · obtain ⟨c', heq, -⟩ := mem_marksIn hb
      cases heq
  · refine List.pairwise_append.mpr ⟨h.ordered, ?_, fun e he e' he' => ?_⟩
    · refine List.pairwise_of_forall_mem_list fun e he e' he' => ?_
      obtain ⟨c, rfl, -⟩ := mem_marksIn he
      obtain ⟨c', rfl, -⟩ := mem_marksIn he'
      trivial
    · obtain ⟨c, rfl, hne⟩ := mem_marksIn he'
      cases e with
      | began c' b =>
        have hb := (h.begun c' b he).2
        have hm := ho.marks c
        change b < markOf s.tree c
        omega
      | _ => trivial
  · rcases ho.fresh c x' hx' with ⟨x, hx⟩ | hzero
    · obtain ⟨y, hy, hcontent⟩ := ho.content c x hx
      obtain rfl : y = x' := Option.some.inj (hy.symm.trans hx')
      rw [hcontent]
      exact (h.told c x hx).mono (lastCheck_append_eq (hnone c)) (fun e => List.mem_append_left _) (hmono c)
    · cases hx : w.tree.cell? c with
      | some x =>
        obtain ⟨y, hy, hcontent⟩ := ho.content c x hx
        obtain rfl : y = x' := Option.some.inj (hy.symm.trans hx')
        rw [hcontent]
        exact (h.told c x hx).mono (lastCheck_append_eq (hnone c)) (fun e => List.mem_append_left _) (hmono c)
      | none =>
        rw [Told, lastCheck_append_eq (hnone c), h.known c hx]
        exact hzero
  · have hold : w.tree.cell? c = none := by
      cases hx : w.tree.cell? c with
      | none => rfl
      | some x =>
        obtain ⟨y, hy, -⟩ := ho.content c x hx
        exact absurd (hc.symm.trans hy) (by simp)
    exact (lastCheck_append_eq (hnone c)).trans (h.known c hold)

/-- An import that got as far as a record is noted. -/
theorem consulted (h : w.Sound free) {stored : Option (Except ImportError Package)} (hfair : Fair w.log c p stored)
    (hbound : ∀ u, (opens w.log).head? = some u → Bound w.tree u c) :
    (Watched.mk w.session (w.log ++ [.consulted c p stored])).Sound free := by
  have hnone : ∀ c', ∀ e ∈ [Incident.consulted c p stored], e.check? c' = none := by simp [Incident.check?]
  refine ⟨h.filed, fun u c' hu => ?_, h.stamped, fun c' m hm => h.marked c' m (by simpa using hm),
    fun c' => (h.mark c').imp id (List.mem_append_left _), fun c' b hb => h.begun c' b (by simpa using hb), ?_,
    fun c' x hx => (h.told c' x hx).mono (lastCheck_append_eq (hnone c')) (fun e => List.mem_append_left _)
      (Nat.le_refl _),
    fun c' hc' => (lastCheck_append_eq (hnone c')).trans (h.known c' hc'), ?_⟩
  · rcases uses_concat hu with hu | ⟨⟨p', stored', heq⟩, hopen⟩
    · exact h.used u c' hu
    · cases heq
      exact hbound u hopen
  · refine List.pairwise_append.mpr ⟨h.ordered, List.pairwise_singleton _ _, fun e _ e' he' => ?_⟩
    obtain rfl := List.mem_singleton.mp he'
    cases e <;> trivial
  · intro before c' p' stored' hpre
    rcases List.prefix_concat_iff.mp hpre with heq | hpre
    · obtain ⟨rfl, hlast⟩ := List.append_inj' heq rfl
      cases hlast
      exact hfair
    · exact h.fair before c' p' stored' hpre

/-- A check begins with a stamp above all earlier ones. -/
theorem begin (h : w.Sound free) (c : CellId) : (w.begin c).Sound free := by
  have hcell : ∀ c', (w.begin c).tree.cell? c' = w.tree.cell? c' := fun _ => rfl
  have hmark : ∀ c', markOf (w.begin c).tree c' = markOf w.tree c' := fun _ => rfl
  have hstamp : (w.begin c).tree.stamp = w.tree.stamp + 1 := rfl
  have hlog : (w.begin c).log = w.log ++ [.began c (w.tree.stamp + 1)] := rfl
  have hnone : ∀ c', ∀ e ∈ [Incident.began c (w.tree.stamp + 1)], e.check? c' = none := by simp [Incident.check?]
  have halive : ∀ m, (w.begin c).tree.isAlive m = w.tree.isAlive m := isAlive_of_nodes (by rfl) (by rfl)
  have hties : Tied w.tree (w.begin c).tree :=
    ⟨fun m _ hm => halive m ▸ hm, fun c' x hx => ⟨x, hx, rfl, fun _ _ _ _ _ => id⟩⟩
  have hf := h.filed
  refine ⟨⟨⟨hf.bounded.root, hf.bounded.children⟩, hf.numbered, hf.intact, hf.note, hf.home⟩,
    fun u c' hu => (h.used u c' (uses_append (by simp) (hlog ▸ hu))).tied hf hties, fun c' => ?_,
    fun c' m hm => h.marked c' m (by simpa [hlog] using hm),
    fun c' => (h.mark c').imp id (List.mem_append_left _), fun c' b hb => ?_, ?_, fun c' x hx => ?_,
    fun c' hc' => ?_, ?_⟩
  · have := h.stamped c'
    rw [hmark, hstamp]
    omega
  · rw [hstamp]
    rw [hlog, List.mem_append, List.mem_singleton] at hb
    rcases hb with hb | hb
    · have := h.begun c' b hb
      omega
    · cases hb
      omega
  · rw [hlog]
    refine List.pairwise_append.mpr ⟨h.ordered, List.pairwise_singleton _ _, fun e he e' he' => ?_⟩
    obtain rfl := List.mem_singleton.mp he'
    cases e with
    | marked c' m =>
      have := h.marked c' m he
      have := h.stamped c'
      change m < w.tree.stamp + 1
      omega
    | _ => trivial
  · rw [hlog, hmark]
    exact (h.told c' x (hcell c' ▸ hx)).mono (lastCheck_append_eq (hnone c')) (fun e => List.mem_append_left _)
      (Nat.le_refl _)
  · rw [hlog, lastCheck_append_eq (hnone c')]
    exact h.known c' (hcell c' ▸ hc')
  · rw [hlog]
    exact justified_append h.fair (by simp)

theorem cell?_finish (w : Watched) (c : CellId) (p : PackagePath) (began : Nat) (r : Except ImportError Package)
    (c' : CellId) : (w.finish c p began r).tree.cell? c' = if c = c' then (w.tree.cell? c').map fun x =>
      { x with content := { x.content with
          result := some r
          checkedAt := if isCycle r then x.content.checkedAt else began } } else w.tree.cell? c' :=
  cell?_modifyCell { w.tree with active := w.tree.active.drop 1 } c c' _

/-- A check ends. If it was a cycle, what was there before must not serve. -/
theorem finish (h : w.Sound free) (hx : w.tree.cell? c = some x) (hpath : p.importPath = x.content.importPath)
    (hold : x.content.checkedAt ≤ markOf w.tree c) {began : Nat} (hbegan : .began c began ∈ w.log)
    (r : Except ImportError Package) : (w.finish c p began r).Sound free := by
  have hcell := cell?_finish w c p began r
  have hmark : ∀ c', markOf (w.finish c p began r).tree c' = markOf w.tree c' := by
    intro c'
    rw [markOf, markOf, hcell]
    split <;> simp [Function.comp_def]
  have hlog : (w.finish c p began r).log = w.log ++ [.ended c p began r] := rfl
  have hlast : lastCheck c (w.log ++ [.ended c p began r]) = some ⟨p, began, r⟩ := by
    simp [lastCheck, Incident.check?]
  have hother : ∀ c', c' ≠ c → lastCheck c' (w.log ++ [.ended c p began r]) = lastCheck c' w.log :=
    fun c' hc' => lastCheck_append_eq (by simp [Incident.check?, hc'.symm])
  have hsame : ∀ c' x, w.tree.cell? c' = some x → ∃ x', (w.finish c p began r).tree.cell? c' = some x' ∧
      x'.home = x.home ∧ x'.dependents = x.dependents := by
    intro c' x hx
    rw [hcell, hx]
    split
    · exact ⟨_, rfl, rfl, rfl⟩
    · exact ⟨x, rfl, rfl, rfl⟩
  have halive : ∀ m, (w.finish c p began r).tree.isAlive m = w.tree.isAlive m := isAlive_of_nodes (by rfl) (by rfl)
  have hties : Tied w.tree (w.finish c p began r).tree := by
    refine ⟨fun m _ hm => halive m ▸ hm, fun c' x hx => ?_⟩
    obtain ⟨x', hx', hhome, hdeps⟩ := hsame c' x hx
    exact ⟨x', hx', hhome, fun _ _ _ _ _ hu => hdeps ▸ hu⟩
  have hf := h.filed
  refine ⟨⟨⟨hf.bounded.root, hf.bounded.children⟩, hf.numbered, hf.intact, fun n k c' hk => ?_, fun c' y hy => ?_⟩,
    fun u c' hu => (h.used u c' (uses_append (by simp) (hlog ▸ hu))).tied hf hties,
    fun c' => hmark c' ▸ h.stamped c',
    fun c' m hm => hmark c' ▸ h.marked c' m (by simpa [hlog] using hm),
    fun c' => hmark c' ▸ (h.mark c').imp id (List.mem_append_left _),
    fun c' b hb => h.begun c' b (by simpa [hlog] using hb), ?_, fun c' y hy => ?_, fun c' hc' => ?_, ?_⟩
  · obtain ⟨y, key, hy, hkey⟩ := h.filed.note n k c' hk
    rw [hcell, hy]
    split
    · exact ⟨_, key, rfl, hkey⟩
    · exact ⟨y, key, rfl, hkey⟩
  · rw [hcell] at hy
    split at hy
    · obtain ⟨z, hz, rfl⟩ := Option.map_eq_some_iff.mp hy
      exact hf.home c' z hz
    · exact hf.home c' y hy
  · rw [hlog]
    refine List.pairwise_append.mpr ⟨h.ordered, List.pairwise_singleton _ _, fun e _ e' he' => ?_⟩
    obtain rfl := List.mem_singleton.mp he'
    cases e <;> trivial
  · rw [hlog, hmark]
    rw [hcell] at hy
    by_cases hc : c' = c
    · subst hc
      rw [if_pos rfl, hx] at hy
      cases hy
      rw [Told, hlast]
      refine ⟨rfl, hpath, List.mem_append_left _ hbegan, ?_⟩
      split_ifs
      · exact hold
      · rfl
    · rw [if_neg (Ne.symm hc)] at hy
      exact (h.told c' y hy).mono (hother c' hc) (fun e => List.mem_append_left _) (Nat.le_refl _)
  · have hne : c' ≠ c := by
      rintro rfl
      simp [hcell, hx] at hc'
    rw [hcell, if_neg hne.symm] at hc'
    rw [hlog, hother c' hne]
    exact h.known c' hc'
  · rw [hlog]
    exact justified_append h.fair (by simp)

end Watched.Sound

end EditorAgent.Go

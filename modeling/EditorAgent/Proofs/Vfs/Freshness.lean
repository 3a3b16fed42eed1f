import EditorAgent.Proofs.Disk.Dates
import EditorAgent.Proofs.Vfs.Sightings
import EditorAgent.Proofs.Vfs.Ways
import Mathlib

/-!
# Files that are never stale

Where stats are never served from the tree, every stat is what the disk tells. What is kept of a file was read when
the file had the date that was last found, so it is what the disk holds whenever a stat finds that date again.
-/

namespace EditorAgent.Vfs

variable {κ ν ρ : Type} {v v' : Vfs κ ν ρ} {n m : NodeId} {d first : Disk} {ds : List Disk} {L L' : Log}
  {info old : FileInfo} {e : DiskEntry} {p : String} {P : String → Prop}

/-! ## What was last reported -/

/-- Whatever is known to be found was reported, and of what is not known nothing was. -/
structure Reports (L : Log) (v : Vfs κ ν ρ) : Prop where
  found : ∀ m info, (v.node m).stat = .found info → L.reported m = some info
  unknown : ∀ m, (v.node m).stat = .unknown → L.reported m = none

namespace Reports

theorem make (e : Expiry) : Reports .blank (make e : Vfs κ ν ρ) := by
  refine ⟨fun m info hm => ?_, fun _ _ => rfl⟩
  cases m with
  | zero => cases hm
  | succ m =>
    rw [node_of_size_le (by simp [Vfs.make])] at hm
    cases hm

theorem transfer (h : Reports L v) (hstat : ∀ m, (v'.node m).stat = (v.node m).stat)
    (hlog : L'.reported = L.reported) : Reports L' v' :=
  ⟨fun m info hm => hlog ▸ h.found m info (hstat m ▸ hm), fun m hm => hlog ▸ h.unknown m (hstat m ▸ hm)⟩

/-- What is found now differs from what is known of the node if it differs from what was last reported. -/
theorem differs (h : Reports L v) (hold : L.reported n = some old)
    (hdiff : old.modified ≠ info.modified ∨ old.kind ≠ info.kind) : v.differs n info = true := by
  rw [Vfs.differs]
  cases hs : (v.node n).stat with
  | unknown =>
    rw [h.unknown n hs] at hold
    cases hold
  | missing => rfl
  | found prev =>
    obtain rfl := Option.some.inj (hold.symm.trans (h.found n prev hs))
    simpa [Stat.change] using hdiff

theorem look {w : Vfs κ ν ρ} (h : Reports L v) (hlook : Look d n v w) : Reports (L.look d v n) w := by
  refine ⟨fun m info hm => ?_, fun m hm => ?_⟩ <;> rw [hlook.stat] at hm <;> rw [Log.reported_look]
  · by_cases hmn : m = n
    · rw [if_pos hmn, looked] at hm
      rw [if_pos hmn]
      cases he : d.entry (v.path n) with
      | error cause =>
        rw [he] at hm
        cases hm
      | ok e =>
        rw [he] at hm
        cases hm
        rfl
    · rw [if_neg hmn] at hm ⊢
      exact h.found m info hm
  · by_cases hmn : m = n
    · rw [if_pos hmn, looked] at hm
      cases he : d.entry (v.path n) <;> rw [he] at hm <;> cases hm
    · rw [if_neg hmn] at hm ⊢
      exact h.unknown m hm

theorem stat (h : Reports L v) (hlinked : v.Linked P) (hn : n < v.nodes.size) :
    Reports (L.stat d v n) (stat d n v).2 := by
  cases hs : v.served n with
  | true => rwa [stat_of_served hs, Log.stat, hs, if_pos rfl]
  | false =>
    obtain ⟨w, hlook, hrel⟩ := exists_look hlinked hn hs d
    exact (h.look hlook).transfer hrel.quiet.stat (funext (L.reported_stat hs))

end Reports

variable [DecidableEq κ]

theorem Step.reports (hs : Step d L v L' v') (hlinked : v.Linked fun _ => True) (h : Reports L v) : Reports L' v' := by
  obtain ⟨hquiet, rfl⟩ | ⟨n, hn, dir, entries, -, rfl, rfl⟩ | ⟨n, hn, rfl, rfl | ⟨info, data, -, -, rfl⟩⟩ := hs.cases
  · exact h.transfer hquiet.stat rfl
  · exact h.transfer (Relisted.syncChildren hlinked n entries).quiet.stat rfl
  · exact h.stat hlinked hn
  · refine (h.stat hlinked hn).transfer (fun m => ?_) rfl
    rw [node_modifyNode]
    split <;> rfl

theorem Run.reports (h : Run ds L v) : Reports L v := by
  induction h with
  | start _ e => exact .make e
  | edit _ _ ih => exact ih
  | call h hs ih => exact hs.reports h.tracks.1 ih

/-! ## What is forgotten -/

/-- No more can be read than is sticky and was there before. -/
def Forgotten (m m' : Memo (NoteKey κ) (Note ν)) : Prop := ∀ k x, m'.Kept k x → m.Firm k x

/-- A stat that does not find what was last reported drops what was noted at the node, and at its parent if it finds
no directory. -/
theorem Run.forgotten (h : Run (d :: ds) L v) (hn : n < v.nodes.size) (hold : L.reported n = some old)
    (hinfo : (stat d n v).1 = .ok info) (hdiff : old.modified ≠ info.modified ∨ old.kind ≠ info.kind) :
    Forgotten (v.node n).memo ((stat d n v).2.node n).memo ∧
      (info.kind ≠ .dir → ∀ p, (v.node n).parent = some p →
        Forgotten (v.node p).memo ((stat d n v).2.node p).memo) := by
  have hlinked := h.tracks.1
  cases hs : v.served n with
  | true =>
    -- What is served was reported.
    have hreported := h.reports.found n info (found_of_served hs hinfo)
    obtain rfl := Option.some.inj (hold.symm.trans hreported)
    simp at hdiff
  | false =>
    obtain ⟨e, he, rfl⟩ := exists_entry_of_stat hs hinfo
    have hdiffers := h.reports.differs hold hdiff
    obtain ⟨w, hlook, hrel⟩ := exists_look hlinked hn hs d
    have hforgotten : ∀ m < v.nodes.size, drops d n v m = true →
        Forgotten (v.node m).memo ((stat d n v).2.node m).memo := by
      intro m hm hdrops k x hkept
      rw [hrel.memo_eq (hlook.size.symm ▸ hm), hlook.memo, hdrops, if_pos rfl] at hkept
      exact hkept.firm
    have hdrops : ∀ m, drops d n v m = v.forgets n (infoOf (v.node n).name e) m := fun m => by rw [drops, he]
    refine ⟨hforgotten n hn ?_, fun hkind p hp => hforgotten p ?_ ?_⟩
    · rw [hdrops, forgets, hdiffers]
      simp
    · exact Nat.lt_trans (hlinked.name n hn p hp).1 hn
    · rw [hdrops, forgets, hdiffers]
      simp [hkind, hp]

/-! ## What is kept of a file -/

/-- The bytes that a slot holds were read where the node is, when what stood there was as it was last found. -/
def Attested (ds : List Disk) (v : Vfs κ ν ρ) (m : NodeId) (s : Slot (Note ν)) : Prop :=
  s.pinned = false ∧ ∃ info, (v.node m).stat = .found info ∧ ∃ d ∈ ds, ∃ e data, d.entry (v.path m) = .ok e ∧
    e.item.kind = info.kind ∧ e.modified = info.modified ∧ d.read (v.path m) = .ok data ∧ s.value = some (.blob data)

/-- No stat is served, and all bytes that are kept are attested. -/
structure Fresh (ds : List Disk) (v : Vfs κ ν ρ) : Prop where
  expiry : v.expiry = .always
  due : ∀ m, (v.node m).fresh = false
  blobs : ∀ m s, (NoteKey.blob, s) ∈ (v.node m).memo.entries → v.Attested ds m s

namespace Fresh

omit [DecidableEq κ]

theorem make (ds : List Disk) : Fresh ds (make .always : Vfs κ ν ρ) := by
  refine ⟨rfl, fun m => ?_, fun m s hs => ?_⟩
  · cases m with
    | zero => rfl
    | succ m => rw [node_of_size_le (by simp [Vfs.make])]; rfl
  · rw [memo_make] at hs
    cases hs

theorem edit (h : Fresh ds v) (d : Disk) : Fresh (d :: ds) v where
  expiry := h.expiry
  due := h.due
  blobs m s hs := by
    obtain ⟨hpinned, info, hfound, b, hb, hrest⟩ := h.blobs m s hs
    exact ⟨hpinned, info, hfound, b, List.mem_cons_of_mem d hb, hrest⟩

theorem not_served (h : Fresh ds v) (n : NodeId) : v.served n = false := by
  rw [served, h.due, Bool.false_and]

/-- A node at which something is kept is in the tree. -/
theorem lt (h : Fresh ds v) {s : Slot (Note ν)} (hs : (NoteKey.blob, s) ∈ (v.node m).memo.entries) :
    m < v.nodes.size := by
  by_contra hlt
  obtain ⟨-, info, hfound, -⟩ := h.blobs m s hs
  rw [node_of_size_le (Nat.le_of_not_lt hlt)] at hfound
  cases hfound

theorem quiet (h : Fresh ds v) (hnumbered : ∀ m, (v.node m).memo.Numbered) (hquiet : Quiet v v') : Fresh ds v' where
  expiry := hquiet.expiry.trans h.expiry
  due m := Bool.eq_false_iff.mpr fun hfresh => by
    have := hquiet.fresh m hfresh
    rw [h.due] at this
    cases this
  blobs m s hs := by
    have hs := hquiet.blobs m (hnumbered m) s hs
    rw [Attested, hquiet.stat, hquiet.shape.path_eq (h.lt hs)]
    exact h.blobs m s hs

theorem look {w : Vfs κ ν ρ} (h : Fresh ds v) (hlook : Look d n v w) : Fresh ds w where
  expiry := hlook.expiry.trans h.expiry
  due m := by
    rw [hlook.fresh, h.expiry]
    split
    · rfl
    · exact h.due m
  blobs m s hs := by
    rw [hlook.memo] at hs
    cases hdrops : drops d n v m with
    | true =>
      -- Bytes are not pinned, so they are dropped with the memo.
      rw [hdrops, if_pos rfl] at hs
      obtain ⟨hold, hout⟩ := List.mem_filter.mp hs
      rw [Memo.outlives, (h.blobs m s hold).1] at hout
      cases hout
    | false =>
      rw [hdrops, if_neg Bool.false_ne_true] at hs
      obtain ⟨hpinned, old, hfound, b, hb, e, data, he, hkind, hdate, hrest⟩ := h.blobs m s hs
      rw [Attested, hlook.stat, hlook.shape.path_eq (h.lt hs)]
      refine ⟨hpinned, ?_⟩
      by_cases hmn : m = n
      · subst hmn
        obtain ⟨x, hx, hkind', hdate'⟩ := entry_of_not_drops hfound hdrops
        rw [if_pos rfl, looked, hx]
        exact ⟨_, rfl, b, hb, e, data, he, hkind.trans hkind', hdate.trans hdate', hrest⟩
      · rw [if_neg hmn]
        exact ⟨old, hfound, b, hb, e, data, he, hkind, hdate, hrest⟩

theorem stat (h : Fresh ds v) (hnumbered : ∀ m, (v.node m).memo.Numbered) (hlinked : v.Linked P)
    (hn : n < v.nodes.size) (d : Disk) : Fresh ds (stat d n v).2 := by
  obtain ⟨w, hlook, hrel⟩ := exists_look hlinked hn (h.not_served n) d
  refine (h.look hlook).quiet (fun m => ?_) hrel.quiet
  rw [hlook.memo]
  split
  · exact (hnumbered m).clear
  · exact hnumbered m

/-- Bytes that are read right after a stat are attested by the disk itself. -/
theorem putBlob [DecidableEq κ] {data : Bytes} (h : Fresh (d :: ds) v) (hfound : (v.node n).stat = .found info)
    (he : d.entry (v.path n) = .ok e) (hkind : e.item.kind = info.kind) (hdate : e.modified = info.modified)
    (hread : d.read (v.path n) = .ok data) :
    Fresh (d :: ds) (v.modifyNode n fun nd => { nd with memo := nd.memo.put .blob (.blob data) }) := by
  have hshape : Shape v (v.modifyNode n fun nd => { nd with memo := nd.memo.put .blob (.blob data) }) :=
    .modifyNode rfl rfl
  have hstat : ∀ m, ((v.modifyNode n fun nd => { nd with memo := nd.memo.put .blob (.blob data) }).node m).stat =
      (v.node m).stat := by
    intro m
    rw [node_modifyNode]
    split <;> rfl
  refine ⟨h.expiry, fun m => ?_, fun m s hs => ?_⟩
  · rw [node_modifyNode]
    split <;> exact h.due m
  · rw [Attested, hstat]
    rw [node_modifyNode] at hs
    split at hs
    · next hm =>
      obtain ⟨rfl, hn⟩ := hm
      rw [hshape.path_eq hn]
      rcases Memo.mem_put hs with ⟨hvalue, hpinned⟩ | hold
      · exact ⟨hpinned, info, hfound, d, List.mem_cons_self, e, data, he, hkind, hdate, hread, hvalue⟩
      · exact h.blobs n s hold
    · rw [hshape.path_eq (h.lt hs)]
      exact h.blobs m s hs

/-- Bytes that were kept were read when the file had the date that it has now, so they are what the disk holds. -/
theorem readNoted_fst [DecidableEq κ] (h : Fresh (d :: ds) v) (hdated : Disk.Dated first (d :: ds))
    (hsteady : Disk.Steady first (d :: ds)) (hfound : (v.node n).stat = .found info)
    (he : d.entry (v.path n) = .ok e) (hkind : info.kind = e.item.kind) (hdate : info.modified = e.modified)
    (hdir : e.item.kind ≠ .dir) : (readNoted d n v).1 = (d.read (v.path n)).mapError .disk := by
  rw [readNoted]
  split
  · next data hpeek =>
    obtain ⟨⟨k, s⟩, hs, rfl, hvalue⟩ := Memo.kept_of_peek? hpeek
    obtain ⟨-, old, hold, b, hb, x, bytes, hx, hxkind, hxdate, hread, hbytes⟩ := h.blobs n s hs
    obtain rfl := Stat.found.inj (hfound.symm.trans hold)
    have hxdir : x.item.kind ≠ .dir := fun hx => hdir ((hxkind.trans hkind).symm.trans hx)
    have hsame := hdated.read_eq hsteady hb List.mem_cons_self hx he hxdir hdir (hxdate.trans hdate)
    cases hvalue.symm.trans hbytes
    rw [← hsame, hread]
    rfl
  · cases d.read (v.path n) <;> rfl

end Fresh

theorem Step.fresh (hs : Step d L v L' v') (hlinked : v.Linked fun _ => True)
    (hnumbered : ∀ m, (v.node m).memo.Numbered) (h : Fresh (d :: ds) v) : Fresh (d :: ds) v' := by
  obtain ⟨hquiet, -⟩ | ⟨n, hn, dir, entries, -, rfl, -⟩ | ⟨n, hn, -, rfl | ⟨info, data, hinfo, hread, rfl⟩⟩ := hs.cases
  · exact h.quiet hnumbered hquiet
  · exact h.quiet hnumbered (Relisted.syncChildren hlinked n entries).quiet
  · exact h.stat hnumbered hlinked hn d
  · have hserved := h.not_served n
    obtain ⟨e, he, rfl⟩ := exists_entry_of_stat hserved hinfo
    have hentry : d.entry ((Vfs.stat d n v).2.path n) = .ok e := by rwa [path_stat hn d]
    exact (h.stat hnumbered hlinked hn d).putBlob (found_stat hlinked hn hserved he) hentry rfl rfl hread

theorem Step.expiry_eq (hs : Step d L v L' v') (hlinked : v.Linked fun _ => True) : v'.expiry = v.expiry := by
  have hstat : ∀ n < v.nodes.size, (Vfs.stat d n v).2.expiry = v.expiry := by
    intro n hn
    cases hserved : v.served n with
    | true => rw [stat_of_served hserved]
    | false =>
      obtain ⟨w, hlook, hrel⟩ := exists_look hlinked hn hserved d
      exact hrel.expiry.trans hlook.expiry
  obtain ⟨hquiet, -⟩ | ⟨n, hn, dir, entries, -, rfl, -⟩ | ⟨n, hn, -, rfl | ⟨info, data, hinfo, hread, rfl⟩⟩ := hs.cases
  · exact hquiet.expiry
  · exact (Relisted.syncChildren hlinked n entries).expiry
  · exact hstat n hn
  · exact hstat n hn

theorem Run.fresh (h : Run ds L v) (hexpiry : v.expiry = .always) : Fresh ds v := by
  induction h with
  | start _ e =>
    obtain rfl : e = .always := hexpiry
    exact .make _
  | edit _ _ ih => exact (ih hexpiry).edit _
  | call h hs ih =>
    have hlinked := h.tracks.1
    exact hs.fresh hlinked h.numbered (ih ((hs.expiry_eq hlinked).symm.trans hexpiry))

/-! ## What is answered -/

/-- What is told of a path that the disk refuses. -/
def refusal (path : String) (cause : DiskError) : VfsError :=
  if cause = .notFound then .notExist path else .disk cause

section Answers

variable (h : Run (d :: ds) L v) (hexpiry : v.expiry = .always)

include h hexpiry

/-- A stat is told what the disk tells. -/
theorem Run.stat_eq (n : NodeId) : (stat d n v).1 = match d.entry (v.path n) with
    | .ok e => .ok (infoOf (v.node n).name e)
    | .error cause => .error (refusal (v.path n) cause) := by
  have hserved := (h.fresh hexpiry).not_served n
  cases he : d.entry (v.path n) with
  | ok e => rw [stat_of_entry hserved he]
  | error cause =>
    rw [stat_of_error hserved he]
    rfl

/-- The bytes of a file are what the disk holds. -/
theorem Run.blob_fst (hn : n < v.nodes.size) (hdated : Disk.Dated first (d :: ds))
    (hsteady : Disk.Steady first (d :: ds)) :
    (blob d n v).1 = match d.entry (v.path n) with
      | .ok e => if e.item.kind = .dir then .error (.other s!"`{v.path n}` is a directory")
        else (d.read (v.path n)).mapError .disk
      | .error cause => .error (refusal (v.path n) cause) := by
  have hlinked := h.tracks.1
  have hfresh := h.fresh hexpiry
  have hserved := hfresh.not_served n
  rw [blob_eq]
  cases he : d.entry (v.path n) with
  | error cause =>
    rw [stat_of_error hserved he]
    rfl
  | ok e =>
    have hfst : stat d n v = (.ok (infoOf (v.node n).name e), (stat d n v).2) :=
      Prod.ext (by rw [stat_of_entry hserved he]) rfl
    have hpath := path_stat hn d
    have hkind : (infoOf (v.node n).name e).kind = e.item.kind := rfl
    rw [hfst]
    dsimp only
    rw [hpath, hkind]
    split
    · rfl
    · next hdir =>
      have hafter := hfresh.stat h.numbered hlinked hn d
      have hfound := found_stat hlinked hn hserved he
      rw [hafter.readNoted_fst hdated hsteady hfound (hpath.symm ▸ he) rfl rfl hdir, hpath]

end Answers

/-- What a tree answers for a path is what the disk tells of it. Paths that treat a file as a directory are left
aside: a tree leaves out what only they are refused for. -/
structure Answers (d : Disk) (p : String) (v : Vfs κ ν ρ) : Prop where
  found : ∀ e, d.entry p = .ok e → (statAt d p v).1 = .ok (infoOf ((splitPath p).getLastD "") e)
  bytes : ∀ e, d.entry p = .ok e → e.item.kind ≠ .dir → ∃ data, d.read p = .ok data ∧ (blobAt d p v).1 = .ok data
  dir : ∀ e, d.entry p = .ok e → e.item.kind = .dir →
    (blobAt d p v).1 = .error (.other s!"`{pathOf (splitPath p)}` is a directory")
  refused : ∀ cause, d.entry p = .error cause → cause ≠ .notDirectory →
    (statAt d p v).1 = .error (refusal (pathOf (splitPath p)) cause) ∧
      (blobAt d p v).1 = .error (refusal (pathOf (splitPath p)) cause)

theorem Run.answers (h : Run (d :: ds) L v) (hexpiry : v.expiry = .always) (hdated : Disk.Dated first (d :: ds))
    (hsteady : Disk.Steady first (d :: ds)) (habs : Path.isAbsolute p = true) (hslash : '\\' ∉ p.toList)
    (hlength : p.utf8ByteSize < Disk.maxPath) : Answers d p v := by
  obtain ⟨⟨L', hrun⟩, -, hlt⟩ := Known.nodeAt ⟨L, h⟩ p
  have hexpiry' : (v.poke p).2.expiry = .always := (expiry_pokeFrom ..).trans hexpiry
  obtain ⟨hnames, hname⟩ := h.tracks.1.names_poke p fun _ _ => trivial
  have hpath : (v.poke p).2.path (v.poke p).1 = pathOf (splitPath p) := congrArg pathOf hnames
  have hstat := Run.stat_eq (v := (v.poke p).2) hrun hexpiry' (v.poke p).1
  have hblob := Run.blob_fst (v := (v.poke p).2) (n := (v.poke p).1) hrun hexpiry' hlt hdated hsteady
  rw [← nodeAt_bind p (stat d), ← statAt, hpath, hname] at hstat
  rw [← nodeAt_bind p (blob d), ← blobAt, hpath] at hblob
  -- What the tree asks for is told as the path is.
  have hspelled : ∀ r, d.entry p = r → r ≠ .error .notDirectory → d.entry (pathOf (splitPath p)) = r := by
    intro r hr hfile
    rcases Disk.entry_spelled habs hslash hlength with hsame | hrefused
    · exact hsame.symm.trans hr
    · exact absurd (hr.symm.trans hrefused) hfile
  refine ⟨fun e he => ?_, fun e he hkind => ?_, fun e he hkind => ?_, fun cause he hfile => ?_⟩
  · rw [hstat, hspelled _ he (by simp)]
  · obtain ⟨data, hread⟩ := Disk.exists_read he hkind
    have hsame := hspelled _ he (by simp)
    refine ⟨data, hread p rfl, ?_⟩
    rw [hblob, hsame]
    dsimp only
    rw [if_neg hkind, hread _ (hsame.trans he.symm)]
    rfl
  · rw [hblob, hspelled _ he (by simp)]
    dsimp only
    rw [if_pos hkind]
  · have hsame := hspelled _ he (by simpa using hfile)
    rw [hstat, hblob, hsame]
    exact ⟨rfl, rfl⟩

/-- Files are never stale where stats are never served. On disks that change so that what is new has a new date, and
on which no path comes to lead from one file of the first disk to a different one of the same date, the answers are
what the disk tells; and whenever a stat does not find what was last reported of a node, no more can be read at the
node than is sticky, nor at its parent if it finds no directory. -/
theorem never_stale (h : Run (d :: ds) L v) (hexpiry : v.expiry = .always) :
    (∀ first p, Disk.Dated first (d :: ds) → Disk.Steady first (d :: ds) → Path.isAbsolute p = true →
      '\\' ∉ p.toList → p.utf8ByteSize < Disk.maxPath → Answers d p v) ∧
    ∀ n < v.nodes.size, ∀ old info, L.reported n = some old → (stat d n v).1 = .ok info →
      old.modified ≠ info.modified ∨ old.kind ≠ info.kind →
      Forgotten (v.node n).memo ((stat d n v).2.node n).memo ∧
        (info.kind ≠ .dir → ∀ p, (v.node n).parent = some p →
          Forgotten (v.node p).memo ((stat d n v).2.node p).memo) :=
  ⟨fun _ _ hdated hsteady habs hslash hlength => h.answers hexpiry hdated hsteady habs hslash hlength,
    fun _ hn _ _ hold hinfo hdiff => h.forgotten hn hold hinfo hdiff⟩

/-- A disk with one file. -/
def draft : Disk := ⟨[(["a"], ⟨.file [1] none, 1⟩)]⟩

/-- The file was read. -/
def perused : Vfs Unit Unit Unit := (blob draft 1 ((make .always).poke "/a").2).2

theorem never_stale_perused :
    (blobAt (draft.write "/a" [2] none 2 2) "/a" perused).1 = .ok [2] ∧
      Forgotten (perused.node 1).memo ((stat (draft.write "/a" [2] none 2 2) 1 perused).2.node 1).memo := by
  have hdraft : draft.Real := ⟨by decide, by decide⟩
  have hpoked : Run [draft] .blank ((make .always : Vfs Unit Unit Unit).poke "/a").2 :=
    (Run.start hdraft .always).call (.poke (n := rootId) (by decide) "a")
  have hperused : Run [draft] _ perused := hpoked.call (.blob (n := 1) (by decide))
  have htarget : draft.target (Disk.steps "/a") = ["a"] := by cbv
  have hdated : Disk.Dated draft [draft.write "/a" [2] none 2 2, draft] :=
    Disk.Dated.start.write (by simp [draft]) (htarget.symm ▸ by decide) [2] none
  have hrevised : draft.write "/a" [2] none 2 2 = ⟨[(["a"], ⟨.file [2] none, 2⟩)]⟩ := by cbv
  rw [hrevised] at hdated ⊢
  have hrun := hperused.edit (d := ⟨[(["a"], ⟨.file [2] none, 2⟩)]⟩) ⟨by decide, by decide⟩
  have hsteady : Disk.Steady draft [⟨[(["a"], ⟨.file [2] none, 2⟩)]⟩, draft] :=
    Disk.steady_of_linkless (by decide) (by decide)
  have hsize : 1 < perused.nodes.size := by cbv
  have hreported : (Log.blank.stat draft ((make .always : Vfs Unit Unit Unit).poke "/a").2 1).reported 1 =
      some ⟨"a", .file, 1, 1⟩ := by cbv
  have hstat : (stat ⟨[(["a"], ⟨.file [2] none, 2⟩)]⟩ 1 perused).1 = .ok ⟨"a", .file, 1, 2⟩ := by cbv
  have hread : Disk.read ⟨[(["a"], ⟨.file [2] none, 2⟩)]⟩ "/a" = .ok [2] := by cbv
  obtain ⟨hanswers, hforgotten⟩ := never_stale hrun (by cbv)
  have hanswers := hanswers draft "/a" hdated hsteady (by decide) (by decide) (by decide)
  obtain ⟨data, hdata, hblob⟩ := hanswers.bytes ⟨.file [2] none, 2⟩ (by cbv) (by decide)
  obtain rfl := Except.ok.inj (hread.symm.trans hdata)
  exact ⟨hblob, (hforgotten 1 hsize _ _ hreported hstat (by decide)).1⟩

/-- A backslash may stand in the name of a file, but divides a path in a tree. -/
theorem not_found_backslash : ¬ ∀ (d first : Disk) (ds : List Disk) (L : Log) (v : Vfs Unit Unit Unit) (p : String),
    Run (d :: ds) L v → v.expiry = .always → Disk.Dated first (d :: ds) → Path.isAbsolute p = true →
      ∀ e, d.entry p = .ok e → ∃ info, (statAt d p v).1 = .ok info := by
  intro hall
  have hd : (⟨[(["a\\b"], ⟨.file [] none, 1⟩)]⟩ : Disk).Real := ⟨by decide, by decide⟩
  obtain ⟨info, hinfo⟩ := hall _ _ [] .blank (make .always) "/a\\b" (.start hd .always) rfl .start (by decide)
    ⟨.file [] none, 1⟩ (by cbv)
  have hmissing : (statAt ⟨[(["a\\b"], ⟨.file [] none, 1⟩)]⟩ "/a\\b" (make .always : Vfs Unit Unit Unit)).1 =
      .error (.notExist "/a/b") := by cbv
  rw [hmissing] at hinfo
  cases hinfo

end EditorAgent.Vfs

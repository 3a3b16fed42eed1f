import EditorAgent.Proofs.Disk.Dates
import EditorAgent.Proofs.Vfs.Sightings
import EditorAgent.Proofs.Vfs.Ways
import Mathlib

/-!
# Files that are rewritten

The bytes of a file are kept until a stat finds another date or kind of the file, whether stats are served for a while,
for ever or not at all. So the bytes that are answered right after a look at the disk were in the file at some time since
it had the date that the look found. They are as many as the look told, unless the file was rewritten under one date.
-/

namespace EditorAgent

/-- Something of this kind and date stands at a path. -/
def Disk.Shows (d : Disk) (p : String) (info : FileInfo) : Prop :=
  ∃ e, d.entry p = .ok e ∧ e.item.kind = info.kind ∧ e.modified = info.modified

namespace Vfs

variable {κ ν ρ : Type} {v v' : Vfs κ ν ρ} {n m : NodeId} {d : Disk} {ds : List Disk} {L L' : Log}
  {info : FileInfo} {e : DiskEntry} {p : String} {data : Bytes} {expiry : Expiry} {P : String → Prop}

/-- Bytes that a path has held at some time since it was of this kind and date, or at that very time if no stat is
served. The disks are those that there were, the last one first. -/
def HeldSince (ds : List Disk) (expiry : Expiry) (p : String) (info : FileInfo) (data : Bytes) : Prop :=
  ∃ newer b older, ds = newer ++ b :: older ∧ b.Shows p info ∧
    ∃ c ∈ newer ++ [b], c.read p = .ok data ∧ (expiry = .always → c = b)

/-- From the first time at which it is of this kind and date, a file is as long as is told; or at all these times, if no
stat is served. -/
def KeepsLength (ds : List Disk) (expiry : Expiry) (p : String) (info : FileInfo) : Prop :=
  ∀ newer b older, ds = newer ++ b :: older → b.Shows p info →
    ∀ c ∈ newer ++ [b], (expiry = .always → c = b) → ∀ data, c.read p = .ok data → data.length = info.size

namespace HeldSince

theorem edit (h : HeldSince ds expiry p info data) (d : Disk) : HeldSince (d :: ds) expiry p info data := by
  obtain ⟨newer, b, older, rfl, hb, c, hc, hread⟩ := h
  exact ⟨d :: newer, b, older, rfl, hb, c, List.mem_cons_of_mem d hc, hread⟩

/-- What the disk holds now was held since any time before. -/
theorem now (hseen : ∃ b ∈ d :: ds, b.Shows p info) (hd : expiry = .always → d.Shows p info)
    (hread : d.read p = .ok data) : HeldSince (d :: ds) expiry p info data := by
  cases expiry with
  | always => exact ⟨[], d, ds, rfl, hd rfl, d, List.mem_singleton.mpr rfl, hread, fun _ => rfl⟩
  | never =>
    obtain ⟨b, hb, hshows⟩ := hseen
    obtain ⟨newer, older, hsplit⟩ := List.append_of_mem hb
    refine ⟨newer, b, older, hsplit, hshows, d, ?_, hread, by simp⟩
    cases newer with
    | nil => exact List.mem_singleton.mpr (List.cons.inj hsplit).1
    | cons c newer => exact (List.cons.inj hsplit).1 ▸ List.mem_cons_self

theorem length_eq (h : HeldSince ds expiry p info data) (hkeeps : KeepsLength ds expiry p info) :
    data.length = info.size := by
  obtain ⟨newer, b, older, hsplit, hb, c, hc, hread, hsame⟩ := h
  exact hkeeps newer b older hsplit hb c hc hsame data hread

end HeldSince

/-! ## What is kept of a file -/

/-- Whatever is known to be found was seen on some disk, and bytes that are kept were held since then. -/
structure Backed (ds : List Disk) (v : Vfs κ ν ρ) : Prop where
  due : v.expiry = .always → ∀ m, (v.node m).fresh = false
  seen : ∀ m info, (v.node m).stat = .found info → ∃ b ∈ ds, b.Shows (v.path m) info
  blobs : ∀ m s, (NoteKey.blob, s) ∈ (v.node m).memo.entries → s.pinned = false ∧
    ∃ info data, (v.node m).stat = .found info ∧ s.value = some (.blob data) ∧
      HeldSince ds v.expiry (v.path m) info data

namespace Backed

theorem make (ds : List Disk) (e : Expiry) : Backed ds (make e : Vfs κ ν ρ) := by
  have hnode : ∀ m, (Vfs.make e : Vfs κ ν ρ).node m = { parent := none, name := "" } := by
    intro m
    cases m with
    | zero => rfl
    | succ m => exact node_of_size_le (by simp [Vfs.make])
  refine ⟨fun _ m => by rw [hnode], fun m info hm => ?_, fun m s hs => ?_⟩
  · rw [hnode] at hm
    cases hm
  · rw [hnode] at hs
    cases hs

theorem edit (h : Backed ds v) (d : Disk) : Backed (d :: ds) v where
  due := h.due
  seen m info hm :=
    have ⟨b, hb, hshows⟩ := h.seen m info hm
    ⟨b, List.mem_cons_of_mem d hb, hshows⟩
  blobs m s hs :=
    have ⟨hpinned, info, data, hfound, hvalue, hheld⟩ := h.blobs m s hs
    ⟨hpinned, info, data, hfound, hvalue, hheld.edit d⟩

/-- A node at which something was found is one of the tree's. -/
theorem lt (hm : (v.node m).stat = .found info) : m < v.nodes.size := by
  by_contra hlt
  rw [node_of_size_le (Nat.le_of_not_lt hlt)] at hm
  cases hm

theorem quiet (h : Backed ds v) (hnumbered : ∀ m, (v.node m).memo.Numbered) (hquiet : Quiet v v') : Backed ds v' where
  due halways m := Bool.eq_false_iff.mpr fun hfresh => by
    have := hquiet.fresh m hfresh
    rw [h.due (hquiet.expiry ▸ halways)] at this
    cases this
  seen m info hm := by
    rw [hquiet.stat] at hm
    rw [hquiet.shape.path_eq (lt hm)]
    exact h.seen m info hm
  blobs m s hs := by
    obtain ⟨hpinned, info, data, hfound, hvalue, hheld⟩ := h.blobs m s (hquiet.blobs m (hnumbered m) s hs)
    rw [hquiet.stat, hquiet.shape.path_eq (lt hfound), hquiet.expiry]
    exact ⟨hpinned, info, data, hfound, hvalue, hheld⟩

theorem look (h : Backed (d :: ds) v) (hn : n < v.nodes.size) (hlook : Look d n v v') : Backed (d :: ds) v' where
  due halways m := by
    rw [hlook.expiry] at halways
    rw [hlook.fresh, halways]
    split
    · rfl
    · exact h.due halways m
  seen m info hm := by
    rw [hlook.stat] at hm
    split at hm
    · next hmn =>
      subst hmn
      rw [looked] at hm
      cases he : d.entry (v.path m) with
      | error cause =>
        rw [he] at hm
        cases hm
      | ok e =>
        rw [he] at hm
        cases hm
        exact ⟨d, List.mem_cons_self, e, (hlook.shape.path_eq hn).symm ▸ he, rfl, rfl⟩
    · rw [hlook.shape.path_eq (lt hm)]
      exact h.seen m info hm
  blobs m s hs := by
    rw [hlook.memo] at hs
    cases hdrops : drops d n v m with
    | true =>
      -- Bytes are not pinned, so they are dropped with the memo.
      rw [hdrops, if_pos rfl] at hs
      obtain ⟨hold, hout⟩ := List.mem_filter.mp hs
      rw [Memo.outlives, (h.blobs m s hold).1] at hout
      cases hout
    | false =>
      rw [hdrops, if_neg Bool.false_ne_true] at hs
      obtain ⟨hpinned, old, data, hfound, hvalue, hheld⟩ := h.blobs m s hs
      rw [hlook.stat, hlook.shape.path_eq (lt hfound), hlook.expiry]
      by_cases hmn : m = n
      · -- The look found the kind and the date again with which the bytes are kept.
        subst hmn
        obtain ⟨x, hx, hkind, hdate⟩ := entry_of_not_drops hfound hdrops
        obtain ⟨newer, b, older, hsplit, ⟨e, he, hekind, hedate⟩, hrest⟩ := hheld
        rw [if_pos rfl, looked, hx]
        exact ⟨hpinned, _, data, rfl, hvalue, newer, b, older, hsplit,
          ⟨e, he, hekind.trans hkind, hedate.trans hdate⟩, hrest⟩
      · rw [if_neg hmn]
        exact ⟨hpinned, old, data, hfound, hvalue, hheld⟩

theorem stat (h : Backed (d :: ds) v) (hnumbered : ∀ m, (v.node m).memo.Numbered) (hlinked : v.Linked P)
    (hn : n < v.nodes.size) : Backed (d :: ds) (stat d n v).2 := by
  cases hs : v.served n with
  | true => rwa [stat_of_served hs]
  | false =>
    obtain ⟨w, hlook, hrel⟩ := exists_look hlinked hn hs d
    refine (h.look hn hlook).quiet (fun m => ?_) hrel.quiet
    rw [hlook.memo]
    split
    · exact (hnumbered m).clear
    · exact hnumbered m

/-- Bytes that are read right after a stat are kept with what it found. -/
theorem putBlob [DecidableEq κ] (h : Backed ds v) (hfound : (v.node n).stat = .found info)
    (hheld : HeldSince ds v.expiry (v.path n) info data) :
    Backed ds (v.modifyNode n fun nd => { nd with memo := nd.memo.put .blob (.blob data) }) := by
  have hshape : Shape v (v.modifyNode n fun nd => { nd with memo := nd.memo.put .blob (.blob data) }) :=
    .modifyNode rfl rfl
  have hstat : ∀ m, ((v.modifyNode n fun nd => { nd with memo := nd.memo.put .blob (.blob data) }).node m).stat =
      (v.node m).stat := by
    intro m
    rw [node_modifyNode]
    split <;> rfl
  refine ⟨fun halways m => ?_, fun m info hm => ?_, fun m s hs => ?_⟩
  · rw [node_modifyNode]
    split <;> exact h.due halways m
  · rw [hstat] at hm
    rw [hshape.path_eq (lt hm)]
    exact h.seen m info hm
  · rw [hstat]
    rw [node_modifyNode] at hs
    split at hs
    · next hm =>
      obtain ⟨rfl, hn⟩ := hm
      rw [hshape.path_eq hn]
      rcases Memo.mem_put hs with ⟨hvalue, hpinned⟩ | hold
      · exact ⟨hpinned, info, data, hfound, hvalue, hheld⟩
      · exact h.blobs n s hold
    · obtain ⟨hpinned, old, bytes, hold, hrest⟩ := h.blobs m s hs
      rw [hshape.path_eq (lt hold)]
      exact ⟨hpinned, old, bytes, hold, hrest⟩

end Backed

/-- A stat of what is found at a node finds it again. -/
theorem stat_again (hlinked : v.Linked P) (hn : n < v.nodes.size)
    (hfound : (v.node n).stat = .found (infoOf (v.node n).name e)) (he : d.entry (v.path n) = .ok e) :
    (stat d n v).1 = .ok (infoOf (v.node n).name e) ∧
      ((stat d n v).2.node n).stat = .found (infoOf (v.node n).name e) := by
  cases hs : v.served n with
  | true =>
    rw [stat_of_served hs]
    refine ⟨?_, hfound⟩
    rw [served, Bool.and_eq_true] at hs
    simp [Vfs.stat, hs.1, hfound]
  | false => exact ⟨by rw [stat_of_entry hs he], found_stat hlinked hn hs he⟩

theorem expiry_stat (hlinked : v.Linked P) (hn : n < v.nodes.size) (d : Disk) : (stat d n v).2.expiry = v.expiry := by
  cases hs : v.served n with
  | true => rw [stat_of_served hs]
  | false =>
    obtain ⟨w, hlook, hrel⟩ := exists_look hlinked hn hs d
    exact hrel.expiry.trans hlook.expiry

variable [DecidableEq κ]

theorem Step.backed (hs : Step d L v L' v') (hlinked : v.Linked fun _ => True)
    (hnumbered : ∀ m, (v.node m).memo.Numbered) (h : Backed (d :: ds) v) : Backed (d :: ds) v' := by
  obtain ⟨hquiet, -⟩ | ⟨n, hn, dir, entries, -, rfl, -⟩ | ⟨n, hn, -, rfl | ⟨info, data, hinfo, hread, rfl⟩⟩ := hs.cases
  · exact h.quiet hnumbered hquiet
  · exact h.quiet hnumbered (Relisted.syncChildren hlinked n entries).quiet
  · exact h.stat hnumbered hlinked hn
  · have hafter := h.stat hnumbered hlinked hn (n := n)
    cases hserved : v.served n with
    | true =>
      have hfound := found_of_served hserved hinfo
      rw [stat_of_served hserved] at hafter hread ⊢
      refine hafter.putBlob hfound (.now (hafter.seen n info hfound) (fun halways => ?_) hread)
      rw [served, hafter.due halways n] at hserved
      cases hserved
    | false =>
      obtain ⟨e, he, rfl⟩ := exists_entry_of_stat hserved hinfo
      have hfound := found_stat hlinked hn hserved he
      have hshows : d.Shows ((Vfs.stat d n v).2.path n) (infoOf (v.node n).name e) :=
        ⟨e, by rwa [path_stat hn d], rfl, rfl⟩
      exact hafter.putBlob hfound (.now (hafter.seen n _ hfound) (fun _ => hshows) hread)

theorem Run.backed (h : Run ds L v) : Backed ds v := by
  induction h with
  | start _ e => exact .make _ e
  | edit _ _ ih => exact ih.edit _
  | call h hs ih => exact hs.backed h.tracks.1 h.numbered ih

/-! ## What is answered -/

/-- Time passes, after which the stats of some nodes are not served any more. -/
def lapse (ns : List NodeId) (v : Vfs κ ν ρ) : Vfs κ ν ρ := ns.foldl (fun v m => expire m v) v

omit [DecidableEq κ] in
theorem exists_node_lapse (ns : List NodeId) (v : Vfs κ ν ρ) (m : NodeId) :
    ∃ fresh, (lapse ns v).node m = { v.node m with fresh } := by
  induction ns generalizing v with
  | nil => exact ⟨(v.node m).fresh, rfl⟩
  | cons n ns ih =>
    obtain ⟨fresh, hrest⟩ := ih (expire n v)
    refine ⟨fresh, hrest.trans ?_⟩
    rw [expire, node_modifyNode]
    split <;> rfl

omit [DecidableEq κ] in
theorem shape_lapse (ns : List NodeId) (v : Vfs κ ν ρ) : Shape v (lapse ns v) := by
  induction ns generalizing v with
  | nil => exact .refl v
  | cons n ns ih => exact Shape.trans (.modifyNode rfl rfl) (ih (expire n v))

omit [DecidableEq κ] in
theorem expiry_lapse (ns : List NodeId) (v : Vfs κ ν ρ) : (lapse ns v).expiry = v.expiry := by
  induction ns generalizing v with
  | nil => rfl
  | cons n ns ih => exact ih (expire n v)

theorem Known.lapse (h : Known (d :: ds) v) (ns : List NodeId) : Known (d :: ds) (lapse ns v) := by
  induction ns generalizing v with
  | nil => exact h
  | cons n ns ih => exact ih (h.call fun L => ⟨L, .expire n⟩)

theorem Known.backed (h : Known ds v) : Backed ds v := by
  obtain ⟨L, h⟩ := h
  exact h.backed

/-- The bytes of a file that a stat has found were in it at some time since it was as the stat found it. -/
theorem Known.readNoted_fst (h : Known (d :: ds) v) (hfound : (v.node n).stat = .found info)
    (he : d.entry (v.path n) = .ok e) (hkind : e.item.kind = info.kind) (hdate : e.modified = info.modified)
    (hdir : info.kind ≠ .dir) :
    ∃ data, (readNoted d n v).1 = .ok data ∧ HeldSince (d :: ds) v.expiry (v.path n) info data := by
  obtain ⟨data, hread⟩ := Disk.exists_read he (hkind ▸ hdir)
  have hread := hread _ rfl
  rw [readNoted]
  split
  · next bytes hpeek =>
    obtain ⟨⟨k, s⟩, hs, rfl, hvalue⟩ := Memo.kept_of_peek? hpeek
    obtain ⟨-, old, kept, hold, hkept, hheld⟩ := h.backed.blobs n s hs
    obtain rfl := Stat.found.inj (hfound.symm.trans hold)
    cases hvalue.symm.trans hkept
    exact ⟨bytes, rfl, hheld⟩
  · rw [hread]
    exact ⟨data, rfl, .now (h.backed.seen n info hfound) (fun _ => ⟨e, he, hkind, hdate⟩) hread⟩

/-- Bytes that are asked for after a look that found a file. -/
theorem Known.blob_after_stat (h : Known (d :: ds) v) (hn : n < v.nodes.size) (hlook : v.served n = false)
    (hinfo : (Vfs.stat d n v).1 = .ok info) (hdir : info.kind ≠ .dir) (ns : List NodeId) :
    ∃ data, (Vfs.blob d n (Vfs.lapse ns (Vfs.stat d n v).2)).1 = .ok data ∧
      HeldSince (d :: ds) v.expiry (v.path n) info data := by
  obtain ⟨e, he, rfl⟩ := exists_entry_of_stat hlook hinfo
  obtain ⟨w, hw⟩ : ∃ w, w = Vfs.lapse ns (Vfs.stat d n v).2 := ⟨_, rfl⟩
  have hknown : Known (d :: ds) w := hw ▸ (h.stat hn).1.lapse ns
  have hshape : Shape v w := hw ▸ (shape_of_later (looks_stat d n v)).trans (shape_lapse ns _)
  have hlt : n < w.nodes.size := Nat.lt_of_lt_of_le hn hshape.size_le
  have hexpiry : w.expiry = v.expiry := by rw [hw, expiry_lapse, expiry_stat h.linked hn]
  have hfound : (w.node n).stat = .found (infoOf (w.node n).name e) := by
    obtain ⟨fresh, hnode⟩ := exists_node_lapse ns (Vfs.stat d n v).2 n
    rw [hshape.name n hn, hw, hnode]
    exact found_stat h.linked hn hlook he
  -- The stat that comes before the bytes finds the same again, served or not.
  obtain ⟨hagain, hstill⟩ := stat_again hknown.linked hlt hfound (hshape.path_eq hn ▸ he)
  have hpath : (Vfs.stat d n w).2.path n = v.path n := (path_stat hlt d).trans (hshape.path_eq hn)
  rw [hshape.name n hn] at hagain hstill
  obtain ⟨data, hdata, hheld⟩ := (hknown.stat hlt).1.readNoted_fst hstill (hpath ▸ he) rfl rfl hdir
  rw [hpath, expiry_stat hknown.linked hlt, hexpiry] at hheld
  refine ⟨data, ?_, hheld⟩
  have hpair : Vfs.stat d n w = (.ok (infoOf (v.node n).name e), (Vfs.stat d n w).2) := Prod.ext hagain rfl
  rw [← hw, blob_eq, hpair]
  dsimp only
  rw [if_neg hdir, hdata]

omit [DecidableEq κ] in
/-- After a look that found a file, its path leads where it led. -/
theorem poke_after_stat (hlinked : v.Linked fun _ => True) (hlook : (v.poke p).2.served (v.poke p).1 = false)
    (hinfo : (statAt d p v).1 = .ok info) (hdir : info.kind ≠ .dir) (ns : List NodeId) :
    (lapse ns (statAt d p v).2).poke p = ((v.poke p).1, lapse ns (statAt d p v).2) := by
  obtain ⟨n, v₁, hpoke⟩ : ∃ n v₁, v.poke p = (n, v₁) := ⟨_, _, rfl⟩
  have hstat : statAt d p v = stat d n v₁ := by rw [statAt, nodeAt_bind, hpoke]
  have hlinked₁ : v₁.Linked fun _ => True := by
    have : (v.poke p).2.Linked fun _ => True := hlinked.pokeFrom hlinked.root.1 fun _ _ => trivial
    rwa [hpoke] at this
  have hpeek : v₁.peek? p = some n := by
    have := hlinked.peek?_poke_self p fun _ _ => trivial
    rwa [hpoke] at this
  have hn : n < v₁.nodes.size := by
    have := hlinked.poke_lt p
    rwa [hpoke] at this
  rw [hpoke] at hlook ⊢
  rw [hstat] at hinfo ⊢
  obtain ⟨e, he, rfl⟩ := exists_entry_of_stat hlook hinfo
  have hnoted : (stat d n v₁).2 = noted n (infoOf (v₁.node n).name e) v₁ := by
    rcases stat_cases hlinked₁ hn hlook he .blank with ⟨-, -, hkind, -, -⟩ | ⟨-, htree, -⟩
    · exact absurd hkind hdir
    · exact htree
  have hshape : Shape v₁ (lapse ns (stat d n v₁).2) :=
    (shape_of_later (looks_stat d n v₁)).trans (shape_lapse ns _)
  refine pokeFrom_of_peekFrom (peekFrom_of_child? hpeek fun _ _ _ m _ _ => hlinked₁.child?_eq hshape ?_ _)
  obtain ⟨fresh, hnode⟩ := exists_node_lapse ns (stat d n v₁).2 m
  rw [hnode, hnoted, ← children_noted hn (hlinked₁.parent_ne hn)]

/-- Right after a stat that has looked at the disk and found a file, the bytes of the file are answered, on whichever
nodes time has passed in between. They were in the file at some time since it had the date that was found (at such a
time, if no stat is ever served), so they are as many as was told if the file has kept its length since then. -/
theorem blobAt_after_statAt (h : Run (d :: ds) L v) (hlook : (v.poke p).2.served (v.poke p).1 = false)
    (hinfo : (statAt d p v).1 = .ok info) (hfile : info.kind = .file) (ns : List NodeId) :
    ∃ data, (blobAt d p (lapse ns (statAt d p v).2)).1 = .ok data ∧
      HeldSince (d :: ds) v.expiry (pathOf (splitPath p)) info data ∧
      (KeepsLength (d :: ds) v.expiry (pathOf (splitPath p)) info → data.length = info.size) := by
  have hlinked := h.tracks.1
  have hdir : info.kind ≠ .dir := by simp [hfile]
  have hpoked : Known (d :: ds) (v.poke p).2 := (Known.nodeAt ⟨L, h⟩ p).1
  have hpath : (v.poke p).2.path (v.poke p).1 = pathOf (splitPath p) :=
    congrArg pathOf (hlinked.names_poke p fun _ _ => trivial).1
  rw [statAt, nodeAt_bind] at hinfo
  obtain ⟨data, hdata, hheld⟩ := hpoked.blob_after_stat (hlinked.poke_lt p) hlook hinfo hdir ns
  rw [hpath] at hheld
  have hexpiry : (v.poke p).2.expiry = v.expiry := expiry_pokeFrom ..
  rw [hexpiry] at hheld
  refine ⟨data, ?_, hheld, fun hkeeps => hheld.length_eq hkeeps⟩
  rw [blobAt, nodeAt_bind, poke_after_stat hlinked hlook hinfo hdir]
  exact hdata

/-- A disk with one file. -/
def leaf (data : Bytes) (date : Int) : Disk := ⟨[(["a"], ⟨.file data none, date⟩)]⟩

/-- The file was read when it held one byte. -/
def thumbed (e : Expiry) : Vfs Unit Unit Unit := (blobAt (leaf [1] 1) "/a" (make e)).2

theorem real_leaf (data : Bytes) (date : Int) : (leaf data date).Real :=
  ⟨by simp [leaf], by simp only [leaf, List.forall_mem_singleton]; decide⟩

theorem exists_run_thumbed (e : Expiry) : ∃ L, Run [leaf [1] 1] L (thumbed e) :=
  ⟨_, ((Run.start (real_leaf [1] 1) e).call (.poke (n := rootId) (by cases e <;> decide) "a")).call
    (.blob (n := 1) (by cases e <;> decide))⟩

theorem blobAt_after_statAt_rewritten :
    KeepsLength [leaf [2, 3] 2, leaf [1] 1] .never "/a" ⟨"a", .file, 2, 2⟩ ∧
      ∃ data, (blobAt (leaf [2, 3] 2) "/a"
        (lapse [1] (statAt (leaf [2, 3] 2) "/a" (expire 1 (thumbed .never))).2)).1 = .ok data ∧ data.length = 2 := by
  have hkeeps : KeepsLength [leaf [2, 3] 2, leaf [1] 1] .never "/a" ⟨"a", .file, 2, 2⟩ := by
    rintro (_ | ⟨x, newer⟩) b older hsplit hshows c hc - data hread
    · obtain ⟨rfl, -⟩ := List.cons.inj hsplit
      obtain rfl := List.mem_singleton.mp hc
      have hnow : (leaf [2, 3] 2).read "/a" = .ok [2, 3] := by cbv
      rw [Except.ok.inj (hread.symm.trans hnow)]
      rfl
    · -- Before it was rewritten, the file had another date.
      obtain ⟨-, hrest⟩ := List.cons.inj hsplit
      obtain ⟨e, he, -, hdate⟩ := hshows
      have hb : b = leaf [1] 1 := by
        rcases List.cons_eq_append_iff.mp hrest with ⟨-, hb⟩ | ⟨_, -, hb⟩
        · exact (List.cons.inj hb).1
        · simp at hb
      have hbefore : (leaf [1] 1).entry "/a" = .ok ⟨.file [1] none, 1⟩ := by cbv
      rw [hb] at he
      rw [Except.ok.inj (he.symm.trans hbefore)] at hdate
      simp at hdate
  obtain ⟨L, hrun⟩ := exists_run_thumbed .never
  have hrun' := (hrun.call (.expire 1)).edit (real_leaf [2, 3] 2)
  have hlook : ((expire 1 (thumbed .never)).poke "/a").2.served ((expire 1 (thumbed .never)).poke "/a").1 = false := by
    cbv
  have hinfo : (statAt (leaf [2, 3] 2) "/a" (expire 1 (thumbed .never))).1 = .ok ⟨"a", .file, 2, 2⟩ := by cbv
  obtain ⟨data, hdata, -, hlength⟩ := blobAt_after_statAt hrun' hlook hinfo rfl [1]
  have hpath : pathOf (splitPath "/a") = "/a" := by decide
  have hexpiry : (expire 1 (thumbed .never)).expiry = .never := by cbv
  rw [hpath, hexpiry] at hlength
  exact ⟨hkeeps, data, hdata, hlength hkeeps⟩

/-- A file that is rewritten under its date is told to be as long as it is, and answered as it was. -/
theorem not_length_eq_of_same_date : ¬ ∀ (d : Disk) (ds : List Disk) (L : Log) (v : Vfs Unit Unit Unit) (p : String)
    (info : FileInfo) (data : Bytes), Run (d :: ds) L v → (v.poke p).2.served (v.poke p).1 = false →
      (statAt d p v).1 = .ok info → info.kind = .file → (blobAt d p (statAt d p v).2).1 = .ok data →
      data.length = info.size := by
  intro hall
  obtain ⟨L, hrun⟩ := exists_run_thumbed .always
  have hlook : ((thumbed .always).poke "/a").2.served ((thumbed .always).poke "/a").1 = false := by cbv
  have hinfo : (statAt (leaf [2, 3] 1) "/a" (thumbed .always)).1 = .ok ⟨"a", .file, 2, 1⟩ := by cbv
  have hdata : (blobAt (leaf [2, 3] 1) "/a" (statAt (leaf [2, 3] 1) "/a" (thumbed .always)).2).1 = .ok [1] := by cbv
  exact absurd (hall _ _ L _ "/a" _ _ (hrun.edit (real_leaf [2, 3] 1)) hlook hinfo rfl hdata) (by decide)

end Vfs
end EditorAgent

import EditorAgent.Proofs.Vfs.Coherent
import EditorAgent.Vfs.Scan

/-!
# What may become of a tree

Whatever a tree is asked, on whichever disk, its cells hold what they held, and no memo leads to a cell that it
did not lead to before. A cell may be invalidated, with a stamp that is new at that time. A node that has left the
tree does not come back, and what depends on a cell goes on to do so for as long as its own node is in the tree.
-/

namespace EditorAgent

namespace Memo

variable {κ ν : Type} {m : Memo κ ν} {k k' : κ} {x : ν} {serial : Nat} {f : Slot ν → Slot ν}

/-- A value that outlives `clear` is kept under a key. -/
def Firm (m : Memo κ ν) (k : κ) (x : ν) : Prop := ∃ s, (k, s) ∈ m.entries ∧ s.value = some x ∧ outlives s = true

/-- No computation has failed. -/
def Intact (m : Memo κ ν) : Prop := ∀ e ∈ m.entries, e.2.broken = false

theorem intact_empty : (Memo.empty : Memo κ ν).Intact := by simp [Intact, empty]

theorem Intact.modify (h : m.Intact) (hf : ∀ s, (f s).broken = s.broken) : (m.modify serial f).Intact := by
  intro e' he'
  obtain ⟨e, he, rfl⟩ := mem_modify he'
  split
  · exact (hf e.2).trans (h e he)
  · exact h e he

theorem Firm.modify (h : m.Firm k x) (hne : ∀ s, (k, s) ∈ m.entries → s.value = some x → s.serial ≠ serial) :
    (m.modify serial f).Firm k x := by
  obtain ⟨s, hs, hv, hout⟩ := h
  exact ⟨s, List.mem_map.mpr ⟨(k, s), hs, if_neg (hne s hs hv)⟩, hv, hout⟩

theorem ne_of_not_owns (ho : ¬ m.Owns k serial) {s : Slot ν} (hs : (k, s) ∈ m.entries) : s.serial ≠ serial :=
  fun heq => ho ⟨(k, s), hs, rfl, heq⟩

/-- A pinned value that is finished outlives clears. -/
theorem firm_finish (ho : m.Owns k serial) (hi : m.Intact) (x : ν) : (m.finish serial x true).Firm k x := by
  obtain ⟨e, he, rfl, hs⟩ := ho
  refine ⟨{ e.2 with value := some x, pinned := true, busy := false }, List.mem_map.mpr ⟨e, he, if_pos hs⟩, rfl, ?_⟩
  simp [outlives, hi e he]

/-! ## Clearing -/

theorem Numbered.clear (h : m.Numbered) : m.clear.1.Numbered where
  nodup := (List.filter_sublist.map _).nodup h.nodup
  lt e he := h.lt e (List.mem_of_mem_filter he)

theorem Kept.of_clear (h : m.clear.1.Kept k x) : m.Kept k x := by
  obtain ⟨e, he, hk, hv⟩ := h
  exact ⟨e, List.mem_of_mem_filter he, hk, hv⟩

theorem grows_clear (m : Memo κ ν) : m.Grows m.clear.1 :=
  ⟨Nat.le_refl _, fun _ _ ⟨e, he, h⟩ _ => ⟨e, List.mem_of_mem_filter he, h⟩⟩

theorem Intact.clear (h : m.Intact) : m.clear.1.Intact := fun e he => h e (List.mem_of_mem_filter he)

theorem Kept.firm (h : m.clear.1.Kept k x) : m.Firm k x := by
  obtain ⟨⟨k', s⟩, hs, rfl, hx⟩ := h
  obtain ⟨hs, hout⟩ := List.mem_filter.mp hs
  exact ⟨s, hs, hx, hout⟩

theorem Firm.clear (h : m.Firm k x) : m.clear.1.Firm k x := by
  obtain ⟨s, hs, hv, hout⟩ := h
  exact ⟨s, List.mem_filter.mpr ⟨hs, hout⟩, hv, hout⟩

/-- What outlives a clear is told of it. -/
theorem Firm.told (h : m.Firm k x) : x ∈ m.clear.2 := by
  obtain ⟨s, hs, hv, -⟩ := h.clear
  exact List.mem_filterMap.mpr ⟨(k, s), hs, hv⟩

/-! ## Starting and putting -/

variable [DecidableEq κ]

theorem Intact.slot (h : m.Intact) : (m.slot k).1.Intact := by
  unfold Memo.slot
  split
  · exact h
  · intro e he
    rcases List.mem_append.mp he with he | he
    · exact h e he
    · rw [List.mem_singleton.mp he]

theorem Intact.start (h : m.Intact) (wanted : ν → Bool) : (m.start k wanted).1.Intact := by
  rcases start_fst m k wanted with e | e <;> rw [e]
  · exact h.slot
  · exact h.slot.modify fun _ => rfl

theorem Intact.put (h : m.Intact) (v : ν) : (m.put k v).Intact := by
  rw [put_eq]
  exact h.slot.modify fun _ => rfl

theorem Firm.slot (h : m.Firm k x) : (m.slot k').1.Firm k x := by
  unfold Memo.slot
  split
  · exact h
  · obtain ⟨s, hs, hrest⟩ := h
    exact ⟨s, List.mem_append_left _ hs, hrest⟩

/-- The slot that is looked up for one key is not that of another. -/
theorem Numbered.not_owns_slot (h : m.Numbered) (hne : k ≠ k') : ¬ (m.slot k').1.Owns k (m.slot k').2.serial :=
  fun ho => hne (h.slot.owns_unique ho owns_slot)

theorem Firm.start (h : m.Firm k x) (hm : m.Numbered) (hne : k ≠ k') (wanted : ν → Bool) :
    (m.start k' wanted).1.Firm k x := by
  rcases start_fst m k' wanted with e | e <;> rw [e]
  · exact h.slot
  · exact h.slot.modify fun _ hs _ => ne_of_not_owns (hm.not_owns_slot hne) hs

/-- A value that is wanted is not computed again. -/
theorem Firm.start_of_wanted (h : m.Firm k x) (hm : m.Numbered) {wanted : ν → Bool} (hw : wanted x = true) :
    (m.start k' wanted).1.Firm k x := by
  rw [start_eq]
  split
  · exact h.slot
  · next hv =>
    refine h.slot.modify fun s hs hx heq => ?_
    cases hm.slot.eq_of_serial hs mem_slot heq
    rw [hx, Option.filter_some, if_pos hw] at hv
    cases hv

theorem Firm.put (h : m.Firm k x) (hm : m.Numbered) (hne : k ≠ k') (v : ν) : (m.put k' v).Firm k x := by
  rw [put_eq]
  exact h.slot.modify fun _ hs _ => ne_of_not_owns (hm.not_owns_slot hne) hs

end Memo

namespace Vfs

variable {κ ν ρ α β : Type} {free : κ → Prop} {v v' v'' : Vfs κ ν ρ} {n c : NodeId}

/-- What a memo may turn into while no cell is made and notes are written under free keys. -/
structure MemoLater (free : κ → Prop) (m m' : Memo (NoteKey κ) (Note ν)) : Prop where
  numbered : m.Numbered → m'.Numbered
  intact : m.Intact → m'.Intact
  grows : m.Grows m'
  notes : m.Numbered → ∀ k c, m'.Kept k (.cell c) → m.Kept k (.cell c)
  firm : m.Numbered → ∀ k c, ¬ free k → m.Firm (.user k) (.cell c) → m'.Firm (.user k) (.cell c)

namespace MemoLater

variable {m m' m'' : Memo (NoteKey κ) (Note ν)} {k : NoteKey κ}

theorem refl (m : Memo (NoteKey κ) (Note ν)) : MemoLater free m m :=
  ⟨id, id, .refl m, fun _ _ _ => id, fun _ _ _ _ => id⟩

theorem trans (h : MemoLater free m m') (h' : MemoLater free m' m'') : MemoLater free m m'' where
  numbered hn := h'.numbered (h.numbered hn)
  intact hi := h'.intact (h.intact hi)
  grows := h.grows.trans h'.grows
  notes hn k c hk := h.notes hn k c (h'.notes (h.numbered hn) k c hk)
  firm hn k c hfree hk := h'.firm (h.numbered hn) k c hfree (h.firm hn k c hfree hk)

theorem clear (m : Memo (NoteKey κ) (Note ν)) : MemoLater free m m.clear.1 :=
  ⟨.clear, .clear, Memo.grows_clear m, fun _ _ _ => .of_clear, fun _ _ _ _ => .clear⟩

/-- A key under which a note may be written. -/
def Open (free : κ → Prop) : NoteKey κ → Prop
  | .blob => True
  | .user k => free k

theorem ne_of_open {j : κ} (hk : Open free k) (hj : ¬ free j) : NoteKey.user j ≠ k := by
  rintro rfl
  exact hj hk

/-- A note is written into a slot that is not that of a cell. -/
theorem finish (h : MemoLater free m m') {serial : Nat}
    (ho : m.Numbered → ∀ k c, ¬ free k → m.Firm (.user k) (.cell c) → ¬ m'.Owns (.user k) serial) (a : ν) :
    MemoLater free m (m'.finish serial (.user a) false) where
  numbered hn := (h.numbered hn).finish _ _
  intact hi := (h.intact hi).modify fun _ => rfl
  grows := h.grows.trans (Memo.grows_modify fun _ => rfl)
  notes hn k c hk := by
    obtain ⟨e', he', hk, hv⟩ := hk
    obtain ⟨e, he, rfl⟩ := Memo.mem_modify he'
    split at hv
    · cases hv
    · next hs => exact h.notes hn k c ⟨e, he, by simpa [hs] using hk, hv⟩
  firm hn k c hk hfirm := (h.firm hn k c hk hfirm).modify fun _ hs _ => Memo.ne_of_not_owns (ho hn k c hk hfirm) hs

variable [DecidableEq κ]

theorem start (m : Memo (NoteKey κ) (Note ν)) (hk : Open free k) (wanted : Note ν → Bool) :
    MemoLater free m (m.start k wanted).1 where
  numbered hn := hn.start _
  intact hi := hi.start _
  grows := Memo.grows_start _
  notes _ _ _ := (Memo.kept_start _).mp
  firm hn _ _ hj hfirm := hfirm.start hn (ne_of_open hk hj) _

theorem put (m : Memo (NoteKey κ) (Note ν)) (hk : Open free k) {a : Note ν} (ha : a.isCell = false) :
    MemoLater free m (m.put k a) where
  numbered hn := hn.put _
  intact hi := hi.put _
  grows := Memo.grows_put _
  notes hn j c hj := by
    rcases Memo.Kept.of_put hn hj with ⟨-, rfl⟩ | hj
    · cases ha
    · exact hj
  firm hn _ _ hj hfirm := hfirm.put hn (ne_of_open hk hj) _

end MemoLater

/-- What may become of a cell of a tree. -/
structure CellLater (v v' : Vfs κ ν ρ) (x x' : Cell ρ) : Prop where
  home : x'.home = x.home
  content : x'.content = x.content
  mark : x'.invalidatedAt = x.invalidatedAt ∨ v.stamp < x'.invalidatedAt ∧ x'.invalidatedAt ≤ v'.stamp
  dependents : ∀ u y, v.cell? u = some y → y.home < v.nodes.size → v'.isAlive y.home = true →
    u ∈ x.dependents → u ∈ x'.dependents

/-- Nodes that are listed are there. -/
structure Bounded (v : Vfs κ ν ρ) : Prop where
  root : rootId < v.nodes.size
  children : ∀ n, ∀ c ∈ (v.node n).children, c < v.nodes.size

/-- What may become of a tree without a cell being made, with notes written under free keys. -/
structure Later (free : κ → Prop) (v v' : Vfs κ ν ρ) : Prop extends Shape v v' where
  bounded : v.Bounded → v'.Bounded
  children : ∀ n, ∀ c < v.nodes.size, c ∈ (v'.node n).children → c ∈ (v.node n).children
  held : v'.held = v.held
  active : v'.active = v.active
  memo : ∀ n, MemoLater free (v.node n).memo (v'.node n).memo
  stamp : v.stamp ≤ v'.stamp
  size : v'.cells.size = v.cells.size
  cells : ∀ c x, v.cell? c = some x → ∃ x', v'.cell? c = some x' ∧ CellLater v v' x x'

theorem isAlive_congr (hparent : ∀ n, (v'.node n).parent = (v.node n).parent)
    (hchildren : ∀ n, (v'.node n).children = (v.node n).children) (hheld : v'.held = v.held) (n : NodeId) :
    v'.isAlive n = v.isAlive n := by
  induction n using Nat.strongRecOn with
  | ind n ih =>
    rw [isAlive, isAlive, hheld, hparent]
    split
    · rfl
    split
    · rfl
    split
    · next hlt => rw [hchildren, ih _ hlt]
    · rfl

theorem isAlive_of_nodes (hnodes : v'.nodes = v.nodes) (hheld : v'.held = v.held) (n : NodeId) :
    v'.isAlive n = v.isAlive n :=
  isAlive_congr (fun m => by rw [node, node, hnodes]) (fun m => by rw [node, node, hnodes]) hheld n

/-- A node that is in the tree has been there since it was made. -/
theorem isAlive_of_children (hs : Shape v v')
    (hchildren : ∀ n, ∀ c < v.nodes.size, c ∈ (v'.node n).children → c ∈ (v.node n).children)
    (hheld : v'.held = v.held) (hn : n < v.nodes.size) (h : v'.isAlive n = true) : v.isAlive n = true := by
  induction n using Nat.strongRecOn with
  | ind n ih =>
    rw [isAlive, hheld, hs.parent n hn] at h
    rw [isAlive]
    split at h
    · next hheld => rw [if_pos hheld]
    · next hheld =>
      rw [if_neg hheld]
      split at h
      · next hp => exact h
      · next p hp =>
        split at h
        · next hlt =>
          rw [Bool.and_eq_true, List.contains_iff_mem] at h
          rw [dif_pos hlt, Bool.and_eq_true, List.contains_iff_mem]
          exact ⟨hchildren p n hn h.1, ih p hlt (Nat.lt_trans hlt hn) h.2⟩
        · cases h

namespace Later

theorem isAlive (h : Later free v v') (hn : n < v.nodes.size) (halive : v'.isAlive n = true) :
    v.isAlive n = true :=
  isAlive_of_children h.toShape h.children h.held hn halive

theorem refl (v : Vfs κ ν ρ) : Later free v v where
  toShape := .refl v
  bounded := id
  children _ _ _ := id
  held := rfl
  active := rfl
  memo _ := .refl _
  stamp := Nat.le_refl _
  size := rfl
  cells _ x hx := ⟨x, hx, rfl, rfl, .inl rfl, fun _ _ _ _ _ => id⟩

theorem trans (h : Later free v v') (h' : Later free v' v'') : Later free v v'' where
  toShape := h.toShape.trans h'.toShape
  bounded hb := h'.bounded (h.bounded hb)
  children n c hc hmem := h.children n c hc (h'.children n c (Nat.lt_of_lt_of_le hc h.size_le) hmem)
  held := h'.held.trans h.held
  active := h'.active.trans h.active
  memo n := (h.memo n).trans (h'.memo n)
  stamp := Nat.le_trans h.stamp h'.stamp
  size := h'.size.trans h.size
  cells c x hx := by
    obtain ⟨x', hx', hl⟩ := h.cells c x hx
    obtain ⟨x'', hx'', hl'⟩ := h'.cells c x' hx'
    refine ⟨x'', hx'', hl'.home.trans hl.home, hl'.content.trans hl.content, ?_, fun u y hy hlt halive hu => ?_⟩
    · have hs := h.stamp
      have hs' := h'.stamp
      have hm := hl.mark
      have hm' := hl'.mark
      omega
    · obtain ⟨y', hy', hly⟩ := h.cells u y hy
      have hlt' : y.home < v'.nodes.size := Nat.lt_of_lt_of_le hlt h.size_le
      have hu' := hl.dependents u y hy hlt (h'.isAlive hlt' halive) hu
      exact hl'.dependents u y' hy' (hly.home ▸ hlt') (hly.home ▸ halive) hu'

/-- A memo is changed after something else was done; what it becomes is seen from before that. -/
theorem writeMemo (h : Later free v v') {f : Node κ ν → Memo (NoteKey κ) (Note ν)}
    (hmemo : MemoLater free (v.node n).memo (f (v'.node n))) :
    Later free v (v'.modifyNode n fun nd => { nd with memo := f nd }) := by
  have hlinks : ∀ m, ((v'.modifyNode n fun nd => { nd with memo := f nd }).node m).children = (v'.node m).children := by
    intro m
    rw [node_modifyNode]
    split <;> rfl
  have hshape : Shape v' (v'.modifyNode n fun nd => { nd with memo := f nd }) := .modifyNode rfl rfl
  refine ⟨h.toShape.trans hshape, fun hb => ⟨?_, fun m => ?_⟩, fun m c hc hmem => h.children m c hc (hlinks m ▸ hmem),
    h.held, h.active, fun m => ?_, h.stamp, h.size, fun c x hx => ?_⟩
  · rw [size_modifyNode]
    exact (h.bounded hb).root
  · rw [hlinks, size_modifyNode]
    exact (h.bounded hb).children m
  · rw [node_modifyNode]
    split
    · next hm => exact hm.1 ▸ hmemo
    · exact h.memo m
  · obtain ⟨x', hx', hl⟩ := h.cells c x hx
    refine ⟨x', hx', hl.home, hl.content, hl.mark, fun u y hy hlt halive => hl.dependents u y hy hlt ?_⟩
    exact isAlive_of_children hshape (fun m c _ hmem => hlinks m ▸ hmem) rfl (Nat.lt_of_lt_of_le hlt h.size_le) halive

/-! ## Making nodes -/

/-- Nodes were made, and no node has another one for a child. -/
structure Bare (v v' : Vfs κ ν ρ) : Prop extends Shape v v' where
  children : ∀ n, (v'.node n).children = (v.node n).children
  memo : ∀ n, (v'.node n).memo = (v.node n).memo
  held : v'.held = v.held
  active : v'.active = v.active
  stamp : v'.stamp = v.stamp
  cells : v'.cells = v.cells

theorem Bare.refl (v : Vfs κ ν ρ) : Bare v v := ⟨.refl v, fun _ => rfl, fun _ => rfl, rfl, rfl, rfl, rfl⟩

theorem Bare.trans (h : Bare v v') (h' : Bare v' v'') : Bare v v'' where
  toShape := h.toShape.trans h'.toShape
  children n := (h'.children n).trans (h.children n)
  memo n := (h'.memo n).trans (h.memo n)
  held := h'.held.trans h.held
  active := h'.active.trans h.active
  stamp := h'.stamp.trans h.stamp
  cells := h'.cells.trans h.cells

theorem Bare.makeNode (v : Vfs κ ν ρ) (n : NodeId) (s : String) (kind : Option FileKind) :
    Bare v (v.makeNode n s kind).2 := by
  have hsize : v.node v.nodes.size = default := by
    rw [node, Array.getD_eq_getD_getElem?, Array.getElem?_eq_none (Nat.le_refl _)]
    rfl
  refine ⟨.makeNode v n s kind, fun m => ?_, fun m => ?_, rfl, rfl, rfl, rfl⟩
  all_goals
    rw [node_makeNode]
    split
    · next h => rw [h, hsize]; rfl
    · rfl

/-- A node is looked at or given other children: some of those it has, and new ones. -/
theorem setNode (h : Bare v v') {f : Node κ ν → Node κ ν} (hparent : ∀ nd, (f nd).parent = nd.parent)
    (hname : ∀ nd, (f nd).name = nd.name) (hmemo : ∀ nd, (f nd).memo = nd.memo)
    (hchildren : ∀ c ∈ (f (v'.node n)).children,
      c ∈ (v.node n).children ∨ v.nodes.size ≤ c ∧ c < v'.nodes.size) : Later free v (v'.modifyNode n f) := by
  have hlinks : ∀ m, ∀ c ∈ ((v'.modifyNode n f).node m).children,
      c ∈ (v.node m).children ∨ v.nodes.size ≤ c ∧ c < v'.nodes.size := by
    intro m c hc
    rw [node_modifyNode] at hc
    split at hc
    · next hm =>
      obtain rfl := hm.1
      exact hchildren c hc
    · exact .inl (h.children m ▸ hc)
  refine ⟨h.toShape.trans (.modifyNode (hparent _) (hname _)), fun hb => ⟨?_, fun m c hc => ?_⟩,
    fun m c hlt hc => (hlinks m c hc).resolve_right fun hge => Nat.not_le_of_lt hlt hge.1, h.held, h.active,
    fun m => ?_, Nat.le_of_eq h.stamp.symm, by simp [Vfs.modifyNode, h.cells],
    fun c x hx => ⟨x, ?_, rfl, rfl, .inl rfl, fun _ _ _ _ _ => id⟩⟩
  · rw [size_modifyNode]
    exact Nat.lt_of_lt_of_le hb.root h.size_le
  · rw [size_modifyNode]
    rcases hlinks m c hc with hc | hc
    · exact Nat.lt_of_lt_of_le (hb.children m c hc) h.size_le
    · exact hc.2
  · rw [node_modifyNode]
    split
    · rw [hmemo, h.memo]
      exact .refl _
    · rw [h.memo]
      exact .refl _
  · rw [cell?, Vfs.modifyNode, h.cells]
    exact hx

/-- A node is looked at, and may lose children. -/
theorem look {f : Node κ ν → Node κ ν} (hparent : ∀ nd, (f nd).parent = nd.parent)
    (hname : ∀ nd, (f nd).name = nd.name) (hmemo : ∀ nd, (f nd).memo = nd.memo)
    (hchildren : ∀ nd, (f nd).children ⊆ nd.children) : Later free v (v.modifyNode n f) :=
  setNode (.refl v) hparent hname hmemo fun _ hc => .inl (hchildren _ hc)

theorem appendChild (v : Vfs κ ν ρ) (n : NodeId) (s : String) (kind : Option FileKind) :
    Later free v (v.appendChild n s kind).2 := by
  rw [appendChild_snd]
  refine setNode (.makeNode v n s kind) (fun _ => rfl) (fun _ => rfl) (fun _ => rfl) fun c hc => ?_
  rw [(Bare.makeNode v n s kind).children] at hc
  rcases List.mem_append.mp hc with hc | hc
  · exact .inl hc
  · obtain rfl := List.mem_singleton.mp hc
    exact .inr ⟨Nat.le_refl _, by simp⟩

end Later

/-! ## Ties -/

/-- Two trees with the same nodes in the same places and the same dependences between their cells. -/
structure SameTies (v v' : Vfs κ ν ρ) : Prop where
  parent : ∀ n, (v'.node n).parent = (v.node n).parent
  children : ∀ n, (v'.node n).children = (v.node n).children
  held : v'.held = v.held
  active : v'.active = v.active
  cells : ∀ c, (v'.cell? c).map (fun x => (x.home, x.dependents)) = (v.cell? c).map fun x => (x.home, x.dependents)

namespace SameTies

theorem refl (v : Vfs κ ν ρ) : SameTies v v := ⟨fun _ => rfl, fun _ => rfl, rfl, rfl, fun _ => rfl⟩

theorem trans (h : SameTies v v') (h' : SameTies v' v'') : SameTies v v'' where
  parent n := (h'.parent n).trans (h.parent n)
  children n := (h'.children n).trans (h.children n)
  held := h'.held.trans h.held
  active := h'.active.trans h.active
  cells c := (h'.cells c).trans (h.cells c)

theorem modifyNode {f : Node κ ν → Node κ ν} (hparent : ∀ nd, (f nd).parent = nd.parent)
    (hchildren : ∀ nd, (f nd).children = nd.children) : SameTies v (v.modifyNode n f) := by
  refine ⟨fun m => ?_, fun m => ?_, rfl, rfl, fun _ => rfl⟩ <;> rw [node_modifyNode]
  · split
    · exact hparent _
    · rfl
  · split
    · exact hchildren _
    · rfl

theorem isAlive (h : SameTies v v') (n : NodeId) : v'.isAlive n = v.isAlive n :=
  isAlive_congr h.parent h.children h.held n

theorem isLiveCell (h : SameTies v v') (c : CellId) : v'.isLiveCell c = v.isLiveCell c := by
  have hc := h.cells c
  rw [Vfs.isLiveCell, Vfs.isLiveCell, h.active]
  cases hx : v.cell? c <;> cases hx' : v'.cell? c <;> simp_all [h.isAlive]

theorem liveDependents (h : SameTies v v') (c : CellId) : v'.liveDependents c = v.liveDependents c := by
  have hc := h.cells c
  have hlive : v'.isLiveCell = v.isLiveCell := funext h.isLiveCell
  rw [Vfs.liveDependents, Vfs.liveDependents, hlive]
  cases hx : v.cell? c <;> cases hx' : v'.cell? c <;> simp_all

end SameTies

/-! ## Invalidation -/

/-- Marking cells changes nothing but when they were invalidated. -/
structure Marks (mark : Nat) (v v' : Vfs κ ν ρ) : Prop where
  nodes : v'.nodes = v.nodes
  held : v'.held = v.held
  active : v'.active = v.active
  stamp : v'.stamp = v.stamp
  size : v'.cells.size = v.cells.size
  cells : ∀ c x, v.cell? c = some x → ∃ m, v'.cell? c = some { x with invalidatedAt := m } ∧
    (m = x.invalidatedAt ∨ m = mark)

namespace Marks

variable {mark : Nat}

theorem refl (v : Vfs κ ν ρ) : Marks mark v v := ⟨rfl, rfl, rfl, rfl, rfl, fun _ _ hx => ⟨_, hx, .inl rfl⟩⟩

theorem trans (h : Marks mark v v') (h' : Marks mark v' v'') : Marks mark v v'' where
  nodes := h'.nodes.trans h.nodes
  held := h'.held.trans h.held
  active := h'.active.trans h.active
  stamp := h'.stamp.trans h.stamp
  size := h'.size.trans h.size
  cells c x hx := by
    obtain ⟨m, hx', hm⟩ := h.cells c x hx
    obtain ⟨m', hx'', hm'⟩ := h'.cells c _ hx'
    refine ⟨m', hx'', ?_⟩
    rcases hm' with rfl | hm'
    · exact hm
    · exact .inr hm'

theorem one (v : Vfs κ ν ρ) (c : CellId) :
    Marks mark v (v.modifyCell c fun x => { x with invalidatedAt := mark }) where
  nodes := rfl
  held := rfl
  active := rfl
  stamp := rfl
  size := Array.size_modify
  cells c' x hx := by
    rw [cell?, Vfs.modifyCell, Array.getElem?_modify]
    split
    · exact ⟨mark, congrArg (Option.map _) hx, .inr rfl⟩
    · exact ⟨_, hx, .inl rfl⟩

theorem invalidateAll (mark fuel : Nat) (work : List CellId) (v : Vfs κ ν ρ) :
    Marks mark v (v.invalidateAll mark fuel work) := by
  fun_induction Vfs.invalidateAll v mark fuel work with
  | case1 => exact .refl _
  | case2 => exact .refl _
  | case3 _ _ _ _ _ ih => exact ih
  | case4 _ _ _ _ _ _ _ ih => exact ih
  | case5 v fuel c _ _ _ _ _ ih => exact (one v c).trans ih

theorem sameTies (h : Marks mark v v') : SameTies v v' where
  parent n := by rw [node, node, h.nodes]
  children n := by rw [node, node, h.nodes]
  held := h.held
  active := h.active
  cells c := by
    cases hx : v.cell? c with
    | none =>
      have hlt : v'.cells.size ≤ c := h.size ▸ Array.getElem?_eq_none_iff.mp hx
      rw [cell?, Array.getElem?_eq_none hlt]
    | some x =>
      obtain ⟨m, hx', -⟩ := h.cells c x hx
      rw [hx']
      rfl

end Marks

/-- A tree whose node has an empty memo, but for what outlives that. -/
def cleared (v : Vfs κ ν ρ) (n : NodeId) : Vfs κ ν ρ :=
  v.tick.2.modifyNode n fun nd => { nd with memo := (v.node n).memo.clear.1 }

theorem clearMemo_eq (v : Vfs κ ν ρ) (n : NodeId) :
    v.clearMemo n = (v.cleared n).invalidate (v.stamp + 1) (cellsOf (v.node n).memo.clear.2) :=
  rfl

theorem marks_clearMemo (v : Vfs κ ν ρ) (n : NodeId) : Marks (v.stamp + 1) (v.cleared n) (v.clearMemo n) :=
  .invalidateAll ..

theorem Later.clearMemo (v : Vfs κ ν ρ) (n : NodeId) : Later free v (v.clearMemo n) := by
  have hmarks := marks_clearMemo v n
  have htick : Later free v v.tick.2 :=
    ⟨⟨Nat.le_refl _, fun _ _ => rfl, fun _ _ => rfl⟩, fun hb => ⟨hb.root, hb.children⟩, fun _ _ _ => id, rfl, rfl,
      fun _ => .refl _, Nat.le_succ _, rfl, fun _ x hx => ⟨x, hx, rfl, rfl, .inl rfl, fun _ _ _ _ _ => id⟩⟩
  have hcleared : Later free v (v.cleared n) :=
    htick.writeMemo (f := fun _ => (v.node n).memo.clear.1) (.clear _)
  have hnode : ∀ m, (v.clearMemo n).node m = (v.cleared n).node m := fun m => by rw [node, node, hmarks.nodes]
  have hstamp : (v.clearMemo n).stamp = v.stamp + 1 := hmarks.stamp
  refine ⟨⟨?_, fun m hm => ?_, fun m hm => ?_⟩, fun hb => ⟨?_, fun m c hc => ?_⟩, fun m c hc hmem => ?_, hmarks.held,
    hmarks.active, fun m => ?_, by omega, hmarks.size, fun c x hx => ?_⟩
  · rw [hmarks.nodes]
    exact hcleared.size_le
  · rw [hnode]
    exact hcleared.parent m hm
  · rw [hnode]
    exact hcleared.name m hm
  · rw [hmarks.nodes]
    exact (hcleared.bounded hb).root
  · rw [hmarks.nodes]
    exact (hcleared.bounded hb).children m c (hnode m ▸ hc)
  · exact hcleared.children m c hc (hnode m ▸ hmem)
  · rw [hnode]
    exact hcleared.memo m
  · obtain ⟨m, hx', hm⟩ := hmarks.cells c x hx
    refine ⟨_, hx', rfl, rfl, ?_, fun _ _ _ _ _ => id⟩
    dsimp only
    omega

theorem cell?_addDependent (v : Vfs κ ν ρ) (c user c' : CellId) :
    (v.addDependent c user).cell? c' = if c = c' then (v.cell? c').map fun x =>
      { x with dependents := if (v.liveDependents c).contains user then v.liveDependents c
          else v.liveDependents c ++ [user] } else v.cell? c' := by
  rw [Vfs.addDependent, cell?, Vfs.modifyCell, Array.getElem?_modify]
  rfl

theorem exists_cell_addDependent {x : Cell ρ} (hx : v.cell? c = some x) (user : CellId) :
    ∃ x', (v.addDependent c user).cell? c = some x' ∧ user ∈ x'.dependents := by
  rw [cell?_addDependent, if_pos rfl, hx]
  refine ⟨_, rfl, ?_⟩
  dsimp only
  split
  · next h => exact List.contains_iff_mem.mp h
  · simp

theorem Later.addDependent (v : Vfs κ ν ρ) (c user : CellId) : Later free v (v.addDependent c user) := by
  refine ⟨⟨Nat.le_refl _, fun _ _ => rfl, fun _ _ => rfl⟩, fun hb => ⟨hb.root, hb.children⟩, fun _ _ _ => id, rfl, rfl,
    fun _ => .refl _, Nat.le_refl _, Array.size_modify, fun c' x hx => ?_⟩
  rw [cell?_addDependent, hx]
  split
  · next heq =>
    obtain rfl := heq
    refine ⟨_, rfl, rfl, rfl, .inl rfl, fun u y hy _ halive hu => ?_⟩
    have hsame : (v.addDependent c user).isAlive y.home = v.isAlive y.home := isAlive_of_nodes (by rfl) (by rfl) _
    have halive : v.isAlive y.home = true := hsame ▸ halive
    have hlive : u ∈ v.liveDependents c := by
      rw [Vfs.liveDependents, hx]
      exact List.mem_filter.mpr ⟨hu, by rw [isLiveCell, hy, Bool.or_eq_true]; exact .inr halive⟩
    dsimp only
    split
    · exact hlive
    · exact List.mem_append_left _ hlive
  · exact ⟨x, rfl, rfl, rfl, .inl rfl, fun _ _ _ _ _ => id⟩

theorem bounded_make (e : Expiry) : (make e : Vfs κ ν ρ).Bounded := by
  refine ⟨by simp [make, rootId], fun n c hc => ?_⟩
  cases n with
  | zero => cases hc
  | succ n =>
    rw [node, Array.getD_eq_getD_getElem?, Array.getElem?_eq_none (by simp [make])] at hc
    cases hc

theorem memo_make (e : Expiry) (n : NodeId) : ((make e : Vfs κ ν ρ).node n).memo = Memo.empty := by
  cases n with
  | zero => rfl
  | succ n =>
    rw [node, Array.getD_eq_getD_getElem?, Array.getElem?_eq_none (by simp [make])]
    rfl

/-! ## Questions -/

/-- An action that only asks, and writes notes under free keys. -/
def Looks (free : κ → Prop) (act : StateM (Vfs κ ν ρ) α) : Prop := ∀ v, Later free v (act v).2

namespace Looks

theorem pure (a : α) : Looks free (pure a : StateM (Vfs κ ν ρ) α) := fun v => .refl v

theorem bind {act : StateM (Vfs κ ν ρ) α} {f : α → StateM (Vfs κ ν ρ) β} (h : Looks free act) (hf : ∀ a, Looks free (f a)) :
    Looks free (act >>= f) :=
  fun v => (h v).trans (hf _ _)

theorem get {f : Vfs κ ν ρ → StateM (Vfs κ ν ρ) β} (hf : ∀ v, Looks free (f v)) : Looks free (get >>= f) := fun v => hf v v

theorem modify {f : Vfs κ ν ρ → Vfs κ ν ρ} (hf : ∀ v, Later free v (f v)) : Looks free (modify f) := hf

theorem modifyGet {f : Vfs κ ν ρ → α × Vfs κ ν ρ} (hf : ∀ v, Later free v (f v).2) : Looks free (modifyGet f) := hf

theorem forM {f : α → StateM (Vfs κ ν ρ) Unit} (hf : ∀ a, Looks free (f a)) (l : List α) : Looks free (l.forM f) := by
  induction l with
  | nil => exact .pure ()
  | cons a l ih => exact (hf a).bind fun _ => ih

theorem foldlM {f : β → α → StateM (Vfs κ ν ρ) β} (hf : ∀ b a, Looks free (f b a)) (l : List α) (b : β) :
    Looks free (l.foldlM f b) := by
  induction l generalizing b with
  | nil => exact .pure b
  | cons a l ih => exact (hf b a).bind fun b => ih b

theorem forIn {f : α → β → StateM (Vfs κ ν ρ) (ForInStep β)} (hf : ∀ a b, Looks free (f a b)) (l : List α) (b : β) :
    Looks free (forIn l b f) := by
  induction l generalizing b with
  | nil => exact .pure b
  | cons a l ih =>
    rw [List.forIn_cons]
    refine (hf a b).bind fun r => ?_
    cases r with
    | done b => exact .pure b
    | yield b => exact ih b

end Looks

theorem later_pokeChild (v : Vfs κ ν ρ) (n : NodeId) (s : String) : Later free v (v.pokeChild n s).2 := by
  rw [pokeChild]
  split
  · exact .refl v
  · exact .appendChild ..

theorem later_pokeFrom (v : Vfs κ ν ρ) (n : NodeId) (names : List String) : Later free v (v.pokeFrom n names).2 := by
  induction names generalizing v n with
  | nil => exact .refl v
  | cons s names ih => exact (later_pokeChild v n s).trans (ih ..)

/-- The node of a path is there. -/
theorem pokeFrom_lt (hb : v.Bounded) (hn : n < v.nodes.size) (names : List String) :
    (v.pokeFrom n names).1 < (v.pokeFrom n names).2.nodes.size := by
  induction names generalizing v n with
  | nil => exact hn
  | cons s names ih =>
    have hchild : (v.pokeChild n s).1 < (v.pokeChild n s).2.nodes.size := by
      rw [pokeChild]
      split
      · next c hc => exact hb.children n c (child?_eq_some hc).1
      · simp [appendChild, makeNode]
    have hlater : Later (fun _ => True) v (v.pokeChild n s).2 := later_pokeChild v n s
    exact ih (hlater.bounded hb) hchild

theorem nodeAt_lt (hb : v.Bounded) (path : String) : (nodeAt path v).1 < (nodeAt path v).2.nodes.size :=
  pokeFrom_lt hb hb.root (splitPath path)

theorem looks_nodeAt (path : String) : Looks free (nodeAt path : StateM (Vfs κ ν ρ) NodeId) :=
  .modifyGet fun v => later_pokeFrom v rootId (splitPath path)

/-- The nodes for a listing are among those listed before, or new. -/
theorem nodesFor_bare (v : Vfs κ ν ρ) (n : NodeId) (old : List NodeId) (entries : List (String × FileKind)) :
    Later.Bare v (v.nodesFor n old entries).2 ∧ ∀ c ∈ (v.nodesFor n old entries).1,
      c ∈ old ∨ v.nodes.size ≤ c ∧ c < (v.nodesFor n old entries).2.nodes.size := by
  induction entries generalizing v with
  | nil => exact ⟨.refl v, by simp [nodesFor]⟩
  | cons e entries ih =>
    obtain ⟨c, v₁, heq, hbare, hc⟩ : ∃ c v₁,
        v.nodesFor n old (e :: entries) = (c :: (v₁.nodesFor n old entries).1, (v₁.nodesFor n old entries).2) ∧
        Later.Bare v v₁ ∧ (c ∈ old ∨ v.nodes.size ≤ c ∧ c < v₁.nodes.size) := by
      cases hfind : old.find? fun c => (v.node c).name = e.1 && v.compatible c e.2 with
      | some c => exact ⟨c, v, by rw [nodesFor, hfind], .refl v, .inl (List.mem_of_find?_eq_some hfind)⟩
      | none =>
        refine ⟨v.nodes.size, (v.makeNode n e.1 (some e.2)).2, ?_, .makeNode v n e.1 _, .inr ⟨Nat.le_refl _, by simp⟩⟩
        rw [nodesFor, hfind]
        rfl
    obtain ⟨hrest, hcs⟩ := ih v₁
    rw [heq]
    refine ⟨hbare.trans hrest, fun c' hc' => ?_⟩
    rcases List.mem_cons.mp hc' with rfl | hc'
    · exact hc.imp id fun hc => ⟨hc.1, Nat.lt_of_lt_of_le hc.2 hrest.size_le⟩
    · exact (hcs c' hc').imp id fun hc => ⟨Nat.le_trans hbare.size_le hc.1, hc.2⟩

theorem later_syncChildren (v : Vfs κ ν ρ) (n : NodeId) (entries : List (String × FileKind)) :
    Later free v (v.syncChildren n entries) := by
  obtain ⟨hbare, hcs⟩ := nodesFor_bare v n (v.node n).children entries
  rw [syncChildren_eq]
  exact .setNode hbare (fun _ => rfl) (fun _ => rfl) (fun _ => rfl) hcs

theorem later_observeMissing (n : NodeId) (v : Vfs κ ν ρ) : Later free v (observeMissing n v) := by
  unfold observeMissing
  extract_lets existed keep seen
  have hseen : Later free v seen := by
    refine .look (fun _ => rfl) (fun _ => rfl) (fun _ => rfl) fun nd => ?_
    dsimp only
    split <;> simp
  split
  · exact hseen.trans (.clearMemo ..)
  · exact hseen

theorem later_rescan (d : Disk) (n : NodeId) (v : Vfs κ ν ρ) : Later free v (rescan d n v) := by
  rw [rescan]
  split
  · exact later_syncChildren ..
  · exact .refl v

theorem later_observeFound (d : Disk) (n : NodeId) (info : FileInfo) (v : Vfs κ ν ρ) :
    Later free v (observeFound d n info v) := by
  unfold observeFound
  extract_lets change seen cleared
  have hseen : Later free v seen := .look (fun _ => rfl) (fun _ => rfl) (fun _ => rfl) fun _ => List.Subset.refl _
  have hcleared : Later free v cleared := by
    unfold cleared
    split
    · exact hseen
    · exact hseen.trans (.clearMemo ..)
  split
  · exact hseen
  split
  · exact hcleared.trans (later_rescan ..)
  split
  · exact hcleared
  split
  · exact hcleared.trans (.clearMemo ..)
  · exact hcleared

theorem looks_sync (d : Disk) (n : NodeId) : Looks free (sync d n : StateM (Vfs κ ν ρ) _) := by
  intro v
  rw [sync]
  split
  · exact later_observeMissing n v
  · exact later_observeFound d n _ v

theorem looks_stat (d : Disk) (n : NodeId) : Looks free (stat d n : StateM (Vfs κ ν ρ) _) := by
  intro v
  unfold stat
  dsimp only
  split
  · exact .refl v
  · exact .refl v
  · exact looks_sync d n v

theorem looks_expire (n : NodeId) : Looks free (modify (expire n) : StateM (Vfs κ ν ρ) Unit) :=
  .modify fun _ => .look (fun _ => rfl) (fun _ => rfl) (fun _ => rfl) fun _ => List.Subset.refl _

theorem looks_hasKind (d : Disk) (kind : FileKind) (n : NodeId) :
    Looks free (hasKind d kind n : StateM (Vfs κ ν ρ) Bool) :=
  (looks_stat d n).bind fun r => by cases r <;> exact .pure _

theorem looks_readDir (d : Disk) (n : NodeId) : Looks free (readDir d n : StateM (Vfs κ ν ρ) _) := by
  refine (looks_stat d n).bind fun r => ?_
  cases r with
  | error e => exact .pure _
  | ok info =>
    refine .get fun v => ?_
    split
    · exact .pure _
    · exact .pure _

theorem looks_locateIn (d : Disk) (name : String) (up : List NodeId) :
    Looks free (locateIn d name up : StateM (Vfs κ ν ρ) _) := by
  induction up with
  | nil => exact .pure _
  | cons n up ih =>
    refine (Looks.modifyGet fun v => later_pokeChild v n name).bind fun c => (looks_stat d c).bind fun r => ?_
    cases r with
    | ok info => exact .pure _
    | error e => exact ih

theorem looks_locate (d : Disk) (n : NodeId) (name : String) : Looks free (locate d n name : StateM (Vfs κ ν ρ) _) :=
  .get fun v => looks_locateIn d name (v.lineage n)

section Memo

variable [DecidableEq κ]

theorem looks_blob (d : Disk) (n : NodeId) : Looks free (blob d n : StateM (Vfs κ ν ρ) _) := by
  refine (looks_stat d n).bind fun r => ?_
  cases r with
  | error e => exact .pure _
  | ok info =>
    refine .get fun v => ?_
    split
    · exact .pure _
    split
    · exact .pure _
    split
    · exact .pure _
    · refine (Looks.modify fun v => ?_).bind fun _ => .pure _
      exact (Later.refl v).writeMemo (.put _ (k := .blob) trivial rfl)

theorem looks_readNote {n : NodeId} {k : κ} (hk : free k) {init : StateM (Vfs κ ν ρ) ν} (h : Looks free init) :
    Looks free (readNote n k init) := by
  intro v
  have hstart : MemoLater free (v.node n).memo ((v.node n).memo.start (.user k) Note.isUser).1 :=
    .start (k := .user k) _ hk _
  have hstarted : Later free v (v.modifyNode n fun nd =>
      { nd with memo := ((v.node n).memo.start (.user k) Note.isUser).1 }) := (Later.refl v).writeMemo hstart
  unfold readNote
  dsimp only
  split
  · exact hstarted
  · exact hstarted.trans (h _)
  · next serial hmissing =>
    have hinit := h (v.modifyNode n fun nd => { nd with memo := ((v.node n).memo.start (.user k) Note.isUser).1 })
    refine (hstarted.trans hinit).writeMemo (((hstarted.trans hinit).memo n).finish ?_ _)
    intro hnum j c hj hfirm ho
    have hn : n < v.nodes.size := by
      by_contra hn
      obtain ⟨s, hs, -⟩ := hfirm
      rw [node, Array.getD_eq_getD_getElem?, Array.getElem?_eq_none (Nat.le_of_not_lt hn)] at hs
      cases hs
    -- The slot was there when the note was started, and it belongs to the key of the note.
    have howns := (Memo.start_missing hnum hmissing).1
    have hlt : serial < ((v.node n).memo.start (.user k) Note.isUser).1.next := by
      obtain ⟨e, he, -, rfl⟩ := howns
      exact (hstart.numbered hnum).lt e he
    have hgrows := (hinit.memo n).grows
    rw [node_modifyNode_self _ hn] at hgrows
    have hkey := (hstart.numbered hnum).owns_unique (hgrows.owns _ _ ho hlt) howns
    cases hkey
    exact hj hk

theorem later_putNote (v : Vfs κ ν ρ) (n : NodeId) {k : κ} (hk : free k) (x : ν) : Later free v (v.putNote n k x) :=
  (Later.refl v).writeMemo (.put _ (k := .user k) hk rfl)

theorem looks_blobAt (d : Disk) (path : String) : Looks free (blobAt d path : StateM (Vfs κ ν ρ) _) :=
  (looks_nodeAt path).bind fun n => looks_blob d n

end Memo

theorem looks_isFileAt (d : Disk) (path : String) : Looks free (isFileAt d path : StateM (Vfs κ ν ρ) _) :=
  (looks_nodeAt path).bind fun n => looks_hasKind d .file n

theorem looks_isDirAt (d : Disk) (path : String) : Looks free (isDirAt d path : StateM (Vfs κ ν ρ) _) :=
  (looks_nodeAt path).bind fun n => looks_hasKind d .dir n

theorem looks_namesAt (d : Disk) (path : String) : Looks free (namesAt d path : StateM (Vfs κ ν ρ) _) := by
  refine ((looks_nodeAt path).bind fun n => looks_readDir d n).bind fun r => ?_
  cases r with
  | error e => exact .pure _
  | ok cs => exact .get fun v => .pure _

theorem later_addChild (v : Vfs κ ν ρ) (n : NodeId) (name : String) (kind : FileKind) :
    Later free v (v.addChild n name kind).2 := by
  rw [addChild]
  split
  · exact .appendChild ..
  split
  · exact .refl v
  · next c _ _ =>
    have hout : Later free v (v.modifyNode n fun nd => { nd with children := nd.children.erase c }) :=
      .look (fun _ => rfl) (fun _ => rfl) (fun _ => rfl) fun _ => List.erase_subset
    exact hout.trans (.appendChild ..)

theorem later_remove (v : Vfs κ ν ρ) (path : String) : Later free v (v.remove path).2 := by
  unfold remove
  dsimp only
  split
  · unfold removeChild
    split
    · exact .refl v
    · exact .look (fun _ => rfl) (fun _ => rfl) (fun _ => rfl) fun _ => List.erase_subset
  · exact .refl v

theorem looks_scan (d : Disk) (o : ScanOptions) (path : String) : Looks free (scan d o path : StateM (Vfs κ ν ρ) _) := by
  unfold scan
  split
  · exact .pure _
  · refine (looks_nodeAt path).bind fun n => (looks_stat d n).bind fun r => ?_
    cases r with
    | error e => exact .pure _
    | ok info =>
      refine (Looks.forIn (fun x _ => ?_) _ _).bind fun _ => .pure _
      exact (looks_nodeAt x.1).bind fun c =>
        (Looks.modify fun v => later_syncChildren v c x.2).bind fun _ => .pure _

end Vfs
end EditorAgent

import EditorAgent.Proofs.Memo.Slots
import EditorAgent.Proofs.Path.Names
import EditorAgent.Vfs.Stat

/-!
# Trees that tell the truth about a disk

On a disk that does not change, a tree is coherent: every stat is what the disk says, a directory that was
looked at lists the sources on the disk, and a note is what it would be if it were made now. Nodes that were
only asked for may stand beside the entries of a directory. One that is named like a source is taken for an
entry, so a tree is trusted only with names that are not asked for in vain. Looking at the disk keeps all
this, and leaves the cells alone.
-/

namespace EditorAgent

/-- The names in a directory. -/
def Disk.names (d : Disk) (path : String) : List String :=
  match d.list path with
  | .ok entries => entries.map (·.1)
  | .error _ => []

/-- Every entry of the disk has a name. -/
def Disk.Named (d : Disk) : Prop := ∀ e ∈ d.entries, ∀ s ∈ e.1, s ≠ ""

instance (d : Disk) : Decidable d.Named := inferInstanceAs (Decidable (∀ e ∈ d.entries, _))

/-- Every name on the disk is one that a path can hold. -/
def Disk.Proper (d : Disk) : Prop := ∀ e ∈ d.entries, ∀ s ∈ e.1, Vfs.IsName s ∧ s ≠ ".."

instance (d : Disk) : Decidable d.Proper := inferInstanceAs (Decidable (∀ e ∈ d.entries, _))

theorem Disk.Proper.named {d : Disk} (h : d.Proper) : d.Named := fun e he s hs => (h e he s hs).1.1

/-- A name in a directory is a name of an entry. -/
theorem Disk.exists_entry_of_mem_names {d : Disk} {path s : String} (hs : s ∈ d.names path) :
    ∃ e ∈ d.entries, s ∈ e.1 := by
  rw [names] at hs
  split at hs
  · next entries hl =>
    obtain ⟨x, hx, rfl⟩ := List.mem_map.mp hs
    rw [list] at hl
    split at hl
    · cases hl
    · next l _ =>
      split at hl
      · cases hl
        obtain ⟨e, he, hx⟩ := List.mem_filterMap.mp hx
        split at hx
        · obtain ⟨s, hlast, rfl⟩ := Option.map_eq_some_iff.mp hx
          exact ⟨e, he, List.mem_of_getLast? hlast⟩
        · cases hx
      · cases hl
      · cases hl
  · cases hs

theorem Disk.Proper.of_mem_names {d : Disk} (h : d.Proper) {path s : String} (hs : s ∈ d.names path) :
    Vfs.IsName s ∧ s ≠ ".." := by
  obtain ⟨e, he, hs⟩ := exists_entry_of_mem_names hs
  exact h e he s hs

/-- Whether a name is that of a source. -/
def isSourceFile (s : String) : Bool := Text.endsWith s ".go"

namespace Vfs

/-- Which names below which place a tree is trusted with: a place is given by the names that lead to it. -/
abbrev Trust := List String → String → Prop

/-- The tree is trusted with all names. -/
abbrev Trust.full : Trust := fun _ _ => True

/-- The tree is trusted with no name. -/
abbrev Trust.none : Trust := fun _ _ => False

variable {κ ν ρ : Type} {τ τ' : Trust} {d : Disk} {ok : List String → κ → ν → Prop} {v v' v'' : Vfs κ ν ρ}
  {n m c : NodeId}

/-! ## Nodes -/

theorem node_modifyNode (v : Vfs κ ν ρ) (n m : NodeId) (f : Node κ ν → Node κ ν) :
    (v.modifyNode n f).node m = if n = m ∧ m < v.nodes.size then f (v.node m) else v.node m := by
  simp only [node, modifyNode, Array.getD_eq_getD_getElem?, Array.getElem?_modify]
  by_cases hm : m < v.nodes.size
  · by_cases hn : n = m <;> simp [hn, hm]
  · simp [hm]

theorem node_modifyNode_of_ne (f : Node κ ν → Node κ ν) (h : m ≠ n) : (v.modifyNode n f).node m = v.node m := by
  simp [node_modifyNode, h.symm]

theorem node_modifyNode_self (f : Node κ ν → Node κ ν) (h : n < v.nodes.size) :
    (v.modifyNode n f).node n = f (v.node n) := by
  simp [node_modifyNode, h]

@[simp] theorem size_modifyNode (v : Vfs κ ν ρ) (n : NodeId) (f : Node κ ν → Node κ ν) :
    (v.modifyNode n f).nodes.size = v.nodes.size := by simp [modifyNode]

theorem node_makeNode (v : Vfs κ ν ρ) (n m : NodeId) (s : String) (kind : Option FileKind) :
    (v.makeNode n s kind).2.node m =
      if m = v.nodes.size then { parent := some n, name := s, kind } else v.node m := by
  simp only [node, makeNode, Array.getD_eq_getD_getElem?, Array.getElem?_push]
  split <;> rfl

@[simp] theorem size_makeNode (v : Vfs κ ν ρ) (n : NodeId) (s : String) (kind : Option FileKind) :
    (v.makeNode n s kind).2.nodes.size = v.nodes.size + 1 := by simp [makeNode]

/-! ## Names -/

/-- The names that lead from the root to a node. -/
def names (v : Vfs κ ν ρ) (n : NodeId) : List String :=
  (((v.lineage n).map fun m => (v.node m).name).reverse).filter (· != "")

theorem path_eq_pathOf (v : Vfs κ ν ρ) (n : NodeId) : v.path n = pathOf (v.names n) := rfl

theorem names_step (v : Vfs κ ν ρ) (n : NodeId) :
    v.names n = (match (v.node n).parent with
      | some p => if p < n then v.names p else []
      | none => []) ++ [(v.node n).name].filter (· != "") := by
  rw [names, lineage]
  cases (v.node n).parent with
  | none => simp
  | some p =>
    by_cases hlt : p < n
    · simp [names, hlt]
    · simp [hlt]

theorem names_child {s : String} (hp : (v.node c).parent = some n) (hlt : n < c)
    (hs : (v.node c).name = s) (hne : s ≠ "") : v.names c = v.names n ++ [s] := by
  rw [names_step, hp, hs]
  simp [hlt, hne]

/-- The names of a node's children. -/
def childNames (v : Vfs κ ν ρ) (n : NodeId) : List String := (v.node n).children.map fun c => (v.node c).name

/-- Nodes are neither renamed nor moved. -/
structure Shape (v v' : Vfs κ ν ρ) : Prop where
  size_le : v.nodes.size ≤ v'.nodes.size
  parent : ∀ n < v.nodes.size, (v'.node n).parent = (v.node n).parent
  name : ∀ n < v.nodes.size, (v'.node n).name = (v.node n).name

namespace Shape

theorem refl (v : Vfs κ ν ρ) : Shape v v := ⟨Nat.le_refl _, fun _ _ => rfl, fun _ _ => rfl⟩

theorem trans (h : Shape v v') (h' : Shape v' v'') : Shape v v'' where
  size_le := Nat.le_trans h.size_le h'.size_le
  parent n hn := (h'.parent n (Nat.lt_of_lt_of_le hn h.size_le)).trans (h.parent n hn)
  name n hn := (h'.name n (Nat.lt_of_lt_of_le hn h.size_le)).trans (h.name n hn)

theorem names_eq (h : Shape v v') (hn : n < v.nodes.size) : v'.names n = v.names n := by
  induction n using Nat.strongRecOn with
  | ind n ih =>
    rw [names_step, names_step, h.parent n hn, h.name n hn]
    split
    · next p _ =>
      split
      · next hp => rw [ih p hp (Nat.lt_trans hp hn)]
      · rfl
    · rfl

theorem path_eq (h : Shape v v') (hn : n < v.nodes.size) : v'.path n = v.path n := by
  rw [path_eq_pathOf, path_eq_pathOf, h.names_eq hn]

theorem modifyNode {f : Node κ ν → Node κ ν} (hp : (f (v.node n)).parent = (v.node n).parent)
    (hs : (f (v.node n)).name = (v.node n).name) : Shape v (v.modifyNode n f) where
  size_le := by simp
  parent m _ := by
    rw [node_modifyNode]
    split
    · next h => rw [← h.1, hp]
    · rfl
  name m _ := by
    rw [node_modifyNode]
    split
    · next h => rw [← h.1, hs]
    · rfl

theorem makeNode (v : Vfs κ ν ρ) (n : NodeId) (s : String) (kind : Option FileKind) :
    Shape v (v.makeNode n s kind).2 where
  size_le := by simp
  parent m hm := by rw [node_makeNode, if_neg (Nat.ne_of_lt hm)]
  name m hm := by rw [node_makeNode, if_neg (Nat.ne_of_lt hm)]

end Shape

/-! ## Coherence -/

/-- What a look at the disk tells of an entry. -/
def infoOf (name : String) (e : DiskEntry) : FileInfo := ⟨name, e.item.kind, itemSize e.item, e.modified⟩

/-- A stat that the disk bears out. -/
def StatAgrees (d : Disk) (path name : String) : Stat → Prop
  | .unknown => True
  | .missing => ∀ e, d.entry path ≠ .ok e
  | .found info => ∃ e, d.entry path = .ok e ∧ info = infoOf name e

/-- A note that is right at the node that names lead to. A cell stands under a key of its own. -/
def NoteAgrees (d : Disk) (ok : List String → κ → ν → Prop) (ns : List String) : NoteKey κ → Note ν → Prop
  | .blob, .blob data => d.read (pathOf ns) = .ok data
  | .user k, .user x => ok ns k x
  | .user k, .cell _ => ∀ ns x, ¬ ok ns k x
  | _, _ => True

structure Sound (d : Disk) (ok : List String → κ → ν → Prop) (v : Vfs κ ν ρ) (n : NodeId) : Prop where
  top : (v.node n).parent = none → n = rootId
  parent : ∀ p, (v.node n).parent = some p → p < n ∧ (v.node n).name ≠ ""
  children : ∀ c ∈ (v.node n).children, c < v.nodes.size ∧ (v.node c).parent = some n
  stat : StatAgrees d (v.path n) (v.node n).name (v.node n).stat
  numbered : (v.node n).memo.Numbered
  notes : ∀ k x, (v.node n).memo.Kept k x → NoteAgrees d ok (v.names n) k x

/-- A directory that was looked at lists the sources on the disk, as far as it is trusted with their names. -/
def Listed (τ : Trust) (d : Disk) (v : Vfs κ ν ρ) (n : NodeId) : Prop :=
  ∀ info, (v.node n).stat = .found info → info.kind = .dir →
    ∀ s, isSourceFile s = true → τ (v.names n) s → (s ∈ v.childNames n ↔ s ∈ d.names (v.path n))

structure Coherent (τ : Trust) (d : Disk) (ok : List String → κ → ν → Prop) (v : Vfs κ ν ρ) : Prop where
  root : 0 < v.nodes.size ∧ (v.node rootId).parent = none ∧ (v.node rootId).name = ""
  sound : ∀ n < v.nodes.size, Sound d ok v n
  listed : ∀ n < v.nodes.size, Listed τ d v n

theorem coherent_make (τ : Trust) (d : Disk) (ok : List String → κ → ν → Prop) (e : Expiry) :
    Coherent τ d ok (make e : Vfs κ ν ρ) := by
  have hnode : ∀ n, n < (make e : Vfs κ ν ρ).nodes.size →
      (make e : Vfs κ ν ρ).node n = { parent := none, name := "" } := by
    intro n hn
    have hn0 : n = 0 := by simpa [make] using hn
    rw [hn0]
    rfl
  refine ⟨⟨by simp [make], rfl, rfl⟩, ?_, ?_⟩
  · intro n hn
    constructor
    all_goals rw [hnode n hn]
    · intro _
      simpa [make, rootId] using hn
    · simp
    · simp
    · trivial
    · exact Memo.numbered_empty
    · intro k x hk
      exact absurd hk Memo.not_kept_empty
  · intro n hn info hi
    rw [hnode n hn] at hi
    cases hi

theorem Sound.transfer (h : Sound d ok v n) (hs : Shape v v') (hn : n < v.nodes.size)
    (hnode : v'.node n = v.node n) : Sound d ok v' n where
  top := by rw [hnode]; exact h.top
  parent := by rw [hnode]; exact h.parent
  children := by
    rw [hnode]
    intro c hc
    obtain ⟨hlt, hp⟩ := h.children c hc
    exact ⟨Nat.lt_of_lt_of_le hlt hs.size_le, (hs.parent c hlt).trans hp⟩
  stat := by rw [hnode, hs.path_eq hn]; exact h.stat
  numbered := by rw [hnode]; exact h.numbered
  notes := by rw [hnode, hs.names_eq hn]; exact h.notes

theorem childNames_eq (h : Sound d ok v n) (hs : Shape v v') (hnode : (v'.node n).children = (v.node n).children) :
    v'.childNames n = v.childNames n := by
  rw [childNames, childNames, hnode]
  exact List.map_congr_left fun c hc => hs.name c (h.children c hc).1

theorem Listed.transfer (hl : Listed τ d v n) (h : Sound d ok v n) (hs : Shape v v') (hn : n < v.nodes.size)
    (hstat : (v'.node n).stat = (v.node n).stat) (hch : (v'.node n).children = (v.node n).children) :
    Listed τ d v' n := by
  intro info hi
  rw [childNames_eq h hs hch, hs.path_eq hn, hs.names_eq hn]
  exact hl info (hstat ▸ hi)

/-! ## Frames -/

/-- What looking at the disk leaves alone: the nodes' places, whose slots are whose, and the cells. -/
structure Frame (v v' : Vfs κ ν ρ) : Prop extends Shape v v' where
  cells : v'.cells = v.cells
  memo : ∀ n < v.nodes.size, (v.node n).memo.Grows (v'.node n).memo
  files : ∀ n k c, (v'.node n).memo.Kept (.user k) (.cell c) ↔ (v.node n).memo.Kept (.user k) (.cell c)

namespace Frame

theorem refl (v : Vfs κ ν ρ) : Frame v v where
  toShape := .refl v
  cells := rfl
  memo _ _ := .refl _
  files _ _ _ := Iff.rfl

theorem trans (h : Frame v v') (h' : Frame v' v'') : Frame v v'' where
  toShape := h.toShape.trans h'.toShape
  cells := h'.cells.trans h.cells
  memo n hn := (h.memo n hn).trans (h'.memo n (Nat.lt_of_lt_of_le hn h.size_le))
  files n k c := (h'.files n k c).trans (h.files n k c)

/-- A change that is not to the memo of a node. -/
theorem modifyNode {f : Node κ ν → Node κ ν} (hp : (f (v.node n)).parent = (v.node n).parent)
    (hs : (f (v.node n)).name = (v.node n).name) (hm : (f (v.node n)).memo = (v.node n).memo) :
    Frame v (v.modifyNode n f) := by
  have hmemo : ∀ m, ((v.modifyNode n f).node m).memo = (v.node m).memo := by
    intro m
    rw [node_modifyNode]
    split
    · next h => rw [← h.1, hm]
    · rfl
  refine ⟨.modifyNode hp hs, rfl, fun m _ => ?_, fun m k c => ?_⟩
  · rw [hmemo]
    exact .refl _
  · rw [hmemo]

theorem makeNode (v : Vfs κ ν ρ) (n : NodeId) (s : String) (kind : Option FileKind) :
    Frame v (v.makeNode n s kind).2 := by
  refine ⟨.makeNode v n s kind, rfl, fun m hm => ?_, fun m k c => ?_⟩
  · rw [node_makeNode, if_neg (Nat.ne_of_lt hm)]
    exact .refl _
  · rw [node_makeNode]
    split
    · next h =>
      have hempty : (v.node m).memo = Memo.empty := by
        rw [h, node, Array.getD_eq_getD_getElem?, Array.getElem?_eq_none (Nat.le_refl _)]
        rfl
      rw [hempty]
      rfl
    · rfl

end Frame

/-! ## Making nodes -/

theorem Sound.makeNode (h : ∀ m < v.nodes.size, Sound d ok v m) (hn : n < v.nodes.size) {s : String}
    (hs : s ≠ "") (kind : Option FileKind) :
    ∀ m < (v.makeNode n s kind).2.nodes.size, Sound d ok (v.makeNode n s kind).2 m := by
  intro m hm
  by_cases hold : m < v.nodes.size
  · refine (h m hold).transfer (.makeNode v n s kind) hold ?_
    rw [node_makeNode, if_neg (Nat.ne_of_lt hold)]
  · rw [size_makeNode] at hm
    have hnew : m = v.nodes.size := by omega
    constructor
    all_goals rw [node_makeNode, if_pos hnew]
    · rintro ⟨⟩
    · rintro p ⟨⟩
      exact ⟨hnew ▸ hn, hs⟩
    · simp
    · trivial
    · exact Memo.numbered_empty
    · intro k x hk
      exact absurd hk Memo.not_kept_empty

/-- Changing a node keeps the others sound. -/
theorem Sound.modifyNode {f : Node κ ν → Node κ ν} (h : ∀ m < v.nodes.size, Sound d ok v m)
    (hs : Shape v (v.modifyNode n f)) (hself : n < v.nodes.size → Sound d ok (v.modifyNode n f) n) :
    ∀ m < (v.modifyNode n f).nodes.size, Sound d ok (v.modifyNode n f) m := by
  intro m hm
  rw [size_modifyNode] at hm
  by_cases hmn : m = n
  · subst hmn
    exact hself hm
  · exact (h m hm).transfer hs hm (node_modifyNode_of_ne f hmn)

/-- A node stays sound if what is new about it is right. -/
theorem Sound.change {f : Node κ ν → Node κ ν} (h : Sound d ok v n) (hn : n < v.nodes.size)
    (hs : Shape v (v.modifyNode n f))
    (hch : ∀ c ∈ (f (v.node n)).children, c < v.nodes.size ∧ (v.node c).parent = some n)
    (hst : StatAgrees d (v.path n) (v.node n).name (f (v.node n)).stat)
    (hnum : (f (v.node n)).memo.Numbered)
    (hnotes : ∀ k x, (f (v.node n)).memo.Kept k x → NoteAgrees d ok (v.names n) k x) :
    Sound d ok (v.modifyNode n f) n where
  top := by
    rw [hs.parent n hn]
    exact h.top
  parent := by
    rw [hs.parent n hn, hs.name n hn]
    exact h.parent
  children := by
    rw [node_modifyNode_self f hn, size_modifyNode]
    intro c hc
    exact ⟨(hch c hc).1, (hs.parent c (hch c hc).1).trans (hch c hc).2⟩
  stat := by
    rw [hs.path_eq hn, hs.name n hn, node_modifyNode_self f hn]
    exact hst
  numbered := by
    rw [node_modifyNode_self f hn]
    exact hnum
  notes := by
    rw [hs.names_eq hn, node_modifyNode_self f hn]
    exact hnotes

/-- A name that may be asked for below a place: if it is that of a source that a tree is trusted with, the
directory lists it. -/
def Askable (τ : Trust) (d : Disk) (ns : List String) (s : String) : Prop :=
  isSourceFile s = true → τ ns s → (∃ e, d.entry (pathOf ns) = .ok e ∧ e.item.kind = .dir) →
    s ∈ d.names (pathOf ns)

/-- A tree that is trusted with more is trusted with less. -/
theorem Coherent.mono (h : Coherent τ d ok v) (hτ : ∀ ns s, τ' ns s → τ ns s) : Coherent τ' d ok v :=
  ⟨h.root, h.sound, fun n hn info hi hd s hs ht => h.listed n hn info hi hd s hs (hτ _ _ ht)⟩

theorem Coherent.root_lt (h : Coherent τ d ok v) : rootId < v.nodes.size := h.root.1

/-- A node that stands for names. -/
structure Stands (v : Vfs κ ν ρ) (n : NodeId) (ns : List String) : Prop where
  lt : n < v.nodes.size
  names : v.names n = ns

theorem Stands.path_eq {ns : List String} (h : Stands v n ns) : v.path n = pathOf ns := by
  rw [path_eq_pathOf, h.names]

theorem Stands.shape {ns : List String} (h : Stands v n ns) (hs : Shape v v') : Stands v' n ns :=
  ⟨Nat.lt_of_lt_of_le h.lt hs.size_le, (hs.names_eq h.lt).trans h.names⟩

theorem Coherent.stands_root (h : Coherent τ d ok v) : Stands v rootId [] := by
  refine ⟨h.root_lt, ?_⟩
  rw [names_step, h.root.2.1, h.root.2.2]
  simp

theorem Coherent.stands_child {ns : List String} {s : String} (h : Coherent τ d ok v) (hn : Stands v n ns)
    (hc : c ∈ (v.node n).children) (hname : (v.node c).name = s) (hs : s ≠ "") : Stands v c (ns ++ [s]) := by
  obtain ⟨hlt, hp⟩ := (h.sound n hn.lt).children c hc
  exact ⟨hlt, by rw [names_child hp ((h.sound c hlt).parent n hp).1 hname hs, hn.names]⟩

theorem child?_eq_some {s : String} (h : v.child? n s = some c) :
    c ∈ (v.node n).children ∧ (v.node c).name = s :=
  ⟨List.mem_of_find?_eq_some h, by simpa using List.find?_some h⟩

theorem not_mem_childNames {s : String} (h : v.child? n s = none) : s ∉ v.childNames n := by
  intro hs
  obtain ⟨c, hc, rfl⟩ := List.mem_map.mp hs
  simpa using List.find?_eq_none.mp h c hc

theorem appendChild_snd (v : Vfs κ ν ρ) (n : NodeId) (s : String) (kind : Option FileKind) :
    (v.appendChild n s kind).2 = (v.makeNode n s kind).2.modifyNode n
      fun nd => { nd with children := nd.children ++ [v.nodes.size] } :=
  rfl

section AppendChild

variable {ns : List String} {s : String} (kind : Option FileKind)

theorem node_appendChild (hn : n < v.nodes.size) (hm : m < v.nodes.size) :
    (v.appendChild n s kind).2.node m =
      if n = m then { v.node n with children := (v.node n).children ++ [v.nodes.size] } else v.node m := by
  rw [appendChild_snd, node_modifyNode, node_makeNode, if_neg (Nat.ne_of_lt hm), size_makeNode]
  by_cases hnm : n = m
  · subst hnm
    simp [Nat.lt_succ_of_lt hn]
  · simp [hnm]

theorem Frame.appendChild (v : Vfs κ ν ρ) (n : NodeId) (s : String) (kind : Option FileKind) :
    Frame v (v.appendChild n s kind).2 := by
  rw [appendChild_snd]
  exact (Frame.makeNode v n s kind).trans (.modifyNode rfl rfl rfl)

theorem Coherent.appendChild (h : Coherent τ d ok v) (hn : Stands v n ns) (hs : s ≠ "")
    (hask : Askable τ d ns s) (hnew : v.child? n s = none) :
    Coherent τ d ok (v.appendChild n s kind).2 ∧ Stands (v.appendChild n s kind).2 v.nodes.size (ns ++ [s]) := by
  have hframe := Frame.appendChild v n s kind
  have hmade := Frame.makeNode v n s kind
  have hsize : (v.appendChild n s kind).2.nodes.size = v.nodes.size + 1 := by simp [appendChild_snd]
  have hself : (v.makeNode n s kind).2.node n = v.node n := by
    rw [node_makeNode, if_neg (Nat.ne_of_lt hn.lt)]
  have hchild : (v.makeNode n s kind).2.node v.nodes.size = { parent := some n, name := s, kind } := by
    rw [node_makeNode, if_pos rfl]
  have hchild' : (v.appendChild n s kind).2.node v.nodes.size = { parent := some n, name := s, kind } := by
    rw [appendChild_snd, node_modifyNode_of_ne _ (Nat.ne_of_gt hn.lt), hchild]
  have hsound : ∀ m < (v.appendChild n s kind).2.nodes.size, Sound d ok (v.appendChild n s kind).2 m := by
    rw [appendChild_snd]
    refine Sound.modifyNode (Sound.makeNode h.sound hn.lt hs kind) (.modifyNode rfl rfl) fun hlt => ?_
    have hmn := Sound.makeNode h.sound hn.lt hs kind n hlt
    refine hmn.change hlt (.modifyNode rfl rfl) ?_ hmn.stat hmn.numbered hmn.notes
    rw [hself]
    intro c hc
    rcases List.mem_append.mp hc with hc | hc
    · obtain ⟨hclt, hp⟩ := (h.sound n hn.lt).children c hc
      exact ⟨Nat.lt_of_lt_of_le hclt hmade.size_le, (hmade.parent c hclt).trans hp⟩
    · obtain rfl := List.mem_singleton.mp hc
      rw [hchild]
      simp
  refine ⟨⟨?_, hsound, ?_⟩, ?_⟩
  · exact ⟨by omega, (hframe.parent _ h.root_lt).trans h.root.2.1, (hframe.name _ h.root_lt).trans h.root.2.2⟩
  · intro m hm
    by_cases hold : m < v.nodes.size
    · by_cases hmn : m = n
      · subst hmn
        intro info hi hd t ht hτ
        rw [node_appendChild kind hn.lt hn.lt, if_pos rfl] at hi
        rw [hframe.names_eq hn.lt] at hτ
        have hlist := h.listed m hn.lt info hi hd t ht hτ
        obtain ⟨e, he, rfl⟩ : ∃ e, d.entry (v.path m) = .ok e ∧ info = infoOf (v.node m).name e := by
          have := (h.sound m hn.lt).stat
          rwa [hi] at this
        have hts : t ≠ s := by
          rintro rfl
          refine not_mem_childNames hnew (hlist.mpr ?_)
          rw [hn.path_eq] at he ⊢
          exact hask ht (hn.names ▸ hτ) ⟨e, he, hd⟩
        have hnames : (v.appendChild m s kind).2.childNames m = v.childNames m ++ [s] := by
          rw [childNames, node_appendChild kind hn.lt hn.lt, if_pos rfl, List.map_append, List.map_singleton, hchild']
          congr 1
          exact List.map_congr_left fun c hc => hframe.name c ((h.sound m hn.lt).children c hc).1
        rw [hnames, hframe.path_eq hn.lt, List.mem_append, List.mem_singleton]
        simpa [hts] using hlist
      · have hnode : (v.appendChild n s kind).2.node m = v.node m := by
          rw [node_appendChild kind hn.lt hold, if_neg (Ne.symm hmn)]
        exact (h.listed m hold).transfer (h.sound m hold) hframe.toShape hold (by rw [hnode]) (by rw [hnode])
    · have hnew : m = v.nodes.size := by omega
      intro info hi
      rw [hnew, hchild'] at hi
      cases hi
  · refine ⟨by rw [hsize]; exact Nat.lt_succ_self _, ?_⟩
    rw [names_child (s := s) (by rw [hchild']) hn.lt (by rw [hchild']) hs, hframe.names_eq hn.lt, hn.names]

end AppendChild

/-! ## Listing a directory -/

/-- Nodes were made and nothing else was done. -/
structure Added (v v' : Vfs κ ν ρ) : Prop extends Frame v v' where
  old : ∀ m < v.nodes.size, v'.node m = v.node m
  fresh : ∀ m, v.nodes.size ≤ m → (v'.node m).stat = .unknown

theorem stat_of_size_le (h : v.nodes.size ≤ m) : (v.node m).stat = .unknown := by
  rw [node, Array.getD_eq_getD_getElem?, Array.getElem?_eq_none h]
  rfl

theorem Added.refl (v : Vfs κ ν ρ) : Added v v := ⟨.refl v, fun _ _ => rfl, fun _ => stat_of_size_le⟩

theorem Added.trans (h : Added v v') (h' : Added v' v'') : Added v v'' where
  toFrame := h.toFrame.trans h'.toFrame
  old m hm := (h'.old m (Nat.lt_of_lt_of_le hm h.size_le)).trans (h.old m hm)
  fresh m hm := by
    by_cases hlt : m < v'.nodes.size
    · rw [h'.old m hlt]
      exact h.fresh m hm
    · exact h'.fresh m (Nat.le_of_not_lt hlt)

theorem Added.makeNode (v : Vfs κ ν ρ) (n : NodeId) (s : String) (kind : Option FileKind) :
    Added v (v.makeNode n s kind).2 where
  toFrame := .makeNode v n s kind
  old m hm := by rw [node_makeNode, if_neg (Nat.ne_of_lt hm)]
  fresh m hm := by
    rw [node_makeNode]
    split
    · rfl
    · exact stat_of_size_le hm

/-- The nodes for a listing are children of the directory and have the names in it. -/
theorem nodesFor_spec {old : List NodeId} (entries : List (String × FileKind))
    (hne : ∀ e ∈ entries, e.1 ≠ "") (h : ∀ m < v.nodes.size, Sound d ok v m) (hn : n < v.nodes.size)
    (hold : ∀ c ∈ old, c < v.nodes.size ∧ (v.node c).parent = some n) :
    Added v (v.nodesFor n old entries).2 ∧
      (∀ m < (v.nodesFor n old entries).2.nodes.size, Sound d ok (v.nodesFor n old entries).2 m) ∧
      (∀ c ∈ (v.nodesFor n old entries).1, c < (v.nodesFor n old entries).2.nodes.size ∧
        ((v.nodesFor n old entries).2.node c).parent = some n) ∧
      (v.nodesFor n old entries).1.map (fun c => ((v.nodesFor n old entries).2.node c).name) =
        entries.map (·.1) := by
  induction entries generalizing v with
  | nil => exact ⟨.refl v, h, by simp [nodesFor], by simp [nodesFor]⟩
  | cons e rest ih =>
    obtain ⟨name, kind⟩ := e
    -- The node for the first entry, old or new, and the tree after it.
    obtain ⟨c, v₁, heq, hadd, hsound, hc, hp, hname⟩ : ∃ c v₁,
        v.nodesFor n old ((name, kind) :: rest) =
          (c :: (v₁.nodesFor n old rest).1, (v₁.nodesFor n old rest).2) ∧
        Added v v₁ ∧ (∀ m < v₁.nodes.size, Sound d ok v₁ m) ∧ c < v₁.nodes.size ∧
        (v₁.node c).parent = some n ∧ (v₁.node c).name = name := by
      cases hfind : old.find? fun c => (v.node c).name = name && v.compatible c kind with
      | some c =>
        have hcn : (v.node c).name = name := by
          have := List.find?_some hfind
          simp only [Bool.and_eq_true, decide_eq_true_eq] at this
          exact this.1
        obtain ⟨hlt, hp⟩ := hold c (List.mem_of_find?_eq_some hfind)
        refine ⟨c, v, ?_, .refl v, h, hlt, hp, hcn⟩
        rw [nodesFor, hfind]
      | none =>
        refine ⟨v.nodes.size, (v.makeNode n name (some kind)).2, ?_, .makeNode v n name _,
          Sound.makeNode h hn (hne _ List.mem_cons_self) _, by simp, ?_, ?_⟩
        · rw [nodesFor, hfind]
          rfl
        · rw [node_makeNode, if_pos rfl]
        · rw [node_makeNode, if_pos rfl]
    obtain ⟨hadd', hsound', hcs, hnames⟩ :=
      ih (fun x hx => hne x (List.mem_cons_of_mem _ hx)) hsound (Nat.lt_of_lt_of_le hn hadd.size_le) fun x hx =>
      ⟨Nat.lt_of_lt_of_le (hold x hx).1 hadd.size_le, (hadd.parent x (hold x hx).1).trans (hold x hx).2⟩
    rw [heq]
    refine ⟨hadd.trans hadd', hsound', ?_, ?_⟩
    · intro x hx
      rcases List.mem_cons.mp hx with rfl | hx
      · exact ⟨Nat.lt_of_lt_of_le hc hadd'.size_le, (hadd'.parent x hc).trans hp⟩
      · exact hcs x hx
    · rw [List.map_cons, hnames, hadd'.name c hc, hname]
      rfl

theorem syncChildren_eq (v : Vfs κ ν ρ) (n : NodeId) (entries : List (String × FileKind)) :
    v.syncChildren n entries = (v.nodesFor n (v.node n).children entries).2.modifyNode n
      fun nd => { nd with children := (v.nodesFor n (v.node n).children entries).1 } :=
  rfl

/-- A directory was listed: it has the names in the listing, and the other nodes have the children they had. -/
structure Synced (v v' : Vfs κ ν ρ) (n : NodeId) (names : List String) : Prop extends Frame v v' where
  names : v'.childNames n = names
  stat : ∀ m < v.nodes.size, (v'.node m).stat = (v.node m).stat
  children : ∀ m < v.nodes.size, m ≠ n → (v'.node m).children = (v.node m).children
  fresh : ∀ m, v.nodes.size ≤ m → (v'.node m).stat = .unknown

theorem synced_syncChildren {entries : List (String × FileKind)} (hne : ∀ e ∈ entries, e.1 ≠ "")
    (h : ∀ m < v.nodes.size, Sound d ok v m)
    (hn : n < v.nodes.size) :
    Synced v (v.syncChildren n entries) n (entries.map (·.1)) ∧
      ∀ m < (v.syncChildren n entries).nodes.size, Sound d ok (v.syncChildren n entries) m := by
  obtain ⟨hadd, hsound, hcs, hnames⟩ := nodesFor_spec entries hne h hn (h n hn).children
  have hlt : n < (v.nodesFor n (v.node n).children entries).2.nodes.size := Nat.lt_of_lt_of_le hn hadd.size_le
  have hs : Frame (v.nodesFor n (v.node n).children entries).2 (v.syncChildren n entries) :=
    .modifyNode rfl rfl rfl
  refine ⟨⟨hadd.toFrame.trans hs, ?_, ?_, ?_, ?_⟩, ?_⟩
  · rw [childNames, syncChildren_eq, node_modifyNode_self _ hlt, ← hnames]
    exact List.map_congr_left fun c hc => hs.name c (hcs c hc).1
  · intro m hm
    rw [syncChildren_eq, node_modifyNode, ← hadd.old m hm]
    split <;> rfl
  · intro m hm hmn
    rw [syncChildren_eq, node_modifyNode_of_ne _ hmn, hadd.old m hm]
  · intro m hm
    have hmn : m ≠ n := fun e => Nat.not_lt_of_le hm (e ▸ hn)
    rw [syncChildren_eq, node_modifyNode_of_ne _ hmn, hadd.fresh m hm]
  · have hself := hsound n hlt
    exact Sound.modifyNode hsound hs.toShape fun _ =>
      hself.change hlt hs.toShape hcs hself.stat hself.numbered hself.notes

/-! ## Looking at the disk -/

theorem list_of_entry_dir {path : String} {e : DiskEntry} (h : d.entry path = .ok e) (hd : e.item.kind = .dir) :
    ∃ entries, d.list path = .ok entries := by
  rw [Disk.entry] at h
  rw [Disk.list]
  split at h
  · cases h
  · next l hl =>
    split at h
    · next e' he =>
      cases h
      obtain ⟨item, modified⟩ := e
      cases item <;> cases hd
      simp [he]
    · cases h

theorem Coherent.of_shape (h : Coherent τ d ok v) (hf : Shape v v')
    (hsound : ∀ m < v'.nodes.size, Sound d ok v' m) (hlisted : ∀ m < v'.nodes.size, Listed τ d v' m) :
    Coherent τ d ok v' :=
  ⟨⟨Nat.lt_of_lt_of_le h.root_lt hf.size_le, (hf.parent _ h.root_lt).trans h.root.2.1,
    (hf.name _ h.root_lt).trans h.root.2.2⟩, hsound, hlisted⟩

/-- Only the nodes matter. -/
theorem Coherent.of_nodes (h : Coherent τ d ok v) (hv : v'.nodes = v.nodes) : Coherent τ d ok v' := by
  have hnode : ∀ m, v'.node m = v.node m := fun m => by rw [node, node, hv]
  have hsize : v'.nodes.size = v.nodes.size := by rw [hv]
  have hshape : Shape v v' := ⟨Nat.le_of_eq hsize.symm, fun m _ => by rw [hnode], fun m _ => by rw [hnode]⟩
  refine h.of_shape hshape (fun m hm => ?_) fun m hm => ?_
  all_goals rw [hsize] at hm
  · exact (h.sound m hm).transfer hshape hm (hnode m)
  · exact (h.listed m hm).transfer (h.sound m hm) hshape hm (by rw [hnode]) (by rw [hnode])

/-- Changing a node, but neither its place nor its memo, keeps a tree coherent if the node stays sound and
lists what it should. -/
theorem Coherent.modifyNode {f : Node κ ν → Node κ ν} (h : Coherent τ d ok v) (hn : n < v.nodes.size)
    (hf : Frame v (v.modifyNode n f))
    (hch : ∀ c ∈ (f (v.node n)).children, c ∈ (v.node n).children)
    (hst : StatAgrees d (v.path n) (v.node n).name (f (v.node n)).stat)
    (hm : (f (v.node n)).memo = (v.node n).memo) (hlisted : Listed τ d (v.modifyNode n f) n) :
    Coherent τ d ok (v.modifyNode n f) := by
  have hself := h.sound n hn
  refine h.of_shape hf.toShape (Sound.modifyNode h.sound hf.toShape fun _ => ?_) ?_
  · exact hself.change hn hf.toShape (fun c hc => hself.children c (hch c hc)) hst (hm ▸ hself.numbered)
      (hm ▸ hself.notes)
  · intro m hlt
    rw [size_modifyNode] at hlt
    by_cases hmn : m = n
    · rw [hmn]
      exact hlisted
    · have hnode := node_modifyNode_of_ne (v := v) f hmn
      exact (h.listed m hlt).transfer (h.sound m hlt) hf.toShape hlt (by rw [hnode]) (by rw [hnode])

/-- What was not seen on the disk is forgotten, and nothing was noted at it. -/
theorem observeMissing_eq {name : String} (hstat : StatAgrees d (v.path n) name (v.node n).stat)
    (he : ∀ e, d.entry (v.path n) ≠ .ok e) :
    observeMissing n v = v.modifyNode n fun nd =>
      { nd with kind := none, stat := .missing, fresh := v.expiry = .never,
                children := if v.isRoot n then nd.children else [] } := by
  rw [observeMissing]
  cases hs : (v.node n).stat with
  | found info =>
    rw [hs] at hstat
    obtain ⟨e, h', -⟩ := hstat
    exact absurd h' (he e)
  | unknown => simp
  | missing => simp

theorem coherent_observeMissing (h : Coherent τ d ok v) (hn : n < v.nodes.size)
    (he : ∀ e, d.entry (v.path n) ≠ .ok e) :
    Coherent τ d ok (observeMissing n v) ∧ Frame v (observeMissing n v) ∧
      ((observeMissing n v).node n).stat = .missing := by
  have heq := observeMissing_eq (h.sound n hn).stat he
  have hnode : ((observeMissing n v).node n).stat = .missing := by rw [heq, node_modifyNode_self _ hn]
  have hframe : Frame v (observeMissing n v) := by
    rw [heq]
    exact .modifyNode rfl rfl rfl
  refine ⟨?_, hframe, hnode⟩
  rw [heq] at hframe hnode ⊢
  refine h.modifyNode hn hframe ?_ he rfl ?_
  · intro c hc
    split at hc
    · exact hc
    · cases hc
  · intro info hi
    rw [hnode] at hi
    cases hi

/-- A node at which something was found. -/
def Node.found (nd : Node κ ν) (info : FileInfo) (expiry : Expiry) : Node κ ν :=
  { nd with kind := some info.kind, stat := .found info, fresh := expiry = .never }

section ObserveFound

variable {info : FileInfo}

theorem observeFound_again (hs : (v.node n).stat = .found info) :
    observeFound d n info v = v.modifyNode n (Node.found · info v.expiry) := by
  simp [observeFound, Stat.change, hs, Node.found]

theorem observeFound_file (hs : (v.node n).stat = .unknown) (hd : info.kind ≠ .dir) :
    observeFound d n info v = v.modifyNode n (Node.found · info v.expiry) := by
  simp [observeFound, Stat.change, hs, Node.found, hd]

theorem observeFound_dir (hs : (v.node n).stat = .unknown) (hd : info.kind = .dir) :
    observeFound d n info v = rescan d n (v.modifyNode n (Node.found · info v.expiry)) := by
  simp [observeFound, Stat.change, hs, Node.found, hd]

/-- A directory that is looked at for the first time lists what is on the disk. -/
theorem Coherent.synced_rescan {e : DiskEntry} (hp : d.Named) (h : Coherent τ d ok v) (hn : n < v.nodes.size)
    (he : d.entry (v.path n) = .ok e) (hi : infoOf (v.node n).name e = info) (hd : info.kind = .dir) :
    let v₁ := v.modifyNode n (Node.found · info v.expiry)
    Synced v₁ (Vfs.rescan d n v₁) n (d.names (v.path n)) ∧
      ∀ m < (Vfs.rescan d n v₁).nodes.size, Sound d ok (Vfs.rescan d n v₁) m := by
  intro v₁
  have hframe : Frame v v₁ := .modifyNode rfl rfl rfl
  have hn₁ : n < v₁.nodes.size := by simpa [v₁] using hn
  obtain ⟨entries, hl⟩ := list_of_entry_dir he (by rw [← hd, ← hi]; rfl)
  have heq : Vfs.rescan d n v₁ = v₁.syncChildren n entries := by
    rw [Vfs.rescan, hframe.path_eq hn, hl]
  have hnames : d.names (v.path n) = entries.map (·.1) := by rw [Disk.names, hl]
  have hsound : ∀ m < v₁.nodes.size, Sound d ok v₁ m := Sound.modifyNode h.sound hframe.toShape fun _ =>
    (h.sound n hn).change hn hframe.toShape (h.sound n hn).children ⟨e, he, hi.symm⟩
      (h.sound n hn).numbered (h.sound n hn).notes
  have hne : ∀ x ∈ entries, x.1 ≠ "" := by
    intro x hx
    have hmem : x.1 ∈ d.names (v.path n) := hnames ▸ List.mem_map_of_mem hx
    obtain ⟨e, he, hs⟩ := Disk.exists_entry_of_mem_names hmem
    exact hp e he x.1 hs
  rw [heq, hnames]
  exact synced_syncChildren hne hsound hn₁

theorem Coherent.rescan {e : DiskEntry} (hp : d.Named) (h : Coherent τ d ok v) (hn : n < v.nodes.size)
    (he : d.entry (v.path n) = .ok e) (hi : infoOf (v.node n).name e = info) (hd : info.kind = .dir) :
    let v₁ := v.modifyNode n (Node.found · info v.expiry)
    Coherent τ d ok (Vfs.rescan d n v₁) ∧ Frame v (Vfs.rescan d n v₁) ∧
      ((Vfs.rescan d n v₁).node n).stat = .found info := by
  intro v₁
  have hframe : Frame v v₁ := .modifyNode rfl rfl rfl
  have hsize : v₁.nodes.size = v.nodes.size := size_modifyNode v n _
  have hself : v₁.node n = Node.found (v.node n) info v.expiry := node_modifyNode_self _ hn
  obtain ⟨hsync, hsound'⟩ := h.synced_rescan hp hn he hi hd
  have hall := hframe.trans hsync.toFrame
  have hfound : ((Vfs.rescan d n v₁).node n).stat = .found info := by
    rw [hsync.stat n (hsize ▸ hn), hself]
    rfl
  refine ⟨h.of_shape hall.toShape hsound' ?_, hall, hfound⟩
  intro m hm
  by_cases hmn : m = n
  · intro _ _ _ s _ _
    rw [hmn, hsync.names, hall.path_eq hn]
  · have hnode := node_modifyNode_of_ne (v := v) (Node.found · info v.expiry) hmn
    by_cases hlt : m < v.nodes.size
    · refine (h.listed m hlt).transfer (h.sound m hlt) hall.toShape hlt ?_ ?_
      · rw [hsync.stat m (hsize ▸ hlt), hnode]
      · rw [hsync.children m (hsize ▸ hlt) hmn, hnode]
    · intro _ hi
      rw [hsync.fresh m (hsize ▸ Nat.le_of_not_lt hlt)] at hi
      cases hi

theorem coherent_observeFound {e : DiskEntry} (hp : d.Named) (h : Coherent τ d ok v) (hn : n < v.nodes.size)
    (he : d.entry (v.path n) = .ok e) (hi : infoOf (v.node n).name e = info) :
    Coherent τ d ok (observeFound d n info v) ∧ Frame v (observeFound d n info v) ∧
      ((observeFound d n info v).node n).stat = .found info := by
  have hstat := (h.sound n hn).stat
  have hframe : Frame v (v.modifyNode n (Node.found · info v.expiry)) := .modifyNode rfl rfl rfl
  have hself : (v.modifyNode n (Node.found · info v.expiry)).node n = Node.found (v.node n) info v.expiry :=
    node_modifyNode_self _ hn
  have hagrees : StatAgrees d (v.path n) (v.node n).name (.found info) := ⟨e, he, hi.symm⟩
  cases hs : (v.node n).stat with
  | missing =>
    rw [hs] at hstat
    exact absurd he (hstat e)
  | found old =>
    -- The disk says what it said before.
    have hold : old = info := by
      rw [hs] at hstat
      obtain ⟨e', he', rfl⟩ := hstat
      rw [← hi, Except.ok.inj (he'.symm.trans he)]
    rw [observeFound_again (hold ▸ hs)]
    refine ⟨h.modifyNode hn hframe (fun c hc => hc) hagrees rfl ?_, hframe, by rw [hself]; rfl⟩
    refine (h.listed n hn).transfer (h.sound n hn) hframe.toShape hn ?_ (by rw [hself]; rfl)
    rw [hself, hs, hold]
    rfl
  | unknown =>
    by_cases hd : info.kind = .dir
    · rw [observeFound_dir hs hd]
      exact h.rescan hp hn he hi hd
    · rw [observeFound_file hs hd]
      refine ⟨h.modifyNode hn hframe (fun c hc => hc) hagrees rfl ?_, hframe, by rw [hself]; rfl⟩
      intro info' hi' hd'
      rw [hself] at hi'
      cases hi'
      exact absurd hd' hd

end ObserveFound

end Vfs
end EditorAgent

import EditorAgent.Proofs.Disk.Following
import EditorAgent.Proofs.Vfs.Noting
import EditorAgent.Proofs.Vfs.Rooted

/-!
# What was seen of a tree

While calls are made and disks change, a log notes what was last reported of each node, and of what kind its entry
was when it was last listed or looked at. No node is known to be of another kind than that, unless its entry is a link
and was followed.
-/

namespace EditorAgent

/-- The kind of the entry of a name. -/
def listedKind (entries : List (String × FileKind)) (name : String) : Option FileKind :=
  (entries.find? (·.1 = name)).map (·.2)

theorem mem_of_listedKind {entries : List (String × FileKind)} {name : String} {kind : FileKind}
    (h : listedKind entries name = some kind) : (name, kind) ∈ entries := by
  obtain ⟨e, he, rfl⟩ := Option.map_eq_some_iff.mp h
  have hname : e.1 = name := by simpa using List.find?_some he
  exact hname ▸ List.mem_of_find?_eq_some he

/-- The entries of a directory, as far as they can be listed. -/
def Disk.listing (d : Disk) (dir : String) : List (String × FileKind) :=
  match d.list dir with
  | .ok entries => entries
  | .error _ => []

theorem Disk.list_of_mem_listing {d : Disk} {dir : String} {x : String × FileKind} (h : x ∈ d.listing dir) :
    d.list dir = .ok (d.listing dir) := by
  unfold listing at h ⊢
  split at h
  · next entries hl => rw [hl]
  · cases h

/-- The kind by which a directory lists a name. -/
def Disk.entryKind (d : Disk) (dir name : String) : Option FileKind := listedKind (d.listing dir) name

theorem Disk.list_of_entryKind {d : Disk} {dir name : String} {kind : FileKind}
    (h : d.entryKind dir name = some kind) : d.list dir = .ok (d.listing dir) ∧ (name, kind) ∈ d.listing dir :=
  have hmem := mem_of_listedKind h
  ⟨list_of_mem_listing hmem, hmem⟩

/-- No directory of a real disk lists a name twice. -/
theorem Disk.Real.lists {d : Disk} (h : d.Real) : d.Lists fun _ => True := by
  intro path entries hl
  have hnames : d.names path = entries.map (·.1) := by rw [names, hl]
  exact ⟨fun _ _ => trivial, hnames ▸ nodup_names h.keys path⟩

theorem Disk.Real.nodup_listing {d : Disk} (h : d.Real) (dir : String) : ((d.listing dir).map (·.1)).Nodup := by
  unfold listing
  split
  · next entries hl => exact (h.lists dir entries hl).2
  · exact List.nodup_nil

namespace Vfs

variable {κ ν ρ α : Type} {v v' : Vfs κ ν ρ} {n m c : NodeId} {s : String} {d : Disk} {e : DiskEntry}
  {P : String → Prop}

/-! ## The log -/

/-- The kind of a node's own entry, in the directory of its parent. -/
def ownEntry (d : Disk) (v : Vfs κ ν ρ) (n : NodeId) : Option FileKind :=
  match (v.node n).parent with
  | some p => d.entryKind (v.path p) (v.node n).name
  | none => none

/-- Whether a stat is answered without a look at the disk. -/
def served (v : Vfs κ ν ρ) (n : NodeId) : Bool := (v.node n).fresh && (v.node n).stat != .unknown

structure Log where
  /-- What was last reported of a node. -/
  reported : NodeId → Option FileInfo
  /-- The kind of a node's entry when the node was last listed or looked at, if the entry was there. -/
  entry : NodeId → Option FileKind

namespace Log

def blank : Log := ⟨fun _ => none, fun _ => none⟩

/-- A node was looked at. -/
def look (L : Log) (d : Disk) (v : Vfs κ ν ρ) (n : NodeId) : Log where
  reported m := if m = n then match d.entry (v.path n) with
    | .ok e => some (infoOf (v.node n).name e)
    | .error _ => L.reported n
    else L.reported m
  entry m := if m = n then ownEntry d v n else L.entry m

theorem reported_look (L : Log) (d : Disk) (v : Vfs κ ν ρ) (n m : NodeId) :
    (L.look d v n).reported m = if m = n then match d.entry (v.path n) with
      | .ok e => some (infoOf (v.node n).name e)
      | .error _ => L.reported n
      else L.reported m := rfl

theorem entry_look (L : Log) (d : Disk) (v : Vfs κ ν ρ) (n m : NodeId) :
    (L.look d v n).entry m = if m = n then ownEntry d v n else L.entry m := rfl

/-- The children that a node has were listed. -/
def list (L : Log) (v : Vfs κ ν ρ) (n : NodeId) (entries : List (String × FileKind)) : Log :=
  { L with entry := fun c => if c ∈ (v.node n).children then listedKind entries (v.node c).name else L.entry c }

theorem entry_list (L : Log) (v : Vfs κ ν ρ) (n : NodeId) (entries : List (String × FileKind)) (c : NodeId) :
    (L.list v n entries).entry c =
      if c ∈ (v.node n).children then listedKind entries (v.node c).name else L.entry c := rfl

/-- A stat was asked for. -/
def stat (L : Log) (d : Disk) (v : Vfs κ ν ρ) (n : NodeId) : Log :=
  if v.served n then L
  else match d.entry (v.path n), d.list (v.path n) with
    | .ok e, .ok entries =>
      if (Stat.change (v.node n).stat (infoOf (v.node n).name e)).changed && e.item.kind = .dir then
        (L.look d v n).list (Vfs.stat d n v).2 n entries
      else L.look d v n
    | _, _ => L.look d v n

end Log

/-! ## Stats -/

theorem stat_of_served (h : v.served n = true) : (stat d n v).2 = v := by
  rw [served, Bool.and_eq_true] at h
  obtain ⟨hfresh, hstat⟩ := h
  cases hs : (v.node n).stat with
  | unknown => simp [hs] at hstat
  | found info => simp [stat, hfresh, hs]
  | missing => simp [stat, hfresh, hs]

/-- What is served is what was found before. -/
theorem found_of_served {info : FileInfo} (h : v.served n = true) (hinfo : (stat d n v).1 = .ok info) :
    (v.node n).stat = .found info := by
  rw [served, Bool.and_eq_true] at h
  obtain ⟨hfresh, hstat⟩ := h
  cases hs : (v.node n).stat with
  | unknown => simp [hs] at hstat
  | found old =>
    simp only [stat, hfresh, hs] at hinfo
    rw [Except.ok.inj hinfo]
  | missing => simp [stat, hfresh, hs] at hinfo

theorem stat_of_not_served (h : v.served n = false) : stat d n v = sync d n v := by
  rw [served, Bool.and_eq_false_iff] at h
  rcases h with hfresh | hstat
  · simp [stat, hfresh]
  · have hs : (v.node n).stat = .unknown := by simpa using hstat
    cases hf : (v.node n).fresh <;> simp [stat, hs, hf]

theorem stat_of_error {cause : DiskError} (hs : v.served n = false) (he : d.entry (v.path n) = .error cause) :
    stat d n v = (.error (if cause = .notFound then .notExist (v.path n) else .disk cause), observeMissing n v) := by
  rw [stat_of_not_served hs, sync, he]

theorem stat_of_entry (hs : v.served n = false) (he : d.entry (v.path n) = .ok e) :
    stat d n v = (.ok (infoOf (v.node n).name e), observeFound d n (infoOf (v.node n).name e) v) := by
  rw [stat_of_not_served hs, sync, he]
  rfl

theorem exists_entry_of_stat {info : FileInfo} (hs : v.served n = false) (hinfo : (stat d n v).1 = .ok info) :
    ∃ e, d.entry (v.path n) = .ok e ∧ infoOf (v.node n).name e = info := by
  cases he : d.entry (v.path n) with
  | error cause =>
    rw [stat_of_error hs he] at hinfo
    cases hinfo
  | ok e =>
    rw [stat_of_entry hs he] at hinfo
    exact ⟨e, rfl, Except.ok.inj hinfo⟩

/-- A stat that finds something notes it, and lists a directory that has changed. -/
theorem stat_cases (hlinked : v.Linked P) (hn : n < v.nodes.size) (hs : v.served n = false)
    (he : d.entry (v.path n) = .ok e) (L : Log) :
    (∃ entries, d.list (v.path n) = .ok entries ∧ e.item.kind = .dir ∧
      (stat d n v).2 = (noted n (infoOf (v.node n).name e) v).syncChildren n entries ∧
      L.stat d v n = (L.look d v n).list (stat d n v).2 n entries) ∨
    ((Stat.change (v.node n).stat (infoOf (v.node n).name e)).changed && e.item.kind = .dir) = false ∧
      (stat d n v).2 = noted n (infoOf (v.node n).name e) v ∧ L.stat d v n = L.look d v n := by
  have hstat := congrArg Prod.snd (stat_of_entry hs he)
  rw [observeFound_eq hn] at hstat
  have hkind : (infoOf (v.node n).name e).kind = e.item.kind := rfl
  rw [hkind] at hstat
  cases hlisted : (Stat.change (v.node n).stat (infoOf (v.node n).name e)).changed && e.item.kind = .dir with
  | false =>
    rw [hlisted, if_neg Bool.false_ne_true] at hstat
    refine .inr ⟨rfl, hstat, ?_⟩
    rw [Log.stat, hs, if_neg Bool.false_ne_true, he]
    cases d.list (v.path n) with
    | error cause => rfl
    | ok entries =>
      dsimp only
      rw [hlisted, if_neg Bool.false_ne_true]
  | true =>
    have hdir : e.item.kind = .dir := of_decide_eq_true (Bool.and_eq_true_iff.mp hlisted).2
    obtain ⟨entries, hl⟩ := list_of_entry_dir he hdir
    rw [hlisted, if_pos rfl, rescan, (shape_noted hn (hlinked.parent_ne hn)).path_eq hn, hl] at hstat
    refine .inl ⟨entries, hl, hdir, hstat, ?_⟩
    rw [Log.stat, hs, if_neg Bool.false_ne_true, he, hl]
    dsimp only
    rw [hlisted, if_pos rfl]

/-- A node that was looked at. -/
def looked (d : Disk) (n : NodeId) (v : Vfs κ ν ρ) : Node κ ν :=
  match d.entry (v.path n) with
  | .ok e => Node.found (v.node n) (infoOf (v.node n).name e) v.expiry
  | .error _ => Node.lost (v.node n) v.expiry (v.isRoot n)

/-- Whether the memo of a node is dropped when another is looked at, or itself. -/
def drops (d : Disk) (n : NodeId) (v : Vfs κ ν ρ) (m : NodeId) : Bool :=
  match d.entry (v.path n) with
  | .ok e => v.forgets n (infoOf (v.node n).name e) m
  | .error _ => m = n && Node.existed (v.node n)

/-- A memo is kept only if what was found before is found again. -/
theorem entry_of_not_drops {info : FileInfo} (hfound : (v.node n).stat = .found info) (hkept : drops d n v n = false) :
    ∃ e, d.entry (v.path n) = .ok e ∧ info.kind = e.item.kind ∧ info.modified = e.modified := by
  rw [drops] at hkept
  cases he : d.entry (v.path n) with
  | error cause =>
    rw [he] at hkept
    simp [Node.existed, hfound] at hkept
  | ok e =>
    rw [he] at hkept
    obtain ⟨hdate, hkind⟩ : info.modified = e.modified ∧ info.kind = e.item.kind := by
      simpa [forgets, differs, Stat.change, hfound, infoOf] using hkept
    exact ⟨e, rfl, hkind, hdate⟩

/-- A look sets what is known of the node, and may drop memos. -/
structure Look (d : Disk) (n : NodeId) (v v' : Vfs κ ν ρ) : Prop where
  expiry : v'.expiry = v.expiry
  size : v'.nodes.size = v.nodes.size
  node : ∀ m, v'.node m = Node.forget (if m = n then looked d n v else v.node m) (drops d n v m)

namespace Look

variable (h : Look d n v v')

include h

theorem stat (m : NodeId) : (v'.node m).stat = if m = n then (looked d n v).stat else (v.node m).stat := by
  rw [h.node, Node.forget]
  split <;> rfl

theorem fresh (m : NodeId) : (v'.node m).fresh = if m = n then decide (v.expiry = .never) else (v.node m).fresh := by
  rw [h.node, Node.forget, looked]
  cases d.entry (v.path n) <;> split <;> rfl

theorem memo (m : NodeId) :
    (v'.node m).memo = if drops d n v m then (v.node m).memo.clear.1 else (v.node m).memo := by
  have hmemo : (if m = n then looked d n v else v.node m).memo = (v.node m).memo := by
    split
    · next hmn =>
      rw [looked, hmn]
      cases d.entry (v.path n) <;> rfl
    · rfl
  rw [h.node, Node.forget, hmemo]

theorem shape : Shape v v' where
  size_le := Nat.le_of_eq h.size.symm
  parent m _ := by
    rw [h.node, Node.forget, looked]
    split
    · next hmn => cases d.entry (v.path n) <;> rw [hmn] <;> rfl
    · rfl
  name m _ := by
    rw [h.node, Node.forget, looked]
    split
    · next hmn => cases d.entry (v.path n) <;> rw [hmn] <;> rfl
    · rfl

end Look

/-- A stat that is not served is a look, and may list a directory. -/
theorem exists_look (hlinked : v.Linked P) (hn : n < v.nodes.size) (hs : v.served n = false) (d : Disk) :
    ∃ w : Vfs κ ν ρ, Look d n v w ∧ Relisted n w (stat d n v).2 := by
  cases he : d.entry (v.path n) with
  | error cause =>
    rw [stat_of_error hs he]
    refine ⟨_, ⟨expiry_observeMissing n v, size_observeMissing n v, fun m => ?_⟩, .refl ..⟩
    rw [node_observeMissing hn, looked, drops, he]
    by_cases hmn : m = n
    · simp only [hmn, if_true, decide_true, Bool.true_and]
    · simp only [hmn, if_false, decide_false, Bool.false_and, Node.forget_false]
  | ok e =>
    refine ⟨noted n (infoOf (v.node n).name e) v, ⟨expiry_noted .., size_noted .., fun m => ?_⟩, ?_⟩
    · rw [node_noted hn (hlinked.parent_ne hn), looked, drops, he]
    · rcases stat_cases hlinked hn hs he .blank with ⟨entries, -, -, htree, -⟩ | ⟨-, htree, -⟩ <;> rw [htree]
      · exact .syncChildren (hlinked.noted n _) n entries
      · exact .refl ..

/-- What a stat has found is known of the node. -/
theorem found_stat (hlinked : v.Linked P) (hn : n < v.nodes.size) (hs : v.served n = false)
    (he : d.entry (v.path n) = .ok e) : ((stat d n v).2.node n).stat = .found (infoOf (v.node n).name e) := by
  obtain ⟨w, hlook, hrel⟩ := exists_look hlinked hn hs d
  rw [hrel.stat_eq (hlook.size.symm ▸ hn), hlook.stat, if_pos rfl, looked, he]
  rfl

theorem path_stat (hn : n < v.nodes.size) (d : Disk) : (stat d n v).2.path n = v.path n :=
  (shape_of_later (looks_stat d n v)).path_eq hn

theorem Log.stat_of_error {L : Log} {cause : DiskError} (hs : v.served n = false)
    (he : d.entry (v.path n) = .error cause) : L.stat d v n = L.look d v n := by
  rw [stat, hs, if_neg Bool.false_ne_true, he]

theorem Log.reported_stat (L : Log) (hs : v.served n = false) (m : NodeId) :
    (L.stat d v n).reported m = (L.look d v n).reported m := by
  rw [stat, hs, if_neg Bool.false_ne_true]
  split
  · split <;> rfl
  · rfl

/-! ## Changes of which the disk has no part -/

/-- Nothing was looked at, and nothing was noted of a file itself. -/
structure Quiet (v v' : Vfs κ ν ρ) : Prop where
  shape : Shape v v'
  expiry : v'.expiry = v.expiry
  stat : ∀ m, (v'.node m).stat = (v.node m).stat
  kind : ∀ m < v.nodes.size, (v'.node m).kind = (v.node m).kind
  fresh : ∀ m, (v'.node m).fresh = true → (v.node m).fresh = true
  blobs : ∀ m, (v.node m).memo.Numbered → ∀ s, (NoteKey.blob, s) ∈ (v'.node m).memo.entries →
    (NoteKey.blob, s) ∈ (v.node m).memo.entries

theorem Relisted.quiet (h : Relisted n v v') : Quiet v v' where
  shape := ⟨h.size_le, fun m hm => by rw [h.old m hm], fun m hm => by rw [h.old m hm]⟩
  expiry := h.expiry
  stat m := by
    by_cases hm : m < v.nodes.size
    · exact h.stat_eq hm
    · rw [(h.fresh m (Nat.le_of_not_lt hm)).1, node_of_size_le (Nat.le_of_not_lt hm)]
      rfl
  kind m hm := by rw [h.old m hm]
  fresh m hfresh := by
    by_cases hm : m < v.nodes.size
    · rwa [h.old m hm] at hfresh
    · rw [(h.fresh m (Nat.le_of_not_lt hm)).2.1] at hfresh
      cases hfresh
  blobs m _ s hs := by
    by_cases hm : m < v.nodes.size
    · rwa [h.old m hm] at hs
    · rw [(h.fresh m (Nat.le_of_not_lt hm)).2.2] at hs
      cases hs

theorem Quiet.modifyNode {f : Node κ ν → Node κ ν} (hparent : ∀ nd, (f nd).parent = nd.parent)
    (hname : ∀ nd, (f nd).name = nd.name) (hstat : ∀ nd, (f nd).stat = nd.stat) (hkind : ∀ nd, (f nd).kind = nd.kind)
    (hfresh : ∀ nd, (f nd).fresh = true → nd.fresh = true)
    (hblobs : (v.node n).memo.Numbered → ∀ s, (NoteKey.blob, s) ∈ (f (v.node n)).memo.entries →
      (NoteKey.blob, s) ∈ (v.node n).memo.entries) : Quiet v (v.modifyNode n f) where
  shape := .modifyNode (hparent _) (hname _)
  expiry := rfl
  stat m := by
    rw [node_modifyNode]
    split
    · exact hstat _
    · rfl
  kind m _ := by
    rw [node_modifyNode]
    split
    · exact hkind _
    · rfl
  fresh m := by
    rw [node_modifyNode]
    split
    · exact hfresh _
    · exact id
  blobs m := by
    rw [node_modifyNode]
    split
    · next h => exact h.1 ▸ hblobs
    · exact fun _ _ => id

theorem Quiet.of_nodes (hnodes : v'.nodes = v.nodes) (hexpiry : v'.expiry = v.expiry) : Quiet v v' := by
  have hnode : ∀ m, v'.node m = v.node m := fun m => by rw [node, node, hnodes]
  exact ⟨⟨Nat.le_of_eq (congrArg Array.size hnodes).symm, fun m _ => by rw [hnode], fun m _ => by rw [hnode]⟩, hexpiry,
    fun m => by rw [hnode], fun m _ => by rw [hnode], fun m => by rw [hnode]; exact id,
    fun m _ _ => by rw [hnode]; exact id⟩

/-! ## Nodes and their entries -/

/-- No node is known to be anything else than its entry was last seen to be. A link is known by what it leads to when
it was followed. -/
structure Tracks (L : Log) (v : Vfs κ ν ρ) : Prop where
  blank : ∀ c, v.nodes.size ≤ c → L.entry c = none
  entry : ∀ c kind, L.entry c = some kind →
    v.kind? c = none ∨ v.kind? c = some kind ∨ kind = .symlink ∧ ∃ info, (v.node c).stat = .found info
  followed : ∀ c info, (v.node c).stat = .found info → info.kind ≠ .symlink

namespace Tracks

variable {L : Log}

theorem make (e : Expiry) : Tracks .blank (make e : Vfs κ ν ρ) := by
  refine ⟨fun _ _ => rfl, by rintro _ _ ⟨⟩, fun c info hc => ?_⟩
  cases c with
  | zero => cases hc
  | succ c =>
    rw [node_of_size_le (by simp [Vfs.make])] at hc
    cases hc

theorem lt (h : Tracks L v) {kind : FileKind} (hc : L.entry c = some kind) : c < v.nodes.size := by
  by_contra hlt
  rw [h.blank c (Nat.le_of_not_lt hlt)] at hc
  cases hc

theorem transfer (h : Tracks L v) (hsize : v.nodes.size ≤ v'.nodes.size)
    (hstat : ∀ m, (v'.node m).stat = (v.node m).stat)
    (hkind : ∀ m < v.nodes.size, (v'.node m).kind = (v.node m).kind) : Tracks L v' where
  blank c hc := h.blank c (Nat.le_trans hsize hc)
  entry c kind hc := by
    rw [kind?, hstat c, hkind c (h.lt hc)]
    exact h.entry c kind hc
  followed c info hc := h.followed c info (hstat c ▸ hc)

theorem quiet (h : Tracks L v) (hquiet : Quiet v v') : Tracks L v' :=
  h.transfer hquiet.shape.size_le hquiet.stat hquiet.kind

theorem list {entries : List (String × FileKind)} (h : Tracks L v) (hlinked : v.Linked P) (hn : n < v.nodes.size)
    (hnodup : (entries.map (·.1)).Nodup) :
    Tracks (L.list (v.syncChildren n entries) n entries) (v.syncChildren n entries) := by
  have hrel := Relisted.syncChildren hlinked n entries
  have hlater : Later (fun _ => True) v (v.syncChildren n entries) := later_syncChildren v n entries
  have hbounded := hlater.bounded hlinked.bounded
  refine ⟨fun c hc => ?_, fun c kind hc => ?_, (h.quiet hrel.quiet).followed⟩
  · rw [Log.entry_list, if_neg fun hmem => Nat.not_lt_of_le hc (hbounded.children n c hmem)]
    exact h.blank c (Nat.le_trans hrel.size_le hc)
  · rw [Log.entry_list] at hc
    split at hc
    · next hmem =>
      obtain ⟨x, hx, hname, hcomp⟩ := exists_entry_of_mem_syncChildren hlinked hn hmem
      -- The entries have different names, so this is the entry that is found.
      have hkind : kind = x.2 := by
        have hmem := mem_of_listedKind hc
        rw [hname] at hmem
        exact congrArg Prod.snd (List.inj_on_of_nodup_map hnodup hmem hx rfl)
      rw [compatible] at hcomp
      subst hkind
      cases hk : (v.syncChildren n entries).kind? c with
      | none => exact .inl rfl
      | some k =>
        rw [hk] at hcomp
        exact .inr (.inl (by simpa using hcomp))
    · exact (h.quiet hrel.quiet).entry c kind hc

theorem lost (h : Tracks L v) (hn : n < v.nodes.size) : Tracks (L.look d v n) (observeMissing n v) where
  blank c hc := by
    rw [size_observeMissing] at hc
    have hne : c ≠ n := fun heq => Nat.not_lt_of_le hc (heq ▸ hn)
    rw [Log.entry_look, if_neg hne]
    exact h.blank c hc
  entry c kind hc := by
    rw [kind?, node_observeMissing hn]
    by_cases hcn : c = n
    · subst hcn
      exact .inl (by simp [Node.forget, Node.lost])
    · rw [Log.entry_look, if_neg hcn] at hc
      rw [if_neg hcn]
      exact h.entry c kind hc
  followed c info hc := by
    rw [node_observeMissing hn] at hc
    split at hc
    · cases hc
    · exact h.followed c info hc

/-- What is found at a node is of the kind of its entry, unless that is a link. -/
theorem kind_of_ownEntry (hd : d.Real) (hlinked : v.Linked P) (hn : n < v.nodes.size) {kind : FileKind}
    (hown : ownEntry d v n = some kind) (hkind : kind ≠ .symlink) (he : d.entry (v.path n) = .ok e) :
    e.item.kind = kind := by
  rw [ownEntry] at hown
  split at hown
  · next p hp =>
    obtain ⟨hl, hmem⟩ := Disk.list_of_entryKind hown
    obtain ⟨l, -, -, -, hbelow⟩ := Disk.exists_locate_of_list hl
    have hname := (hd.get?_of_mem_below (hbelow ▸ hmem)).1
    have hnames := names_child hp (hlinked.name n hn p hp).1 rfl hname.1
    refine hd.kind_of_listed hl hmem hkind ?_ he
    rw [path_eq_pathOf, path_eq_pathOf, hnames, Disk.moves_pathOf, Disk.moves_pathOf, List.flatMap_append,
      List.flatMap_singleton, Disk.moves_of_isFileName hname]
  · cases hown

theorem found (h : Tracks L v) (hd : d.Real) (hlinked : v.Linked P) (hn : n < v.nodes.size)
    (he : d.entry (v.path n) = .ok e) : Tracks (L.look d v n) (noted n (infoOf (v.node n).name e) v) where
  blank c hc := by
    rw [size_noted] at hc
    have hne : c ≠ n := fun heq => Nat.not_lt_of_le hc (heq ▸ hn)
    rw [Log.entry_look, if_neg hne]
    exact h.blank c hc
  entry c kind hc := by
    rw [kind?, node_noted hn (hlinked.parent_ne hn)]
    by_cases hcn : c = n
    · subst hcn
      rw [Log.entry_look, if_pos rfl] at hc
      rw [if_pos rfl, Node.forget, Node.found]
      by_cases hkind : kind = .symlink
      · exact .inr (.inr ⟨hkind, _, rfl⟩)
      · exact .inr (.inl (congrArg some (kind_of_ownEntry hd hlinked hn hc hkind he)))
    · rw [Log.entry_look, if_neg hcn] at hc
      rw [if_neg hcn]
      exact h.entry c kind hc
  followed c info hc := by
    rw [node_noted hn (hlinked.parent_ne hn)] at hc
    by_cases hcn : c = n
    · rw [if_pos hcn] at hc
      cases hc
      exact Disk.kind_ne_symlink_of_entry he
    · rw [if_neg hcn] at hc
      exact h.followed c info hc

theorem stat (h : Tracks L v) (hd : d.Real) (hlinked : v.Linked P) (hn : n < v.nodes.size) :
    Tracks (L.stat d v n) (stat d n v).2 := by
  cases hs : v.served n with
  | true => rwa [stat_of_served hs, Log.stat, hs, if_pos rfl]
  | false =>
    cases he : d.entry (v.path n) with
    | error cause =>
      rw [Log.stat_of_error hs he, stat_of_error hs he]
      exact h.lost hn
    | ok e =>
      have hfound := h.found hd hlinked hn he
      rcases stat_cases hlinked hn hs he L with ⟨entries, hl, -, htree, hlog⟩ | ⟨-, htree, hlog⟩
      · rw [hlog, htree]
        have hsize : n < (noted n (infoOf (v.node n).name e) v).nodes.size := (size_noted ..).symm ▸ hn
        exact hfound.list (hlinked.noted n _) hsize (hd.lists _ _ hl).2
      · rw [hlog, htree]
        exact hfound

end Tracks

/-! ## Runs -/

/-- What is done to a memo by its users. They have no access to what is kept of the file itself. -/
structure Used (m m' : Memo (NoteKey κ) (Note ν)) : Prop where
  numbered : m.Numbered → m'.Numbered
  blobs : m.Numbered → ∀ s, (NoteKey.blob, s) ∈ m'.entries → (NoteKey.blob, s) ∈ m.entries

variable [DecidableEq κ] {L L' : Log} {ds : List Disk}

/-- The steps of which all calls are made. Each may concern any node that was ever made. -/
inductive Step (d : Disk) : Log → Vfs κ ν ρ → Log → Vfs κ ν ρ → Prop
  | poke {L : Log} {v : Vfs κ ν ρ} {n : NodeId} (hn : n < v.nodes.size) (s : String) :
      Step d L v L (v.pokeChild n s).2
  | stat {L : Log} {v : Vfs κ ν ρ} {n : NodeId} (hn : n < v.nodes.size) :
      Step d L v (L.stat d v n) (stat d n v).2
  | blob {L : Log} {v : Vfs κ ν ρ} {n : NodeId} (hn : n < v.nodes.size) :
      Step d L v (L.stat d v n) (blob d n v).2
  /-- A scan lists the entries that it accepts. -/
  | list {L : Log} {v : Vfs κ ν ρ} {n : NodeId} (hn : n < v.nodes.size) {dir : String}
      {entries : List (String × FileKind)} (hs : entries.Sublist (d.listing dir)) :
      Step d L v (L.list (v.syncChildren n entries) n entries) (v.syncChildren n entries)
  | addChild {L : Log} {v : Vfs κ ν ρ} {n : NodeId} (hn : n < v.nodes.size) (s : String) (kind : FileKind) :
      Step d L v L (v.addChild n s kind).2
  | dropChild {L : Log} {v : Vfs κ ν ρ} (n c : NodeId) : Step d L v L (v.dropChild n c)
  | expire {L : Log} {v : Vfs κ ν ρ} (n : NodeId) : Step d L v L (expire n v)
  | use {L : Log} {v : Vfs κ ν ρ} (n : NodeId) (f : Node κ ν → Memo (NoteKey κ) (Note ν))
      (h : Used (v.node n).memo (f (v.node n))) : Step d L v L (v.modifyNode n fun nd => { nd with memo := f nd })
  /-- Something is done to the cells alone. -/
  | cells {L : Log} {v v' : Vfs κ ν ρ} (hnodes : v'.nodes = v.nodes) (hexpiry : v'.expiry = v.expiry) :
      Step d L v L v'

/-- A new tree on a disk that changes between the calls. The disks are those that there were, the last one first. -/
inductive Run : List Disk → Log → Vfs κ ν ρ → Prop
  | start {d : Disk} (hd : d.Real) (e : Expiry) : Run [d] .blank (make e)
  | edit {ds : List Disk} {L : Log} {v : Vfs κ ν ρ} (h : Run ds L v) {d : Disk} (hd : d.Real) : Run (d :: ds) L v
  | call {d : Disk} {ds : List Disk} {L L' : Log} {v v' : Vfs κ ν ρ} (h : Run (d :: ds) L v)
      (hs : Step d L v L' v') : Run (d :: ds) L' v'

theorem Run.real (h : Run ds L v) : ∀ d ∈ ds, d.Real := by
  induction h with
  | start hd e => simpa using hd
  | edit _ hd ih => simpa using ⟨hd, ih⟩
  | call _ _ ih => exact ih

/-- The bytes of a file that a stat has found. -/
def readNoted (d : Disk) (n : NodeId) (v : Vfs κ ν ρ) : Except VfsError Bytes × Vfs κ ν ρ :=
  match (v.node n).memo.peek? .blob fun _ => true with
  | some (.blob data) => (.ok data, v)
  | _ => match d.read (v.path n) with
    | .error cause => (.error (.disk cause), v)
    | .ok data => (.ok data, v.modifyNode n fun nd => { nd with memo := nd.memo.put .blob (.blob data) })

theorem blob_eq (d : Disk) (n : NodeId) (v : Vfs κ ν ρ) : blob d n v = match stat d n v with
    | (.error cause, w) => (.error cause, w)
    | (.ok info, w) =>
      if info.kind = .dir then (.error (.other s!"`{w.path n}` is a directory"), w) else readNoted d n w := by
  unfold blob
  simp only [bind, StateT.bind]
  rcases stat d n v with ⟨cause | info, v'⟩
  · rfl
  · dsimp only
    by_cases hd : info.kind = .dir
    · simp only [get, getThe, MonadStateOf.get, if_pos hd]
      rfl
    · simp only [get, getThe, MonadStateOf.get, if_neg hd]
      change (match (v'.node n).memo.peek? .blob fun _ => true with
        | some (.blob data) => _
        | _ => _ : StateM (Vfs κ ν ρ) _) v' = _
      unfold readNoted
      cases (v'.node n).memo.peek? .blob fun _ => true with
      | none => cases d.read (v'.path n) <;> rfl
      | some x =>
        cases x with
        | blob data => rfl
        | _ => cases d.read (v'.path n) <;> rfl

theorem readNoted_snd (d : Disk) (n : NodeId) (v : Vfs κ ν ρ) : (readNoted d n v).2 = v ∨
    ∃ data, d.read (v.path n) = .ok data ∧
      (readNoted d n v).2 = v.modifyNode n fun nd => { nd with memo := nd.memo.put .blob (.blob data) } := by
  unfold readNoted
  split
  · exact .inl rfl
  · split
    · exact .inl rfl
    · next data hread => exact .inr ⟨data, hread, rfl⟩

/-- Reading a file changes no more than the stat before it does, but that the bytes are noted. -/
theorem blob_snd (d : Disk) (n : NodeId) (v : Vfs κ ν ρ) : (blob d n v).2 = (stat d n v).2 ∨
    ∃ info data, (stat d n v).1 = .ok info ∧ d.read ((stat d n v).2.path n) = .ok data ∧
      (blob d n v).2 = (stat d n v).2.modifyNode n fun nd => { nd with memo := nd.memo.put .blob (.blob data) } := by
  rw [blob_eq]
  rcases stat d n v with ⟨cause | info, v'⟩
  · exact .inl rfl
  · dsimp only
    split
    · exact .inl rfl
    · rcases readNoted_snd d n v' with heq | ⟨data, hread, heq⟩
      · exact .inl heq
      · exact .inr ⟨info, data, rfl, hread, heq⟩

theorem Step.linked (hd : d.Real) (hs : Step d L v L' v') (h : v.Linked fun _ => True) :
    v'.Linked fun _ => True := by
  cases hs with
  | poke hn s => exact h.pokeChild hn trivial
  | stat hn => exact h.stat hd.lists hn
  | @blob n hn =>
    have hstat := h.stat hd.lists hn
    rcases blob_snd d n v with heq | ⟨_, _, -, -, heq⟩ <;> rw [heq]
    · exact hstat
    · exact hstat.modifyNode (fun _ => rfl) (fun _ => rfl) fun _ => .refl _
  | list hn hsub => exact h.syncChildren hn (fun _ _ => trivial) ((hsub.map _).nodup (hd.nodup_listing _))
  | addChild hn s kind => exact h.addChild hn trivial kind
  | dropChild n c => exact h.dropChild n c
  | expire n => exact h.modifyNode (fun _ => rfl) (fun _ => rfl) fun _ => .refl _
  | use n f _ => exact h.modifyNode (fun _ => rfl) (fun _ => rfl) fun _ => .refl _
  | cells hnodes _ => exact h.of_nodes hnodes

/-- A step looks at nothing, or lists a directory, or looks at a node. -/
theorem Step.cases (hs : Step d L v L' v') :
    (Quiet v v' ∧ L' = L) ∨
    (∃ n < v.nodes.size, ∃ dir entries, entries.Sublist (d.listing dir) ∧ v' = v.syncChildren n entries ∧
      L' = L.list v' n entries) ∨
    ∃ n < v.nodes.size, L' = L.stat d v n ∧ (v' = (Vfs.stat d n v).2 ∨
      ∃ info data, (Vfs.stat d n v).1 = .ok info ∧ d.read ((Vfs.stat d n v).2.path n) = .ok data ∧
        v' = (Vfs.stat d n v).2.modifyNode n fun nd => { nd with memo := nd.memo.put .blob (.blob data) }) := by
  cases hs with
  | poke hn s => exact .inl ⟨(Relisted.pokeChild ..).quiet, rfl⟩
  | stat hn => exact .inr (.inr ⟨_, hn, rfl, .inl rfl⟩)
  | blob hn => exact .inr (.inr ⟨_, hn, rfl, blob_snd d _ v⟩)
  | list hn hsub => exact .inr (.inl ⟨_, hn, _, _, hsub, rfl, rfl⟩)
  | addChild hn s kind => exact .inl ⟨(Relisted.addChild ..).quiet, rfl⟩
  | dropChild n c => exact .inl ⟨(Relisted.dropChild ..).quiet, rfl⟩
  | expire n => exact .inl ⟨.modifyNode (fun _ => rfl) (fun _ => rfl) (fun _ => rfl) (fun _ => rfl) (by simp)
      fun _ _ => id, rfl⟩
  | use n f hused => exact .inl ⟨.modifyNode (fun _ => rfl) (fun _ => rfl) (fun _ => rfl) (fun _ => rfl) (fun _ => id)
      hused.blobs, rfl⟩
  | cells hnodes hexpiry => exact .inl ⟨.of_nodes hnodes hexpiry, rfl⟩

theorem Step.tracks (hd : d.Real) (hs : Step d L v L' v') (hlinked : v.Linked fun _ => True) (h : Tracks L v) :
    Tracks L' v' := by
  obtain ⟨hquiet, rfl⟩ | ⟨n, hn, dir, entries, hsub, rfl, rfl⟩ | ⟨n, hn, rfl, rfl | ⟨info, data, -, -, rfl⟩⟩ := hs.cases
  · exact h.quiet hquiet
  · exact h.list hlinked hn ((hsub.map _).nodup (hd.nodup_listing dir))
  · exact h.stat hd hlinked hn
  · -- The bytes are noted, and nothing else is changed.
    refine (h.stat hd hlinked hn).transfer (by simp) (fun m => ?_) fun m _ => ?_ <;>
      rw [node_modifyNode] <;> split <;> rfl

theorem Run.tracks (h : Run ds L v) : (v.Linked fun _ => True) ∧ Tracks L v := by
  induction h with
  | start _ e => exact ⟨.make e, .make e⟩
  | edit _ _ ih => exact ih
  | call h hs ih =>
    have hd := h.real _ List.mem_cons_self
    exact ⟨hs.linked hd ih.1, hs.tracks hd ih.1 ih.2⟩

theorem Step.numbered (hs : Step d L v L' v') (h : ∀ m, (v.node m).memo.Numbered) (m : NodeId) :
    (v'.node m).memo.Numbered := by
  have hlater (hl : Later (fun _ => True) v v') : (v'.node m).memo.Numbered := (hl.memo m).numbered (h m)
  cases hs with
  | poke hn s => exact hlater (later_pokeChild ..)
  | stat hn => exact hlater (looks_stat d _ v)
  | blob hn => exact hlater (looks_blob d _ v)
  | list hn hsub => exact hlater (later_syncChildren ..)
  | addChild hn s kind => exact hlater (later_addChild ..)
  | dropChild n c =>
    exact hlater (.look (fun _ => rfl) (fun _ => rfl) (fun _ => rfl) fun _ => List.erase_subset)
  | expire n => exact hlater (.look (fun _ => rfl) (fun _ => rfl) (fun _ => rfl) fun _ => List.Subset.refl _)
  | use n f hused =>
    rw [node_modifyNode]
    split
    · next hm => exact hm.1 ▸ hused.numbered (h n)
    · exact h m
  | cells hnodes _ =>
    rw [node, hnodes]
    exact h m

theorem Run.numbered (h : Run ds L v) (m : NodeId) : (v.node m).memo.Numbered := by
  induction h generalizing m with
  | start _ e =>
    rw [memo_make]
    exact Memo.numbered_empty
  | edit _ _ ih => exact ih m
  | call _ hs ih => exact hs.numbered ih m

/-! ## Calls -/

/-- The trees that runs lead to. -/
def Known (ds : List Disk) (v : Vfs κ ν ρ) : Prop := ∃ L, Run ds L v

namespace Known

variable {β : Type}

theorem call (h : Known (d :: ds) v) (hs : ∀ L, ∃ L', Step d L v L' v') : Known (d :: ds) v' := by
  obtain ⟨L, h⟩ := h
  obtain ⟨L', hs⟩ := hs L
  exact ⟨L', h.call hs⟩

theorem linked (h : Known ds v) : v.Linked fun _ => True := by
  obtain ⟨L, h⟩ := h
  exact h.tracks.1

theorem numbered (h : Known ds v) (m : NodeId) : (v.node m).memo.Numbered := by
  obtain ⟨L, h⟩ := h
  exact h.numbered m

theorem pokeChild (h : Known (d :: ds) v) (hn : n < v.nodes.size) (s : String) :
    Keeps (Known (d :: ds)) (fun v => v.pokeChild n s) v fun c v' => c < v'.nodes.size :=
  ⟨h.call fun L => ⟨L, .poke hn s⟩, shape_of_later (later_pokeChild v n s), h.linked.pokeChild_lt hn s⟩

theorem pokeFrom {names : List String} (h : Known (d :: ds) v) (hn : n < v.nodes.size) :
    Keeps (Known (d :: ds)) (fun v => v.pokeFrom n names) v fun c v' => c < v'.nodes.size := by
  induction names generalizing v n with
  | nil => exact ⟨h, .refl v, hn⟩
  | cons s names ih =>
    obtain ⟨hchild, hshape, hlt⟩ := h.pokeChild hn s
    obtain ⟨hrest, hshape', hlt'⟩ := ih hchild hlt
    exact ⟨hrest, hshape.trans hshape', hlt'⟩

theorem nodeAt (h : Known (d :: ds) v) (path : String) :
    Keeps (Known (d :: ds)) (nodeAt path) v fun c v' => c < v'.nodes.size :=
  h.pokeFrom h.linked.root.1

theorem stat (h : Known (d :: ds) v) (hn : n < v.nodes.size) :
    Keeps (Known (d :: ds)) (stat d n) v fun _ _ => True :=
  ⟨h.call fun _ => ⟨_, .stat hn⟩, shape_of_later (looks_stat d n v), trivial⟩

theorem hasKind (h : Known (d :: ds) v) (hn : n < v.nodes.size) (kind : FileKind) :
    Keeps (Known (d :: ds)) (hasKind d kind n) v fun _ _ => True :=
  (h.stat hn).bind fun r _ h _ _ => by cases r <;> exact .pure h trivial

theorem readDir (h : Known (d :: ds) v) (hn : n < v.nodes.size) :
    Keeps (Known (d :: ds)) (readDir d n) v fun _ _ => True := by
  refine (h.stat hn).bind fun r v' h _ _ => ?_
  cases r with
  | error cause => exact .pure h trivial
  | ok info =>
    refine .get ?_
    split <;> exact .pure h trivial

theorem locateIn {up : List NodeId} (h : Known (d :: ds) v) (hup : ∀ n ∈ up, n < v.nodes.size) (s : String) :
    Keeps (Known (d :: ds)) (locateIn d s up) v fun _ _ => True := by
  induction up generalizing v with
  | nil => exact .pure h trivial
  | cons n up ih =>
    refine (h.pokeChild (hup n List.mem_cons_self) s).bind fun c v₁ h₁ hshape₁ hc => ?_
    refine (h₁.stat hc).bind fun r v₂ h₂ hshape₂ _ => ?_
    cases r with
    | ok info => exact .pure h₂ trivial
    | error cause =>
      exact ih h₂ fun m hm =>
        Nat.lt_of_lt_of_le (hup m (List.mem_cons_of_mem n hm)) (hshape₁.trans hshape₂).size_le

theorem locate (h : Known (d :: ds) v) (hn : n < v.nodes.size) (s : String) :
    Keeps (Known (d :: ds)) (locate d n s) v fun _ _ => True :=
  .get (h.locateIn (fun _ => h.linked.mem_lineage_lt hn) s)

theorem blob (h : Known (d :: ds) v) (hn : n < v.nodes.size) :
    Keeps (Known (d :: ds)) (blob d n) v fun _ _ => True :=
  ⟨h.call fun _ => ⟨_, .blob hn⟩, shape_of_later (looks_blob d n v), trivial⟩

theorem scan (h : Known (d :: ds) v) (o : ScanOptions) (path : String) :
    Keeps (Known (d :: ds)) (scan d o path) v fun _ _ => True := by
  unfold Vfs.scan
  split
  · exact .pure h trivial
  · refine (h.nodeAt path).bind fun n v₁ h₁ _ hn => (h₁.stat hn).bind fun r v₂ h₂ _ _ => ?_
    cases r with
    | error e => exact .pure h₂ trivial
    | ok info =>
      refine (Keeps.forIn (fun x hx _ v h => ?_) h₂ _).bind fun _ _ h₃ _ _ => .pure h₃ trivial
      refine (h.nodeAt x.1).bind fun c v₃ h₃ _ hc => ?_
      obtain ⟨depth, hx⟩ := Keeps.exists_of_mem_listings hx
      have hsub : x.2.Sublist (d.listing x.1) := by
        rw [hx, accepted, Disk.listing]
        cases d.list x.1 with
        | error cause => exact .refl _
        | ok entries => exact List.filter_sublist
      exact ⟨h₃.call fun _ => ⟨_, .list hc hsub⟩, shape_of_later (later_syncChildren v₃ c _), trivial⟩

theorem remove (h : Known (d :: ds) v) (path : String) : Known (d :: ds) (v.remove path).2 := by
  unfold Vfs.remove
  dsimp only
  split
  · rw [removeChild]
    split
    · exact h
    · exact h.call fun L => ⟨L, .dropChild ..⟩
  · exact h

end Known

/-! ### Memos -/

namespace Used

variable {m m' : Memo (NoteKey κ) (Note ν)} {k : κ} {serial : Nat} {f : Slot (Note ν) → Slot (Note ν)}

omit [DecidableEq κ] in
theorem refl (m : Memo (NoteKey κ) (Note ν)) : Used m m := ⟨id, fun _ _ => id⟩

omit [DecidableEq κ] in
/-- A slot is written that is not that of the file itself. -/
theorem write (h : Used m m') (hf : ∀ s, (f s).serial = s.serial) (ho : m.Numbered → ¬ m'.Owns .blob serial) :
    Used m (m'.modify serial f) where
  numbered hm := (h.numbered hm).modify hf
  blobs hm s hs := by
    obtain ⟨e, he, heq⟩ := Memo.mem_modify hs
    split at heq
    · next hserial => exact (ho hm ⟨e, he, (congrArg Prod.fst heq).symm, hserial⟩).elim
    · exact h.blobs hm s (heq ▸ he)

omit [DecidableEq κ] in
theorem not_owns_blob (hm : m.Numbered) (ho : m.Owns (.user k) serial) : ¬ m.Owns .blob serial :=
  fun hblob => by cases hm.owns_unique hblob ho

theorem slot (m : Memo (NoteKey κ) (Note ν)) (k : κ) : Used m (m.slot (.user k)).1 where
  numbered hm := hm.slot
  blobs _ s hs := by
    unfold Memo.slot at hs
    split at hs
    · exact hs
    · rcases List.mem_append.mp hs with hs | hs
      · exact hs
      · simp at hs

theorem put (m : Memo (NoteKey κ) (Note ν)) (k : κ) (x : Note ν) : Used m (m.put (.user k) x) := by
  rw [Memo.put_eq]
  exact (slot m k).write (fun _ => rfl) fun hm => not_owns_blob hm.slot Memo.owns_slot

theorem start (m : Memo (NoteKey κ) (Note ν)) (k : κ) (wanted : Note ν → Bool) :
    Used m (m.start (.user k) wanted).1 := by
  rcases Memo.start_fst m (.user k) wanted with heq | heq <;> rw [heq]
  · exact slot m k
  · exact (slot m k).write (fun _ => rfl) fun hm => not_owns_blob hm.slot Memo.owns_slot

end Used

namespace Known

theorem putNote (h : Known (d :: ds) v) (n : NodeId) (k : κ) (x : ν) : Known (d :: ds) (v.putNote n k x) :=
  h.call fun L => ⟨L, .use n (fun nd => nd.memo.put (.user k) (.user x)) (.put ..)⟩

theorem readCell (h : Known (d :: ds) v) (n : NodeId) (k : κ) (content : ρ) :
    Known (d :: ds) (v.readCell n k content).2 := by
  unfold Vfs.readCell
  dsimp only
  split
  · exact h
  · exact h
  · next serial hmissing =>
    have hused : Used (v.node n).memo
        (((v.node n).memo.start (.user k) Note.isCell).1.finish serial (.cell v.cells.size) true) :=
      (Used.start _ k _).write (fun _ => rfl) fun hm =>
        Used.not_owns_blob (hm.start _) (Memo.start_missing hm hmissing).1
    exact (h.call fun L => ⟨L, .use n (fun _ => _) hused⟩).call fun L => ⟨L, .cells rfl rfl⟩

/-- A note is computed by calls, and kept if its slot is still there. -/
theorem readNote (h : Known (d :: ds) v) (hn : n < v.nodes.size) (k : κ) {init : StateM (Vfs κ ν ρ) ν}
    (hlooks : Looks (fun _ => True) init) (hinit : ∀ v, Known (d :: ds) v → Known (d :: ds) (init v).2) :
    Known (d :: ds) (readNote n k init v).2 := by
  have hstarted : Known (d :: ds) (v.modifyNode n fun nd =>
      { nd with memo := ((v.node n).memo.start (.user k) Note.isUser).1 }) :=
    h.call fun L => ⟨L, .use n (fun _ => _) (.start ..)⟩
  unfold Vfs.readNote
  dsimp only
  split
  · exact hstarted
  · exact hinit _ hstarted
  · next serial hmissing =>
    refine (hinit _ hstarted).call fun L => ⟨L, .use n (fun nd => nd.memo.finish serial _ false) ?_⟩
    refine (Used.refl _).write (fun _ => rfl) fun _ hblob => ?_
    -- The slot was there before the note was computed, and is that of the note's key.
    have howns := (Memo.start_missing (h.numbered n) hmissing).1
    have hnumbered := (h.numbered n).start (k := .user k) Note.isUser
    have hlt : serial < ((v.node n).memo.start (.user k) Note.isUser).1.next := by
      obtain ⟨e, he, -, rfl⟩ := howns
      exact hnumbered.lt e he
    have hgrows := ((hlooks (v.modifyNode n fun nd =>
      { nd with memo := ((v.node n).memo.start (.user k) Note.isUser).1 })).memo n).grows
    rw [node_modifyNode_self _ hn] at hgrows
    exact Used.not_owns_blob hnumbered howns (hgrows.owns _ _ hblob hlt)

end Known

end Vfs
end EditorAgent

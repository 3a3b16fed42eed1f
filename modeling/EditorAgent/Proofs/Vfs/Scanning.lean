import EditorAgent.Proofs.Vfs.Walks
import EditorAgent.Proofs.Vfs.Ways
import Mathlib

/-!
# What a scan leaves

Every directory that a scan visits is listed by the node to which its path leads. The directories come in an order in
which listing one changes the way to none that was listed before, so afterwards each node has the entries that were
accepted, nodes that can stand for their entries are kept, and nodes that were not visited are as they were.
-/

namespace EditorAgent.Vfs

variable {κ ν ρ : Type} {P : String → Prop} {v v' v'' w : Vfs κ ν ρ} {n m c b : NodeId} {d : Disk} {o : ScanOptions}
  {root : String} {k : Nat} {info : FileInfo} {ns xs r : List String} {entries : List (String × FileKind)}

/-! ## Listing one directory -/

/-- New nodes were made, and old ones have other children at most. -/
structure Relaid (v v' : Vfs κ ν ρ) : Prop where
  expiry : v'.expiry = v.expiry
  size_le : v.nodes.size ≤ v'.nodes.size
  old : ∀ m < v.nodes.size, v'.node m = { v.node m with children := (v'.node m).children }

theorem Relisted.relaid (h : Relisted n v v') : Relaid v v' := ⟨h.expiry, h.size_le, h.old⟩

namespace Relaid

theorem refl (v : Vfs κ ν ρ) : Relaid v v := ⟨rfl, Nat.le_refl _, fun _ _ => rfl⟩

theorem trans (h : Relaid v v') (h' : Relaid v' v'') : Relaid v v'' where
  expiry := h'.expiry.trans h.expiry
  size_le := Nat.le_trans h.size_le h'.size_le
  old m hm := by
    have hold := h'.old m (Nat.lt_of_lt_of_le hm h.size_le)
    rw [h.old m hm] at hold
    exact hold

theorem shape (h : Relaid v v') : Shape v v' :=
  ⟨h.size_le, fun m hm => by rw [h.old m hm], fun m hm => by rw [h.old m hm]⟩

theorem compatible_eq (h : Relaid v v') (hm : m < v.nodes.size) (kind : FileKind) :
    v'.compatible m kind = v.compatible m kind := by
  rw [compatible, compatible, kind?, kind?, h.old m hm]

theorem pokeFrom (names : List String) (v : Vfs κ ν ρ) (n : NodeId) : Relaid v (v.pokeFrom n names).2 := by
  induction names generalizing v n with
  | nil => exact refl v
  | cons s names ih => exact (Relisted.pokeChild v n s).relaid.trans (ih _ _)

end Relaid

/-- The children of a node are those of a listing: they have its names, and none is known to be of another kind. -/
structure Displays (v : Vfs κ ν ρ) (n : NodeId) (entries : List (String × FileKind)) : Prop where
  names : v.childNames n = entries.map (·.1)
  kinds : ∀ c ∈ (v.node n).children, ∃ e ∈ entries, (v.node c).name = e.1 ∧ v.compatible c e.2 = true

theorem displays_syncChildren (h : v.Linked fun _ => True) (hn : n < v.nodes.size)
    (entries : List (String × FileKind)) : (v.syncChildren n entries).Displays n entries := by
  refine ⟨?_, fun c hc => exists_entry_of_mem_syncChildren h hn hc⟩
  obtain ⟨-, hshape, -, hnames⟩ := Linked.nodesFor entries (fun _ _ => trivial) h hn (h.children n)
  have hname : ∀ c, ((v.syncChildren n entries).node c).name =
      ((v.nodesFor n (v.node n).children entries).2.node c).name := fun c => by
    rw [syncChildren_eq, node_modifyNode]
    split <;> rfl
  simp only [childNames, hname]
  rw [syncChildren_eq, node_modifyNode_self _ (Nat.lt_of_lt_of_le hn hshape.size_le), hnames]

/-- Listing a directory leaves what its siblings and the directories above them list. -/
theorem Displays.relisted (h : v.Displays m entries) (hlinked : v.Linked P) (hrel : Relisted n v v') (hmn : m ≠ n) :
    v'.Displays m entries := by
  have hchildren := hrel.children m hmn
  have hlt : ∀ c ∈ (v.node m).children, c < v.nodes.size := fun c hc => (hlinked.children m c hc).1
  refine ⟨?_, fun c hc => ?_⟩
  · rw [← h.names, childNames, childNames, hchildren]
    exact List.map_congr_left fun c hc => by rw [hrel.old c (hlt c hc)]
  · rw [hchildren] at hc
    obtain ⟨e, he, hname, hcomp⟩ := h.kinds c hc
    exact ⟨e, he, by rwa [hrel.old c (hlt c hc)], by rwa [hrel.relaid.compatible_eq (hlt c hc)]⟩

/-- Names lead where they led unless they go on from the one node that has other children. -/
theorem Linked.peekFrom_of_children (h : v.Linked P) (hshape : Shape v v') (hxs : ∀ s ∈ xs, s ≠ "")
    (hns : ∀ s ∈ ns, s ≠ "") (hc : v.peekFrom rootId xs = some c) (hb : v.peekFrom rootId ns = some b)
    (hchildren : ∀ m < v.nodes.size, m ≠ c → (v'.node m).children = (v.node m).children)
    (hfar : xs <+: ns → xs = ns) : v'.peekFrom rootId ns = some b := by
  refine peekFrom_of_child? hb fun pre s rest m heq hm =>
    h.child?_eq hshape (hchildren m (h.lt_of_peekFrom h.root.1 hm) ?_) s
  rintro rfl
  have hpre : pre = xs := by
    rw [← h.names_of_peekFrom (fun t ht => hns t (heq ▸ List.mem_append_left _ ht)) hm, h.names_of_peekFrom hxs hc]
  have hlong := congrArg List.length (hfar (hpre ▸ heq ▸ List.prefix_append _ _))
  rw [heq, hpre] at hlong
  simp at hlong

theorem peekFrom_syncChildren (h : v.Linked fun _ => True) (hxs : ∀ s ∈ xs, s ≠ "") (hns : ∀ s ∈ ns, s ≠ "")
    (hc : v.peekFrom rootId xs = some c) (hb : v.peekFrom rootId ns = some b) (hfar : xs <+: ns → xs = ns)
    (entries : List (String × FileKind)) : (v.syncChildren c entries).peekFrom rootId ns = some b :=
  have hrel := Relisted.syncChildren h c entries
  h.peekFrom_of_children hrel.relaid.shape hxs hns hc hb (fun m _ => hrel.children m) hfar

/-! ## Listing one after another -/

/-- A directory is asked for, and its entries are listed. -/
def fill (v : Vfs κ ν ρ) (x : DirListing) : Vfs κ ν ρ := (v.poke x.1).2.syncChildren (v.poke x.1).1 x.2

/-- `done` was listed, one directory after another, and the names `r` lead to a node as before. -/
structure Filled (r : List String) (n : NodeId) (v w : Vfs κ ν ρ) (done : List DirListing) : Prop where
  linked : w.Linked fun _ => True
  relaid : Relaid v w
  root : w.peekFrom rootId r = some n
  lists : ∀ x ∈ done, ∃ c, w.peek? x.1 = some c ∧ w.Displays c x.2
  others : ∀ m < v.nodes.size, (∀ x ∈ done, w.peek? x.1 ≠ some m) → w.node m = v.node m
  keeps : ∀ x ∈ done, ∀ c, v.peek? x.1 = some c → w.peek? x.1 = some c → ∀ e ∈ x.2, ∀ b ∈ (v.node c).children,
    (v.node b).name = e.1 → v.compatible b e.2 = true → b ∈ (w.node c).children

namespace Filled

variable {done : List DirListing} {x : DirListing}

/-- The node of a directory is there when its turn comes. -/
theorem exists_peek (h : Filled r n v w done)
    (hlisted : splitPath x.1 = r ∨ ∃ y ∈ done, ∃ e ∈ y.2, splitPath x.1 = splitPath y.1 ++ [e.1]) :
    ∃ c, w.peek? x.1 = some c := by
  rcases hlisted with hroot | ⟨y, hy, e, he, hnames⟩
  · exact ⟨n, by rw [peek?, hroot, h.root]⟩
  · obtain ⟨c, hc, hdisplays⟩ := h.lists y hy
    have hmem : e.1 ∈ w.childNames c := hdisplays.names ▸ List.mem_map_of_mem he
    obtain ⟨b, hb, hname⟩ := List.mem_map.mp hmem
    have hchild := h.linked.child?_of_mem hb
    rw [hname] at hchild
    refine ⟨b, ?_⟩
    rw [peek?] at hc
    rw [peek?, hnames, peekFrom_concat, hc]
    exact hchild

theorem fill (h : Filled r n v w done) (hprior : v.Linked fun _ => True) (hr : ∀ s ∈ r, s ≠ "") (hroot : r <+: splitPath x.1)
    (hlisted : splitPath x.1 = r ∨ ∃ y ∈ done, ∃ e ∈ y.2, splitPath x.1 = splitPath y.1 ++ [e.1])
    (hnew : ∀ y ∈ done, ¬ splitPath x.1 <+: splitPath y.1) (hnodup : (x.2.map (·.1)).Nodup) :
    Filled r n v (w.fill x) (x :: done) := by
  obtain ⟨c, hc⟩ := h.exists_peek hlisted
  have hfill : w.fill x = w.syncChildren c x.2 := by
    rw [Vfs.fill, poke, pokeFrom_of_peekFrom hc]
  have hne : ∀ p s, s ∈ splitPath p → s ≠ "" := fun p s hs => (isName_of_mem_splitPath hs).1
  have hlt : c < w.nodes.size := h.linked.lt_of_peekFrom h.linked.root.1 hc
  have hrel := Relisted.syncChildren h.linked c x.2
  -- What was listed before is found as before, and at other nodes.
  have hstill : ∀ y ∈ done, ∀ b, w.peek? y.1 = some b → (w.syncChildren c x.2).peek? y.1 = some b := fun y hy b hb =>
    peekFrom_syncChildren h.linked (hne _) (hne _) hc hb (fun hpre => absurd hpre (hnew y hy)) x.2
  have hself : (w.syncChildren c x.2).peek? x.1 = some c :=
    peekFrom_syncChildren h.linked (hne _) (hne _) hc hc (fun _ => rfl) x.2
  have hother : ∀ y ∈ done, w.peek? y.1 ≠ some c := fun y hy hb => by
    have hsame := (h.linked.names_of_peekFrom (hne _) hb).symm.trans (h.linked.names_of_peekFrom (hne _) hc)
    exact hnew y hy (hsame ▸ List.prefix_rfl)
  rw [hfill]
  refine ⟨h.linked.syncChildren hlt (fun _ _ => trivial) hnodup, h.relaid.trans hrel.relaid,
    peekFrom_syncChildren h.linked (hne _) hr hc h.root (fun hpre => hpre.eq_of_length_le hroot.length_le) x.2,
    fun y hy => ?_, fun m hm hno => ?_, fun y hy a hv hw e he b hb hname hcomp => ?_⟩
  · rcases List.mem_cons.mp hy with rfl | hy
    · exact ⟨c, hself, displays_syncChildren h.linked hlt y.2⟩
    · obtain ⟨a, ha, hdisplays⟩ := h.lists y hy
      exact ⟨a, hstill y hy a ha, hdisplays.relisted h.linked hrel fun heq => hother y hy (heq ▸ ha)⟩
  · have hmc : m ≠ c := fun heq => hno x List.mem_cons_self (heq ▸ hself)
    rw [hrel.node_eq (Nat.lt_of_lt_of_le hm h.relaid.size_le) hmc]
    exact h.others m hm fun y hy hb => hno y (List.mem_cons_of_mem x hy) (hstill y hy m hb)
  · rcases List.mem_cons.mp hy with rfl | hy
    · obtain rfl : c = a := Option.some.inj (hself.symm.trans hw)
      have hold : w.node c = v.node c := h.others c (hprior.lt_of_peekFrom hprior.root.1 hv) hother
      have hb' : b < v.nodes.size := (hprior.children c b hb).1
      refine mem_syncChildren h.linked hlt (hold ▸ hb) he ?_ ?_
      · rw [h.relaid.old b hb']
        exact hname
      · rw [h.relaid.compatible_eq hb']
        exact hcomp
    · obtain ⟨a', ha', -⟩ := h.lists y hy
      obtain rfl : a' = a := Option.some.inj ((hstill y hy a' ha').symm.trans hw)
      rw [hrel.children a' fun heq => hother y hy (heq ▸ ha')]
      exact h.keeps y hy a' hv ha' e he b hb hname hcomp

/-- Directories that come in order are all listed. -/
theorem foldl_fill {todo : List DirListing} (h : Filled r n v w done) (hprior : v.Linked fun _ => True)
    (hr : ∀ s ∈ r, s ≠ "") (horderly : Orderly r done todo) (hnodup : ∀ x ∈ todo, (x.2.map (·.1)).Nodup) :
    Filled r n v (todo.foldl Vfs.fill w) (todo.reverse ++ done) := by
  induction horderly generalizing w with
  | nil => exact h
  | @cons done xs x hroot hlisted hnew _ ih =>
    have hfilled := h.fill hprior hr hroot hlisted hnew (hnodup x List.mem_cons_self)
    have hrest := ih hfilled fun y hy => hnodup y (List.mem_cons_of_mem x hy)
    rwa [List.reverse_cons, List.append_assoc]

end Filled

/-! ## The whole scan -/

theorem forIn_fill (xs : List DirListing) (v : Vfs κ ν ρ) :
    (forIn xs PUnit.unit fun x _ => do
      let c ← nodeAt x.1
      modify fun v => v.syncChildren c x.2
      return ForInStep.yield PUnit.unit : StateM (Vfs κ ν ρ) PUnit) v = (PUnit.unit, xs.foldl fill v) := by
  induction xs generalizing v with
  | nil => rfl
  | cons x xs ih =>
    rw [List.forIn_cons]
    exact ih (v.fill x)

/-- A scan that finds its root lists one directory after another. -/
theorem scan_eq (habs : Path.isAbsolute root = true)
    (hinfo : (stat d (v.poke root).1 (v.poke root).2).1 = .ok info) :
    scan d o root v = (.ok (v.poke root).1,
      (listings d o (d.entries.length + 1) 1 root).foldl fill (stat d (v.poke root).1 (v.poke root).2).2) := by
  unfold scan
  rw [if_neg (by simp [habs]), nodeAt_bind]
  generalize (v.poke root).1 = n at *
  generalize (v.poke root).2 = v₁ at *
  have hpair : stat d n v₁ = (.ok info, (stat d n v₁).2) := Prod.ext hinfo rfl
  have hfill := forIn_fill (listings d o (d.entries.length + 1) 1 root) (stat d n v₁).2
  simp only [bind, StateT.bind] at hfill ⊢
  rw [hpair]
  have hsnd := congrArg Prod.snd hfill
  dsimp only
  exact Prod.ext rfl hsnd

/-- A scan that does not find its root fails with the reason for it. -/
theorem scan_of_error {cause : VfsError} (habs : Path.isAbsolute root = true)
    (hcause : (stat d (v.poke root).1 (v.poke root).2).1 = .error cause) : (scan d o root v).1 = .error cause := by
  unfold scan
  rw [if_neg (by simp [habs]), nodeAt_bind]
  generalize (v.poke root).1 = n, (v.poke root).2 = v₁ at *
  have hpair : stat d n v₁ = (.error cause, (stat d n v₁).2) := Prod.ext hcause rfl
  simp only [bind, StateT.bind]
  rw [hpair]
  rfl

theorem scan_of_relative (o : ScanOptions) (hrel : Path.isAbsolute root = false) (v : Vfs κ ν ρ) :
    scan d o root v = (.error (.notAbsolute root), v) := by
  unfold scan
  rw [if_pos (by simp [hrel])]
  rfl

/-! ### The look at the root -/

/-- A tree that still serves that a path leads nowhere. -/
def ServesMissing (v : Vfs κ ν ρ) (p : String) : Prop :=
  ∃ n, v.peek? p = some n ∧ (v.node n).fresh = true ∧ (v.node n).stat = .missing

/-- What the look at the root of a scan leaves: other nodes are the same, and the root's children are still there if they
can stand for entries that are accepted. -/
structure RootSeen (d : Disk) (o : ScanOptions) (root : String) (n : NodeId) (v w : Vfs κ ν ρ) : Prop where
  linked : w.Linked fun _ => True
  shape : Shape v w
  node : w.peek? root = some n
  others : ∀ m < v.nodes.size, m ≠ n → w.node m = v.node m
  keeps : ∀ e ∈ accepted d o 1 root, ∀ b ∈ (v.node n).children, (v.node b).name = e.1 → v.compatible b e.2 = true →
    b ∈ (w.node n).children

theorem RootSeen.refl (h : v.Linked fun _ => True) (hn : v.peek? root = some n) : RootSeen d o root n v v :=
  ⟨h, .refl v, hn, fun _ _ _ => rfl, fun _ _ _ hb _ _ => hb⟩

theorem rootSeen_stat {e : DiskEntry} (h : v.Linked fun _ => True) (hd : d.Real) (hn : v.peek? root = some n)
    (hs : v.served n = false) (he : d.entry (v.path n) = .ok e) (hdir : e.item.kind = .dir)
    (hlist : d.list root = d.list (v.path n)) (o : ScanOptions) : RootSeen d o root n v (stat d n v).2 := by
  have hlt : n < v.nodes.size := h.lt_of_peekFrom h.root.1 hn
  have hself := h.parent_ne hlt
  have hne : ∀ s ∈ splitPath root, s ≠ "" := fun s hs => (isName_of_mem_splitPath hs).1
  have hnoted : ∀ m, m ≠ n → (noted n (infoOf (v.node n).name e) v).node m = v.node m :=
    fun m hm => node_noted_of_dir hlt hself hdir hm
  obtain ⟨w, hw⟩ : ∃ w, w = (stat d n v).2 := ⟨_, rfl⟩
  have hlinked : w.Linked fun _ => True := hw ▸ h.stat hd.lists hlt
  have hshape : Shape v w := hw ▸ shape_of_later (looks_stat d n v)
  rw [← hw]
  suffices hnodes : (∀ m < v.nodes.size, m ≠ n → w.node m = v.node m) ∧
      ∀ e ∈ accepted d o 1 root, ∀ b ∈ (v.node n).children, (v.node b).name = e.1 → v.compatible b e.2 = true →
        b ∈ (w.node n).children from
    ⟨hlinked, hshape, h.peekFrom_of_children hshape hne hne hn hn (fun m hm hmn => by rw [hnodes.1 m hm hmn])
      fun _ => rfl, hnodes.1, hnodes.2⟩
  rcases stat_cases h hlt hs he .blank with ⟨entries, hl, -, htree, -⟩ | ⟨-, htree, -⟩ <;> rw [← hw] at htree
  · have hlinked' := h.noted n (infoOf (v.node n).name e)
    have hlt' : n < (noted n (infoOf (v.node n).name e) v).nodes.size := (size_noted ..).symm ▸ hlt
    have hrel := Relisted.syncChildren hlinked' n entries
    refine ⟨fun m hm hmn => ?_, fun x hx b hb hname hcomp => ?_⟩
    · rw [htree, hrel.node_eq ((size_noted ..).symm ▸ hm) hmn, hnoted m hmn]
    · obtain ⟨entries', hl', hmem⟩ := exists_list_of_accepted hx
      obtain rfl : entries' = entries := Except.ok.inj (hl'.symm.trans (hlist.trans hl))
      have hbn := h.ne_of_child hb
      rw [htree]
      refine mem_syncChildren hlinked' hlt' ((children_noted hlt hself n).symm ▸ hb) hmem ?_ ?_
      · rw [hnoted b hbn, hname]
      · rwa [compatible, kind?, hnoted b hbn]
  · refine ⟨fun m _ hmn => htree ▸ hnoted m hmn, fun x _ b hb _ _ => ?_⟩
    rw [htree, children_noted hlt hself n]
    exact hb

/-- The root of a scan is found, unless the tree serves that it is missing. -/
theorem rootSeen_poke {e : DiskEntry} (h : v.Linked fun _ => True) (hd : d.Real) (habs : Path.isAbsolute root = true)
    (hslash : '\\' ∉ root.toList) (he : d.entry root = .ok e) (hdir : e.item.kind = .dir)
    (hseen : ¬ v.ServesMissing root) (o : ScanOptions) :
    ∃ info, (stat d (v.poke root).1 (v.poke root).2).1 = .ok info ∧
      RootSeen d o root (v.poke root).1 (v.poke root).2 (stat d (v.poke root).1 (v.poke root).2).2 := by
  have hpoked : (v.poke root).2.Linked fun _ => True := h.pokeFrom h.root.1 fun _ _ => trivial
  have hpeek := h.peek?_poke_self root fun _ _ => trivial
  have hpath : (v.poke root).2.path (v.poke root).1 = pathOf (splitPath root) := by
    rw [path_eq_pathOf, (h.names_poke root fun _ _ => trivial).1]
  cases hs : (v.poke root).2.served (v.poke root).1 with
  | false =>
    obtain ⟨hentry, hlist⟩ := Disk.spelled_of_entry habs hslash he
    rw [← hpath] at hentry hlist
    exact ⟨_, by rw [stat_of_entry hs hentry], rootSeen_stat hpoked hd hpeek hs hentry hdir hlist.symm o⟩
  | true =>
    have hserved := hs
    rw [served, Bool.and_eq_true, bne_iff_ne] at hserved
    obtain ⟨hfresh, hknown⟩ := hserved
    cases hv : v.peek? root with
    | none => exact absurd (stat_pokeFrom h.bounded h.root.1 hv) hknown
    | some m =>
      have hpoke : v.poke root = (m, v) := pokeFrom_of_peekFrom hv
      rw [hpoke] at hs hfresh hknown ⊢
      cases hm : (v.node m).stat with
      | unknown => exact absurd hm hknown
      | missing => exact absurd ⟨m, hv, hfresh, hm⟩ hseen
      | found info =>
        refine ⟨info, ?_, by rw [stat_of_served hs]; exact .refl h hv⟩
        simp only [stat, hfresh, hm]

/-! ### The outcome -/

/-- The directories of a scan that have a node in the prior tree which can stand for them, with this node. -/
inductive Stays (d : Disk) (o : ScanOptions) (root : String) (v : Vfs κ ν ρ) : Nat → String → NodeId → Prop
  | root {n : NodeId} (hn : v.peek? root = some n) : Stays d o root v 0 root n
  | enter {k : Nat} {dir name : String} {m c : NodeId} (h : Stays d o root v k dir m) (hdeep : k + 1 < o.maxDepth)
      (hname : (name, .dir) ∈ accepted d o (k + 1) dir) (hc : v.child? m name = some c)
      (hcomp : v.compatible c .dir = true) : Stays d o root v (k + 1) (Path.join dir name) c

/-- A scan with `n` for the node of its root: each directory that is visited lists the entries that the filter accepts,
and nothing is found at or below those that it refuses. Nodes stay for entries for which they can stand, and nothing else
changes, but for a new child of the last node on the way to a root that was not in the tree. -/
structure Scanned (d : Disk) (o : ScanOptions) (root : String) (n : NodeId) (v w : Vfs κ ν ρ) : Prop where
  node : w.peek? root = some n
  lists : ∀ k dir, Visits d o root k dir →
    ∃ c, w.peek? dir = some c ∧ w.Displays c (accepted d o (k + 1) dir) ∧ (w.childNames c).Nodup
  refuses : ∀ k dir entries, Visits d o root k dir → d.list dir = .ok entries → ∀ e ∈ entries,
    o.accepts ⟨Path.join dir e.1, e.1, e.2, k + 1⟩ = false → ∀ rest,
      w.peekFrom rootId (splitPath dir ++ e.1 :: rest) = none
  keeps : ∀ k dir m, Stays d o root v k dir m → w.peek? dir = some m ∧ ∀ e ∈ accepted d o (k + 1) dir, ∀ c,
    v.child? m e.1 = some c → v.compatible c e.2 = true → w.child? m e.1 = some c
  fields : ∀ m < v.nodes.size, m ≠ n → w.node m = { v.node m with children := (w.node m).children }
  others : ∀ m < v.nodes.size, (∀ k dir, Visits d o root k dir → w.peek? dir ≠ some m) →
    w.node m = v.node m ∨
      ∃ pre s rest, splitPath root = pre ++ s :: rest ∧ v.peekFrom rootId pre = some m ∧ v.child? m s = none ∧
        w.node m = { v.node m with children := (v.node m).children ++ [v.nodes.size] }

section Outcome

variable {done : List DirListing} (hprior : v.Linked fun _ => True) (hseen : RootSeen d o root n v v')
  (h : Filled (splitPath root) n v' w done) (hd : d.Real) (hplain : Undivided d o root)
  (hdone : ∀ x, x ∈ done ↔ ∃ k, Visits d o root k x.1 ∧ x.2 = accepted d o (k + 1) x.1)

include h hdone

theorem Filled.displays {dir : String} (hdir : Visits d o root k dir) :
    ∃ c, w.peek? dir = some c ∧ w.Displays c (accepted d o (k + 1) dir) :=
  h.lists (dir, _) ((hdone _).mpr ⟨k, hdir, rfl⟩)

include hd in
theorem Filled.refuses {dir : String} (hdir : Visits d o root k dir) (hl : d.list dir = .ok entries)
    {e : String × FileKind} (he : e ∈ entries) (hno : o.accepts ⟨Path.join dir e.1, e.1, e.2, k + 1⟩ = false)
    (rest : List String) : w.peekFrom rootId (splitPath dir ++ e.1 :: rest) = none := by
  obtain ⟨c, hc, hdisplays⟩ := h.displays hdone hdir
  have hnot : e.1 ∉ w.childNames c := fun hmem => by
    rw [hdisplays.names] at hmem
    obtain ⟨e', he', hname⟩ := List.mem_map.mp hmem
    rw [accepted, hl] at he'
    obtain ⟨hmem', hyes⟩ := List.mem_filter.mp he'
    obtain rfl := List.inj_on_of_nodup_map (hd.lists dir entries hl).2 hmem' he hname
    rw [hno] at hyes
    cases hyes
  have hnone : w.child? c e.1 = none := by
    rw [child?, List.find?_eq_none]
    exact fun a ha hname => hnot (List.mem_map.mpr ⟨a, ha, of_decide_eq_true hname⟩)
  rw [peek?] at hc
  rw [peekFrom_append, hc]
  simp only [Option.bind_some, peekFrom, hnone]

include hprior hseen

theorem Filled.keeps_child {dir : String} (hdir : Visits d o root k dir) (hle : n ≤ m) (hm : v'.peek? dir = some m)
    (hm' : w.peek? dir = some m) {e : String × FileKind} (he : e ∈ accepted d o (k + 1) dir)
    (hc : v.child? m e.1 = some c) (hcomp : v.compatible c e.2 = true) (hmem : c ∈ (v'.node m).children) :
    v'.child? m e.1 = some c ∧ w.child? m e.1 = some c := by
  obtain ⟨hold, hname⟩ := child?_eq_some hc
  obtain ⟨hlt, hparent⟩ := hprior.children m c hold
  have hcn : c ≠ n := Nat.ne_of_gt (Nat.lt_of_le_of_lt hle (hprior.name c hlt m hparent).1)
  have hnode : v'.node c = v.node c := hseen.others c hlt hcn
  have hlt' : c < v'.nodes.size := (hseen.linked.children m c hmem).1
  have hname' : (v'.node c).name = e.1 := hnode ▸ hname
  have hcomp' : v'.compatible c e.2 = true := by rwa [compatible, kind?, hnode]
  have hkept := h.keeps (dir, _) ((hdone _).mpr ⟨k, hdir, rfl⟩) m hm hm' e he c hmem hname' hcomp'
  have hname'' : (w.node c).name = e.1 := by rwa [h.relaid.old c hlt']
  exact ⟨hname' ▸ hseen.linked.child?_of_mem hmem, hname'' ▸ h.linked.child?_of_mem hkept⟩

include hd hplain

theorem Filled.stays {dir : String} (hroot : v.peek? root = some n) (hstays : Stays d o root v k dir m) :
    Visits d o root k dir ∧ n ≤ m ∧ v'.peek? dir = some m ∧ w.peek? dir = some m ∧
      ∀ e ∈ accepted d o (k + 1) dir, ∀ c, v.child? m e.1 = some c → v.compatible c e.2 = true →
        v'.child? m e.1 = some c ∧ w.child? m e.1 = some c := by
  induction hstays with
  | @root m hm =>
    obtain rfl := Option.some.inj (hroot.symm.trans hm)
    refine ⟨.refl, Nat.le_refl n, hseen.node, h.root, fun e he c hc hcomp => ?_⟩
    obtain ⟨hmem, hname⟩ := child?_eq_some hc
    exact h.keeps_child hprior hseen hdone .refl (Nat.le_refl n) hseen.node h.root he hc hcomp
      (hseen.keeps e he c hmem hname hcomp)
  | @enter k dir name m c _ hdeep hname hc hcomp ih =>
    obtain ⟨hdir, hle, hm, hm', hchildren⟩ := ih
    obtain ⟨hc', hc''⟩ := hchildren (name, .dir) hname c hc hcomp
    obtain ⟨hlt, hparent⟩ := hprior.children m c (child?_eq_some hc).1
    have hlt' : n < c := Nat.lt_of_le_of_lt hle (hprior.name c hlt m hparent).1
    have hspelled := splitPath_entered hd hplain hdir hdeep hname
    have hpeek : ∀ u : Vfs κ ν ρ, u.peek? dir = some m → u.child? m name = some c →
        u.peek? (Path.join dir name) = some c := fun u hu huc => by
      rw [peek?] at hu ⊢
      rw [hspelled, peekFrom_concat, hu]
      exact huc
    refine ⟨hdir.enter hdeep hname, hlt'.le, hpeek v' hm hc', hpeek w hm' hc'', fun e he b hb hcomp => ?_⟩
    refine h.keeps_child hprior hseen hdone (hdir.enter hdeep hname) hlt'.le (hpeek v' hm hc') (hpeek w hm' hc'') he
      hb hcomp ?_
    rw [hseen.others c hlt (Nat.ne_of_gt hlt')]
    exact (child?_eq_some hb).1

end Outcome

theorem Stays.exists_root {dir : String} (h : Stays d o root v k dir m) : ∃ n, v.peek? root = some n := by
  induction h with
  | root hn => exact ⟨_, hn⟩
  | enter _ _ _ _ _ ih => exact ih

/-- A scan that finds its root lists what it visits. -/
theorem exists_filled_scan (hd : d.Real) (habs : Path.isAbsolute root = true) (hplain : Undivided d o root)
    (hinfo : (stat d (v.poke root).1 (v.poke root).2).1 = .ok info)
    (hseen : RootSeen d o root (v.poke root).1 (v.poke root).2 (stat d (v.poke root).1 (v.poke root).2).2) :
    ∃ done : List DirListing, (∀ x, x ∈ done ↔ ∃ k, Visits d o root k x.1 ∧ x.2 = accepted d o (k + 1) x.1) ∧
      Filled (splitPath root) (v.poke root).1 (stat d (v.poke root).1 (v.poke root).2).2 (scan d o root v).2 done := by
  refine ⟨(listings d o (d.entries.length + 1) 1 root).reverse ++ [], fun x => ?_, ?_⟩
  · rw [List.append_nil, List.mem_reverse, mem_listings_iff hd]
  · rw [scan_eq habs hinfo]
    refine Filled.foldl_fill ⟨hseen.linked, .refl _, hseen.node, by simp, fun _ _ _ => rfl, by simp⟩ hseen.linked
      (fun s hs => (isName_of_mem_splitPath hs).1) (orderly_listings hd hplain .refl (.inl rfl) (by simp)) fun x hx => ?_
    obtain ⟨j, -, heq⟩ := reach_of_mem_listings hx
    exact heq ▸ nodup_accepted hd o (j + 1) x.1

/-- A scan of a directory given by an absolute path finds it and lists what the filter accepts, whatever was in the tree
before, unless the tree serves that there is no such directory. No visited directory may have a backslash in its path. A
path that is not absolute is refused. -/
theorem scanned_scan (h : v.Linked fun _ => True) (hd : d.Real) (o : ScanOptions) (root : String) :
    (Path.isAbsolute root = false → scan d o root v = (.error (.notAbsolute root), v)) ∧
      (Path.isAbsolute root = true → '\\' ∉ root.toList → Undivided d o root →
        ∀ e, d.entry root = .ok e → e.item.kind = .dir → ¬ v.ServesMissing root →
          ∃ n, (scan d o root v).1 = .ok n ∧ Scanned d o root n v (scan d o root v).2) := by
  refine ⟨fun hrel => scan_of_relative o hrel v, fun habs hslash hplain e he hdir hmissing => ?_⟩
  obtain ⟨info, hinfo, hseen⟩ := rootSeen_poke h hd habs hslash he hdir hmissing o
  obtain ⟨done, hdone, hfilled⟩ := exists_filled_scan hd habs hplain hinfo hseen
  have hok : (scan d o root v).1 = .ok (v.poke root).1 := by rw [scan_eq habs hinfo]
  -- The root's ancestors are made first, and then it is looked at.
  have hrelaid : Relaid v (v.poke root).2 := .pokeFrom (splitPath root) v rootId
  have hsize : ∀ {m}, m < v.nodes.size → m < (v.poke root).2.nodes.size := fun hm => Nat.lt_of_lt_of_le hm hrelaid.size_le
  have hsize' : ∀ {m}, m < v.nodes.size → m < (stat d (v.poke root).1 (v.poke root).2).2.nodes.size := fun hm =>
    Nat.lt_of_lt_of_le (hsize hm) hseen.shape.size_le
  refine ⟨_, hok, ?_⟩
  constructor
  case node => exact hfilled.root
  case lists =>
    intro k dir hvisits
    obtain ⟨c, hc, hdisplays⟩ := hfilled.displays hdone hvisits
    exact ⟨c, hc, hdisplays, hfilled.linked.distinct c⟩
  case refuses =>
    intro k dir entries hvisits hl e hmem hno
    exact hfilled.refuses hd hdone hvisits hl hmem hno
  case keeps =>
    intro k dir m hstays
    obtain ⟨n, hn⟩ := hstays.exists_root
    have hpoke : v.poke root = (n, v) := pokeFrom_of_peekFrom hn
    rw [hpoke] at hseen hfilled
    obtain ⟨-, -, -, hpeek, hkeeps⟩ := hfilled.stays h hseen hd hplain hdone hn hstays
    exact ⟨hpeek, fun e he c hc hcomp => (hkeeps e he c hc hcomp).2⟩
  case fields =>
    intro m hm hmn
    have hold := hfilled.relaid.old m (hsize' hm)
    rw [hseen.others m (hsize hm) hmn, hrelaid.old m hm] at hold
    exact hold
  case others =>
    intro m hm hother
    have hmn : m ≠ (v.poke root).1 := fun heq => hother 0 root .refl (heq ▸ hfilled.root)
    have hsame : (scan d o root v).2.node m = (v.poke root).2.node m := by
      rw [hfilled.others m (hsize' hm), hseen.others m (hsize hm) hmn]
      intro x hx
      obtain ⟨k, hvisits, -⟩ := (hdone x).mp hx
      exact hother k x.1 hvisits
    rw [hsame]
    exact node_pokeFrom h.bounded h.root.1 (splitPath root) hm

/-- A directory with sources, a hidden directory and an empty one. -/
def burrow : Disk := ⟨[(["r"], ⟨.dir, 1⟩), (["r", "a"], ⟨.dir, 1⟩), (["r", "a", "f"], ⟨.file [] none, 1⟩),
  (["r", ".git"], ⟨.dir, 1⟩), (["r", ".git", "x"], ⟨.file [] none, 1⟩), (["r", "e"], ⟨.dir, 1⟩)]⟩

/-- Two levels without noise. -/
def sources : ScanOptions := ⟨2, fun e => !isNoise e.name⟩

/-- A source and a hidden file were asked for. -/
def wandered : Vfs Unit Unit Unit := (((make .never).poke "/r/a/f").2.poke "/r/.git/x").2

theorem scanned_scan_wandered : ∃ n, (scan burrow sources "/r" wandered).1 = .ok n ∧
    Scanned burrow sources "/r" n wandered (scan burrow sources "/r" wandered).2 ∧
    (scan burrow sources "/r" wandered).2.peek? "/r/.git/x" = none := by
  have hreal : burrow.Real := ⟨by decide, by decide⟩
  have hlinked : wandered.Linked fun _ => True :=
    ((Linked.make .never).pokeFrom (by decide) fun _ _ => trivial).pokeFrom (by decide) fun _ _ => trivial
  have hmissing : ¬ wandered.ServesMissing "/r" := by
    rintro ⟨n, hn, -, hstat⟩
    obtain rfl : 1 = n := Option.some.inj ((show wandered.peek? "/r" = some 1 by cbv).symm.trans hn)
    rw [show (wandered.node 1).stat = .unknown by cbv] at hstat
    cases hstat
  obtain ⟨n, hn, hscanned⟩ := (scanned_scan hlinked hreal sources "/r").2 (by decide) (by decide)
    (undivided_of_plain (by decide) sources "/r") ⟨.dir, 1⟩ (by cbv) rfl hmissing
  refine ⟨n, hn, hscanned, ?_⟩
  exact hscanned.refuses 0 "/r" [("a", .dir), (".git", .dir), ("e", .dir)] .refl (by cbv) (".git", .dir) (by decide)
    (by decide) ["x"]

/-- Two directories, one with a backslash in its name. -/
def cloven : Disk := ⟨[(["r"], ⟨.dir, 1⟩), (["a\\b"], ⟨.dir, 1⟩)]⟩

/-- Two levels of everything. -/
def everything : ScanOptions := ⟨2, fun _ => true⟩

/-- A directory was looked for before it was made. -/
def awaited : Vfs Unit Unit Unit := (stat .empty 1 ((make .never).poke "/r").2).2

/-- A backslash divides names in a tree, and what a tree knows to be missing is not looked for. -/
theorem not_scanned : cloven.Real ∧
    (cloven.entry "/" = .ok ⟨.dir, 0⟩ ∧ cloven.entry "/a\\b" = .ok ⟨.dir, 1⟩ ∧ cloven.entry "/r" = .ok ⟨.dir, 1⟩) ∧
    (∀ n, ¬ Scanned cloven everything "/" n (make .never : Vfs Unit Unit Unit)
      (scan cloven everything "/" (make .never)).2) ∧
    (scan cloven everything "/a\\b" (make .never : Vfs Unit Unit Unit)).1 = .error (.notExist "/a/b") ∧
    (scan cloven everything "/r" awaited).1 = .error (.notExist "/r") := by
  refine ⟨⟨by decide, by decide⟩, ⟨by cbv, by cbv, by cbv⟩, fun n h => ?_, scan_of_error (by decide) (by cbv),
    scan_of_error (by decide) (by cbv)⟩
  have hlist : cloven.list "/" = .ok [("r", .dir), ("a\\b", .dir)] := by cbv
  have haccepted : accepted cloven everything 1 "/" = [("r", .dir), ("a\\b", .dir)] := by
    rw [accepted, hlist]
    rfl
  -- The second directory that is visited is found by way of a name that the first one does not list.
  obtain ⟨c, hc, hdisplays, -⟩ := h.lists 0 "/" .refl
  obtain ⟨c', hc', -⟩ := h.lists 1 (Path.join "/" "a\\b") (.enter .refl (by decide) (by simp [haccepted]))
  rw [peek?, show splitPath "/" = [] by decide] at hc
  cases hc
  rw [peek?, show splitPath (Path.join "/" "a\\b") = ["a", "b"] by decide, peekFrom] at hc'
  split at hc'
  · next b hb =>
    obtain ⟨hmem, hname⟩ := child?_eq_some hb
    have hlisted : "a" ∈ (scan cloven everything "/" (make .never : Vfs Unit Unit Unit)).2.childNames rootId :=
      List.mem_map.mpr ⟨b, hmem, hname⟩
    rw [hdisplays.names, haccepted] at hlisted
    simp at hlisted
  · cases hc'

end EditorAgent.Vfs

import EditorAgent.Proofs.Vfs.Later

/-!
# Trees whose nodes are linked to each other

In a linked tree a child has the node that lists it for its parent, and siblings have names of their own. Making
nodes, listing directories and looking at a disk keep a tree linked, and keep to the names that are allowed in it.
-/

namespace EditorAgent

/-- Every directory lists names that are allowed, each of them once. -/
def Disk.Lists (P : String → Prop) (d : Disk) : Prop :=
  ∀ path entries, d.list path = .ok entries → (∀ e ∈ entries, P e.1) ∧ (entries.map (·.1)).Nodup

namespace Vfs

variable {κ ν ρ : Type} {P : String → Prop} {v v' : Vfs κ ν ρ} {n m c : NodeId} {s t : String}

structure Linked (P : String → Prop) (v : Vfs κ ν ρ) : Prop where
  root : rootId < v.nodes.size ∧ (v.node rootId).parent = none ∧ (v.node rootId).name = ""
  name : ∀ n < v.nodes.size, ∀ p, (v.node n).parent = some p → p < n ∧ P (v.node n).name
  children : ∀ n, ∀ c ∈ (v.node n).children, c < v.nodes.size ∧ (v.node c).parent = some n
  distinct : ∀ n, (v.childNames n).Nodup

theorem node_of_size_le (h : v.nodes.size ≤ n) : v.node n = default := by
  rw [node, Array.getD_eq_getD_getElem?, Array.getElem?_eq_none h]
  rfl

theorem mem_pokeChild (hn : n < v.nodes.size) (s : String) :
    (v.pokeChild n s).1 ∈ ((v.pokeChild n s).2.node n).children ∧
      ((v.pokeChild n s).2.node (v.pokeChild n s).1).name = s := by
  rw [Vfs.pokeChild]
  cases hc : v.child? n s with
  | some c => exact child?_eq_some hc
  | none =>
    have hnew : (v.appendChild n s none).1 = v.nodes.size := rfl
    dsimp only
    rw [hnew]
    constructor
    · rw [node_appendChild none hn hn, if_pos rfl]
      exact List.mem_append_right _ List.mem_cons_self
    · rw [appendChild_snd, node_modifyNode_of_ne _ (Nat.ne_of_gt hn), node_makeNode, if_pos rfl]

namespace Linked

theorem bounded (h : v.Linked P) : v.Bounded := ⟨h.root.1, fun n c hc => (h.children n c hc).1⟩

theorem make (e : Expiry) : (make e : Vfs κ ν ρ).Linked P := by
  have hnode : ∀ n, (Vfs.make e : Vfs κ ν ρ).node n = { parent := none, name := "" } := by
    intro n
    cases n with
    | zero => rfl
    | succ n => exact node_of_size_le (by simp [Vfs.make])
  refine ⟨⟨by simp [Vfs.make, rootId], rfl, rfl⟩, ?_, ?_, ?_⟩ <;> simp [hnode, childNames]

theorem parent_ne (h : v.Linked P) (hn : n < v.nodes.size) : (v.node n).parent ≠ some n :=
  fun hp => Nat.lt_irrefl n (h.name n hn n hp).1

theorem ne_of_child {c : NodeId} (h : v.Linked P) (hc : c ∈ (v.node n).children) : c ≠ n := by
  obtain ⟨hlt, hparent⟩ := h.children n c hc
  rintro rfl
  exact h.parent_ne hlt hparent

theorem of_nodes (h : v.Linked P) (hnodes : v'.nodes = v.nodes) : v'.Linked P := by
  have hnode : ∀ n, v'.node n = v.node n := fun n => by rw [node, node, hnodes]
  refine ⟨?_, ?_, ?_, ?_⟩ <;> simp only [hnode, hnodes, childNames]
  · exact h.root
  · exact h.name
  · exact h.children
  · exact h.distinct

theorem makeNode (h : v.Linked P) (hn : n < v.nodes.size) (hs : P s) (kind : Option FileKind) :
    (v.makeNode n s kind).2.Linked P := by
  have hold : ∀ m < v.nodes.size, (v.makeNode n s kind).2.node m = v.node m := fun m hm => by
    rw [node_makeNode, if_neg (Nat.ne_of_lt hm)]
  have hchildren : ∀ m, ((v.makeNode n s kind).2.node m).children = (v.node m).children :=
    (Later.Bare.makeNode v n s kind).children
  refine ⟨?_, fun m hm p hp => ?_, fun m c hc => ?_, fun m => ?_⟩
  · rw [hold _ h.root.1, size_makeNode]
    exact ⟨Nat.lt_succ_of_lt h.root.1, h.root.2⟩
  · rw [node_makeNode] at hp ⊢
    split at hp
    · next hnew =>
      cases hp
      rw [if_pos hnew]
      exact ⟨hnew ▸ hn, hs⟩
    · next hne =>
      rw [if_neg hne]
      rw [size_makeNode] at hm
      exact h.name m (Nat.lt_of_le_of_ne (Nat.le_of_lt_succ hm) hne) p hp
  · rw [hchildren] at hc
    obtain ⟨hlt, hp⟩ := h.children m c hc
    rw [hold c hlt, size_makeNode]
    exact ⟨Nat.lt_succ_of_lt hlt, hp⟩
  · have hnames : (v.makeNode n s kind).2.childNames m = v.childNames m := by
      rw [childNames, hchildren]
      exact List.map_congr_left fun c hc => by rw [hold c (h.children m c hc).1]
    rw [hnames]
    exact h.distinct m

section Relisting

variable {f : Node κ ν → Node κ ν} (hparent : ∀ nd, (f nd).parent = nd.parent) (hname : ∀ nd, (f nd).name = nd.name)

include hparent hname

/-- A node may be given any children that have it for their parent and names of their own. -/
theorem setChildren (h : v.Linked P)
    (hcs : ∀ c ∈ (f (v.node n)).children, c < v.nodes.size ∧ (v.node c).parent = some n)
    (hnames : ((f (v.node n)).children.map fun c => (v.node c).name).Nodup) : (v.modifyNode n f).Linked P := by
  have hparent : ∀ m, ((v.modifyNode n f).node m).parent = (v.node m).parent := fun m => by
    rw [node_modifyNode]
    split
    · exact hparent _
    · rfl
  have hname : ∀ m, ((v.modifyNode n f).node m).name = (v.node m).name := fun m => by
    rw [node_modifyNode]
    split
    · exact hname _
    · rfl
  refine ⟨?_, fun m hm p hp => ?_, fun m c hc => ?_, fun m => ?_⟩
  · rw [hparent, hname, size_modifyNode]
    exact h.root
  · rw [hname]
    rw [hparent] at hp
    exact h.name m (by simpa using hm) p hp
  · rw [hparent, size_modifyNode]
    rw [node_modifyNode] at hc
    split at hc
    · next hm =>
      obtain rfl := hm.1
      exact hcs c hc
    · exact h.children m c hc
  · have hmap : ∀ l : List NodeId, (l.map fun c => ((v.modifyNode n f).node c).name) = l.map fun c => (v.node c).name :=
      fun l => List.map_congr_left fun c _ => hname c
    rw [childNames, hmap, node_modifyNode]
    split
    · next hm =>
      obtain rfl := hm.1
      exact hnames
    · exact h.distinct m

/-- A node is looked at, and may lose children. -/
theorem modifyNode (h : v.Linked P) (hchildren : ∀ nd, (f nd).children.Sublist nd.children) :
    (v.modifyNode n f).Linked P :=
  h.setChildren hparent hname (fun c hc => h.children n c ((hchildren _).subset hc))
    (((hchildren _).map _).nodup (h.distinct n))

end Relisting

theorem clearMemo (h : v.Linked P) (n : NodeId) : (v.clearMemo n).Linked P := by
  have htick : v.tick.2.Linked P := h.of_nodes rfl
  have hcleared : (v.cleared n).Linked P := htick.modifyNode (fun _ => rfl) (fun _ => rfl) fun _ => .refl _
  exact hcleared.of_nodes (marks_clearMemo v n).nodes

theorem appendChild (h : v.Linked P) (hn : n < v.nodes.size) (hs : P s) (hnew : v.child? n s = none)
    (kind : Option FileKind) : (v.appendChild n s kind).2.Linked P := by
  have hmade : Shape v (v.makeNode n s kind).2 := .makeNode v n s kind
  have hlast : (v.makeNode n s kind).2.node v.nodes.size = { parent := some n, name := s, kind } := by
    rw [node_makeNode, if_pos rfl]
  have hself : ((v.makeNode n s kind).2.node n).children = (v.node n).children :=
    (Later.Bare.makeNode v n s kind).children n
  rw [appendChild_snd]
  refine (h.makeNode hn hs kind).setChildren (fun _ => rfl) (fun _ => rfl) ?_ ?_ <;> dsimp only <;> rw [hself]
  · intro c hc
    rcases List.mem_append.mp hc with hc | hc
    · obtain ⟨hlt, hp⟩ := h.children n c hc
      exact ⟨Nat.lt_of_lt_of_le hlt hmade.size_le, (hmade.parent c hlt).trans hp⟩
    · obtain rfl := List.mem_singleton.mp hc
      rw [hlast]
      exact ⟨by simp, rfl⟩
  · have hnames : (v.node n).children.map (fun c => ((v.makeNode n s kind).2.node c).name) = v.childNames n :=
      List.map_congr_left fun c hc => hmade.name c (h.children n c hc).1
    rw [List.map_append, hnames, List.map_singleton, hlast]
    exact (h.distinct n).append (List.nodup_singleton s) (by simpa using not_mem_childNames hnew)

/-- The nodes for a listing are children of the directory and have the names in it. -/
theorem nodesFor {old : List NodeId} (entries : List (String × FileKind)) (hentries : ∀ e ∈ entries, P e.1)
    (h : v.Linked P) (hn : n < v.nodes.size) (hold : ∀ c ∈ old, c < v.nodes.size ∧ (v.node c).parent = some n) :
    (v.nodesFor n old entries).2.Linked P ∧ Shape v (v.nodesFor n old entries).2 ∧
      (∀ c ∈ (v.nodesFor n old entries).1, c < (v.nodesFor n old entries).2.nodes.size ∧
        ((v.nodesFor n old entries).2.node c).parent = some n) ∧
      (v.nodesFor n old entries).1.map (fun c => ((v.nodesFor n old entries).2.node c).name) =
        entries.map (·.1) := by
  induction entries generalizing v with
  | nil => exact ⟨h, .refl v, by simp [Vfs.nodesFor], by simp [Vfs.nodesFor]⟩
  | cons e rest ih =>
    obtain ⟨name, kind⟩ := e
    -- The node for the first entry, old or new, and the tree after it.
    obtain ⟨c, v₁, heq, hrooted, hshape, hc, hp, hname⟩ : ∃ c v₁,
        v.nodesFor n old ((name, kind) :: rest) = (c :: (v₁.nodesFor n old rest).1, (v₁.nodesFor n old rest).2) ∧
        v₁.Linked P ∧ Shape v v₁ ∧ c < v₁.nodes.size ∧ (v₁.node c).parent = some n ∧ (v₁.node c).name = name := by
      cases hfind : old.find? fun c => (v.node c).name = name && v.compatible c kind with
      | some c =>
        have hcn := List.find?_some hfind
        simp only [Bool.and_eq_true, decide_eq_true_eq] at hcn
        obtain ⟨hlt, hp⟩ := hold c (List.mem_of_find?_eq_some hfind)
        exact ⟨c, v, by rw [Vfs.nodesFor, hfind], h, .refl v, hlt, hp, hcn.1⟩
      | none =>
        refine ⟨v.nodes.size, (v.makeNode n name (some kind)).2, ?_, h.makeNode hn (hentries _ List.mem_cons_self) _,
          .makeNode v n name _, by simp, ?_, ?_⟩
        · rw [Vfs.nodesFor, hfind]
          rfl
        · rw [node_makeNode, if_pos rfl]
        · rw [node_makeNode, if_pos rfl]
    obtain ⟨hrooted', hshape', hcs, hnames⟩ := ih (fun x hx => hentries x (List.mem_cons_of_mem _ hx)) hrooted
      (Nat.lt_of_lt_of_le hn hshape.size_le) fun x hx =>
        ⟨Nat.lt_of_lt_of_le (hold x hx).1 hshape.size_le, (hshape.parent x (hold x hx).1).trans (hold x hx).2⟩
    rw [heq]
    refine ⟨hrooted', hshape.trans hshape', fun x hx => ?_, ?_⟩
    · rcases List.mem_cons.mp hx with rfl | hx
      · exact ⟨Nat.lt_of_lt_of_le hc hshape'.size_le, (hshape'.parent x hc).trans hp⟩
      · exact hcs x hx
    · rw [List.map_cons, hnames, hshape'.name c hc, hname]
      rfl

theorem syncChildren {entries : List (String × FileKind)} (h : v.Linked P) (hn : n < v.nodes.size)
    (hentries : ∀ e ∈ entries, P e.1) (hnodup : (entries.map (·.1)).Nodup) :
    (v.syncChildren n entries).Linked P := by
  obtain ⟨hrooted, -, hcs, hnames⟩ := nodesFor entries hentries h hn (h.children n)
  exact hrooted.setChildren (fun _ => rfl) (fun _ => rfl) hcs (hnames ▸ hnodup)

theorem pokeChild (h : v.Linked P) (hn : n < v.nodes.size) (hs : P s) : (v.pokeChild n s).2.Linked P := by
  rw [Vfs.pokeChild]
  split
  · exact h
  · next hnew => exact h.appendChild hn hs hnew none

theorem pokeChild_lt (h : v.Linked P) (hn : n < v.nodes.size) (s : String) :
    (v.pokeChild n s).1 < (v.pokeChild n s).2.nodes.size :=
  pokeFrom_lt h.bounded hn [s]

theorem pokeFrom {names : List String} (h : v.Linked P) (hn : n < v.nodes.size) (hnames : ∀ s ∈ names, P s) :
    (v.pokeFrom n names).2.Linked P := by
  induction names generalizing v n with
  | nil => exact h
  | cons s names ih =>
    exact ih (h.pokeChild hn (hnames s List.mem_cons_self)) (h.pokeChild_lt hn s) fun t ht =>
      hnames t (List.mem_cons_of_mem s ht)

theorem poke_lt (h : v.Linked P) (path : String) : (v.poke path).1 < (v.poke path).2.nodes.size :=
  nodeAt_lt h.bounded path

/-! ### Looking at a disk -/

variable {d : Disk}

theorem rescan (hd : d.Lists P) (h : v.Linked P) (hn : n < v.nodes.size) : (rescan d n v).Linked P := by
  rw [Vfs.rescan]
  split
  · next entries hl => exact h.syncChildren hn (hd _ _ hl).1 (hd _ _ hl).2
  · exact h

theorem observeMissing (h : v.Linked P) (n : NodeId) : (observeMissing n v).Linked P := by
  unfold Vfs.observeMissing
  extract_lets existed keep seen
  have hseen : seen.Linked P := by
    refine h.modifyNode (fun _ => rfl) (fun _ => rfl) fun nd => ?_
    dsimp only
    split
    · exact .refl _
    · exact List.nil_sublist _
  split
  · exact hseen.clearMemo n
  · exact hseen

theorem observeFound (hd : d.Lists P) (h : v.Linked P) (hn : n < v.nodes.size) (info : FileInfo) :
    (observeFound d n info v).Linked P := by
  unfold Vfs.observeFound
  extract_lets change seen cleared
  have hseen : seen.Linked P := h.modifyNode (fun _ => rfl) (fun _ => rfl) fun _ => .refl _
  have hcleared : cleared.Linked P := by
    unfold cleared
    split
    · exact hseen
    · exact hseen.clearMemo n
  have hlt : n < cleared.nodes.size := by
    have hmarks := (marks_clearMemo seen n).nodes
    unfold cleared
    split
    · simpa [seen] using hn
    · rw [hmarks]
      simpa [Vfs.cleared, tick, seen] using hn
  split
  · exact hseen
  split
  · exact hcleared.rescan hd hlt
  split
  · exact hcleared
  split
  · next p _ => exact hcleared.clearMemo p
  · exact hcleared

theorem stat (hd : d.Lists P) (h : v.Linked P) (hn : n < v.nodes.size) : (stat d n v).2.Linked P := by
  unfold Vfs.stat
  dsimp only
  split
  · exact h
  · exact h
  · rw [sync]
    split
    · exact h.observeMissing n
    · exact h.observeFound hd hn _

theorem mem_lineage_lt (h : v.Linked P) (hn : n < v.nodes.size) (hm : m ∈ v.lineage n) : m < v.nodes.size := by
  induction n using Nat.strongRecOn with
  | ind n ih =>
    rw [lineage] at hm
    split at hm
    · next p hp =>
      obtain ⟨hlt, -⟩ := h.name n hn p hp
      rw [dif_pos hlt] at hm
      rcases List.mem_cons.mp hm with rfl | hm
      · exact hn
      · exact ih p hlt (Nat.lt_trans hlt hn) hm
    · obtain rfl := List.mem_singleton.mp hm
      exact hn

theorem child?_of_mem (h : v.Linked P) (hc : c ∈ (v.node n).children) : v.child? n (v.node c).name = some c := by
  cases hfind : v.child? n (v.node c).name with
  | none => exact absurd (List.mem_map_of_mem hc) (not_mem_childNames hfind)
  | some c' =>
    obtain ⟨hc', hname⟩ := child?_eq_some hfind
    exact congrArg some (List.inj_on_of_nodup_map (h.distinct n) hc' hc hname)

theorem names_root (h : v.Linked P) : v.names rootId = [] := by
  rw [names_step, h.root.2.1, h.root.2.2]
  simp

theorem names_of_mem (h : v.Linked P) (hc : c ∈ (v.node n).children) (hne : (v.node c).name ≠ "") :
    v.names c = v.names n ++ [(v.node c).name] := by
  obtain ⟨hlt, hp⟩ := h.children n c hc
  exact names_child hp (h.name c hlt n hp).1 rfl hne

/-- Names lead to a node that has them, and the last one is its own. -/
theorem names_pokeFrom {names : List String} (h : v.Linked P) (hn : n < v.nodes.size)
    (hnames : ∀ s ∈ names, P s ∧ s ≠ "") :
    (v.pokeFrom n names).2.names (v.pokeFrom n names).1 = v.names n ++ names ∧
      ((v.pokeFrom n names).2.node (v.pokeFrom n names).1).name = names.getLastD (v.node n).name := by
  induction names generalizing v n with
  | nil => exact ⟨(List.append_nil _).symm, rfl⟩
  | cons s names ih =>
    obtain ⟨hs, hne⟩ := hnames s List.mem_cons_self
    have hpoked := h.pokeChild hn hs
    obtain ⟨hmem, hname⟩ := mem_pokeChild hn s
    have hchild := hpoked.names_of_mem hmem (hname.symm ▸ hne)
    have hlater : Later (fun _ => True) v (v.pokeChild n s).2 := later_pokeChild v n s
    rw [hname, hlater.toShape.names_eq hn] at hchild
    obtain ⟨hrest, hlast⟩ := ih hpoked (h.pokeChild_lt hn s) fun t ht => hnames t (List.mem_cons_of_mem s ht)
    rw [hchild, List.append_assoc] at hrest
    rw [hname] at hlast
    exact ⟨hrest, hlast.trans (List.getLastD_cons ..).symm⟩

theorem names_poke (h : v.Linked P) (path : String) (hnames : ∀ s ∈ splitPath path, P s) :
    (v.poke path).2.names (v.poke path).1 = splitPath path ∧
      ((v.poke path).2.node (v.poke path).1).name = (splitPath path).getLastD "" := by
  have hpoked := h.names_pokeFrom h.root.1 fun s hs => ⟨hnames s hs, (isName_of_mem_splitPath hs).1⟩
  rwa [h.names_root, List.nil_append, h.root.2.2] at hpoked

end Linked

/-- A child is taken out of the tree. -/
def dropChild (v : Vfs κ ν ρ) (n c : NodeId) : Vfs κ ν ρ :=
  v.modifyNode n fun nd => { nd with children := nd.children.erase c }

theorem Linked.dropChild (h : v.Linked P) (n c : NodeId) : (v.dropChild n c).Linked P :=
  h.modifyNode (fun _ => rfl) (fun _ => rfl) fun _ => List.erase_sublist

/-- What is taken out is no longer found, and all else is found as before. -/
theorem Linked.child?_dropChild (h : v.Linked P) (hc : v.child? n s = some c) (m : NodeId) (t : String) :
    (v.dropChild n c).child? m t = if m = n ∧ t = s then none else v.child? m t := by
  obtain ⟨hmem, rfl⟩ := child?_eq_some hc
  have hname : ∀ a, ((v.dropChild n c).node a).name = (v.node a).name := fun a => by
    rw [Vfs.dropChild, node_modifyNode]
    split <;> rfl
  have hnodup : (v.node n).children.Nodup := (h.distinct n).of_map
  have hlt : n < v.nodes.size := by
    by_contra hlt
    rw [node_of_size_le (Nat.le_of_not_lt hlt)] at hmem
    cases hmem
  rw [child?, child?]
  simp only [hname]
  by_cases hm : m = n
  · subst hm
    have hself : ((v.dropChild m c).node m).children = (v.node m).children.filter (· != c) := by
      rw [Vfs.dropChild, node_modifyNode_self _ hlt, ← hnodup.erase_eq_filter]
    rw [hself, List.find?_filter]
    by_cases ht : t = (v.node c).name
    · rw [if_pos ⟨rfl, ht⟩, List.find?_eq_none]
      intro a ha
      have hinj := List.inj_on_of_nodup_map (h.distinct m) ha hmem
      grind
    · rw [if_neg fun hand => ht hand.2]
      congr 1
      funext a
      grind
  · have hother : ((v.dropChild n c).node m).children = (v.node m).children := by
      rw [Vfs.dropChild, node_modifyNode_of_ne _ hm]
    rw [hother, if_neg fun hand => hm hand.1]

/-- A child is added where the tree has none of its name, or one that is of another kind. -/
theorem Linked.addChild (h : v.Linked P) (hn : n < v.nodes.size) (hs : P s) (kind : FileKind) :
    (v.addChild n s kind).2.Linked P := by
  rw [Vfs.addChild]
  split
  · next hnew => exact h.appendChild hn hs hnew _
  split
  · exact h
  · next c hc _ =>
    refine (h.dropChild n c).appendChild (by simpa [Vfs.dropChild] using hn) hs ?_ _
    rw [h.child?_dropChild hc, if_pos ⟨rfl, rfl⟩]

end Vfs
end EditorAgent

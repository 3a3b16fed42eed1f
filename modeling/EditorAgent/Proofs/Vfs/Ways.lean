import EditorAgent.Proofs.Vfs.Noting
import EditorAgent.Proofs.Vfs.Rooted

/-!
# The way to a node

A path leads to a node by way of the children of those before it. It leads there still as long as these keep their
children, and a path that was asked for leads to what it was answered.
-/

namespace EditorAgent.Vfs

variable {κ ν ρ : Type} {P : String → Prop} {v v' : Vfs κ ν ρ} {n m c : NodeId} {s : String} {ns names : List String}

theorem nodeAt_bind {α : Type} (p : String) (f : NodeId → StateM (Vfs κ ν ρ) α) (v : Vfs κ ν ρ) :
    (nodeAt p >>= f) v = f (v.poke p).1 (v.poke p).2 := rfl

/-- Names lead where they led if each is found where it was found. -/
theorem peekFrom_of_child? (h : v.peekFrom n ns = some c)
    (hsame : ∀ pre s rest m, ns = pre ++ s :: rest → v.peekFrom n pre = some m → v'.child? m s = v.child? m s) :
    v'.peekFrom n ns = some c := by
  induction ns generalizing n with
  | nil => exact h
  | cons s ns ih =>
    have hfirst := hsame [] s ns n rfl rfl
    rw [peekFrom] at h ⊢
    split at h
    · next a ha =>
      rw [hfirst, ha]
      refine ih h fun pre t rest m hns hm => hsame (s :: pre) t rest m (by rw [hns]; rfl) ?_
      rw [peekFrom, ha]
      exact hm
    · cases h

namespace Linked

theorem child?_eq (h : v.Linked P) (hshape : Shape v v') (hchildren : (v'.node m).children = (v.node m).children)
    (s : String) : v'.child? m s = v.child? m s := by
  rw [child?, child?, hchildren]
  exact List.find?_congr fun a ha => by rw [hshape.name a (h.children m a ha).1]

/-- Names lead to no node but the one that has them. -/
theorem names_of_peekFrom (h : v.Linked P) (hns : ∀ s ∈ ns, s ≠ "") (hn : v.peekFrom rootId ns = some n) :
    v.names n = ns := by
  induction ns using List.reverseRecOn generalizing n with
  | nil =>
    cases hn
    exact h.names_root
  | append_singleton ns s ih =>
    rw [peekFrom_concat] at hn
    obtain ⟨m, hm, hc⟩ := Option.bind_eq_some_iff.mp hn
    obtain ⟨hmem, rfl⟩ := child?_eq_some hc
    rw [h.names_of_mem hmem (hns _ (by simp)), ih (fun t ht => hns t (List.mem_append_left _ ht)) hm]

/-- Names lead to a node of the tree. -/
theorem lt_of_peekFrom (h : v.Linked P) (hn : n < v.nodes.size) (hc : v.peekFrom n ns = some c) :
    c < v.nodes.size := by
  induction ns generalizing n with
  | nil => exact Option.some.inj hc ▸ hn
  | cons s ns ih =>
    rw [peekFrom] at hc
    split at hc
    · next a ha => exact ih (h.children n a (child?_eq_some ha).1).1 hc
    · cases hc

/-- Names that were asked for lead to what was answered. -/
theorem peekFrom_pokeFrom_self (h : v.Linked P) (hn : n < v.nodes.size) (hnames : ∀ s ∈ names, P s) :
    (v.pokeFrom n names).2.peekFrom n names = some (v.pokeFrom n names).1 := by
  induction names generalizing v n with
  | nil => rfl
  | cons s names ih =>
    have hpoked := h.pokeChild hn (hnames s List.mem_cons_self)
    have hlt := h.pokeChild_lt hn s
    have hrest : ∀ t ∈ names, P t := fun t ht => hnames t (List.mem_cons_of_mem s ht)
    obtain ⟨hmem, hname⟩ := mem_pokeChild hn s
    have hfirst : (v.pokeChild n s).2.peekFrom n [s] = some (v.pokeChild n s).1 := by
      have hchild := hpoked.child?_of_mem hmem
      rw [hname] at hchild
      simp only [peekFrom, hchild]
    have hkept := hpoked.peekFrom_pokeFrom hlt hrest hfirst
    have happ := peekFrom_append (v := ((v.pokeChild n s).2.pokeFrom (v.pokeChild n s).1 names).2) (n := n) [s] names
    rw [hkept] at happ
    exact happ.trans (ih hpoked hlt hrest)

theorem peek?_poke_self (h : v.Linked P) (path : String) (hnames : ∀ s ∈ splitPath path, P s) :
    (v.poke path).2.peek? path = some (v.poke path).1 :=
  h.peekFrom_pokeFrom_self h.root.1 hnames

end Linked

/-- Asking for names leaves the nodes as they were, but for the one that is the first without a child of the next
name. -/
theorem node_pokeFrom (hb : v.Bounded) (hn : n < v.nodes.size) (names : List String) (hm : m < v.nodes.size) :
    (v.pokeFrom n names).2.node m = v.node m ∨
      ∃ pre s rest, names = pre ++ s :: rest ∧ v.peekFrom n pre = some m ∧ v.child? m s = none ∧
        (v.pokeFrom n names).2.node m = { v.node m with children := (v.node m).children ++ [v.nodes.size] } := by
  induction names generalizing v n with
  | nil => exact .inl rfl
  | cons s names ih =>
    cases hc : v.child? n s with
    | some c =>
      have hpoke : v.pokeFrom n (s :: names) = v.pokeFrom c names := by rw [pokeFrom, pokeChild, hc]
      rw [hpoke]
      rcases ih hb (hb.children n c (child?_eq_some hc).1) hm with hsame | ⟨pre, t, rest, rfl, hpre, hnone, hnode⟩
      · exact .inl hsame
      · refine .inr ⟨s :: pre, t, rest, rfl, ?_, hnone, hnode⟩
        rw [peekFrom, hc]
        exact hpre
    | none =>
      -- The new node has no children, so nothing else that is old is touched.
      have hpoke : v.pokeFrom n (s :: names) = (v.appendChild n s none).2.pokeFrom v.nodes.size names := by
        rw [pokeFrom, pokeChild, hc]
        rfl
      have hsize : (v.appendChild n s none).2.nodes.size = v.nodes.size + 1 := by simp [appendChild_snd]
      have hlater : Later (fun _ => True) v (v.appendChild n s none).2 := .appendChild v n s none
      have hlast : ((v.appendChild n s none).2.node v.nodes.size).children = [] := by
        rw [appendChild_snd, node_modifyNode_of_ne _ (Nat.ne_of_gt hn), node_makeNode, if_pos rfl]
      have hold := node_appendChild (s := s) none hn hm
      have hnew : v.nodes.size < (v.appendChild n s none).2.nodes.size := by
        rw [hsize]
        exact Nat.lt_succ_self _
      have hm' : m < (v.appendChild n s none).2.nodes.size := Nat.lt_trans hm hnew
      rw [hpoke]
      rcases ih (hlater.bounded hb) hnew hm' with hsame | ⟨pre, t, rest, -, hpre, -, -⟩
      · rw [hsame, hold]
        split
        · next heq =>
          subst heq
          exact .inr ⟨[], s, names, rfl, rfl, hc, rfl⟩
        · exact .inl rfl
      · cases pre with
        | nil => exact absurd (Option.some.inj hpre) (Nat.ne_of_gt hm)
        | cons a pre => simp [peekFrom, child?, hlast] at hpre

/-- Of a node that is made when it is asked for, nothing is known. -/
theorem stat_pokeFrom (hb : v.Bounded) (hn : n < v.nodes.size) (hnone : v.peekFrom n names = none) :
    ((v.pokeFrom n names).2.node (v.pokeFrom n names).1).stat = .unknown := by
  induction names generalizing v n with
  | nil => cases hnone
  | cons s names ih =>
    rw [pokeFrom, pokeChild]
    cases hc : v.child? n s with
    | some c =>
      rw [peekFrom, hc] at hnone
      exact ih hb (hb.children n c (child?_eq_some hc).1) hnone
    | none =>
      have hlater : Later (fun _ => True) v (v.appendChild n s none).2 := .appendChild v n s none
      have hsize : (v.appendChild n s none).2.nodes.size = v.nodes.size + 1 := by simp [appendChild_snd]
      have hlast : (v.appendChild n s none).2.node v.nodes.size = { parent := some n, name := s } := by
        rw [appendChild_snd, node_modifyNode_of_ne _ (Nat.ne_of_gt hn), node_makeNode, if_pos rfl]
      cases names with
      | nil => exact congrArg Node.stat hlast
      | cons t names =>
        have hbare : (v.appendChild n s none).2.peekFrom v.nodes.size (t :: names) = none := by
          simp [peekFrom, child?, hlast]
        exact ih (hlater.bounded hb) (hsize ▸ Nat.lt_succ_self _) hbare

end EditorAgent.Vfs

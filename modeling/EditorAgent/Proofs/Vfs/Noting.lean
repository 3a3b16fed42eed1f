import EditorAgent.Proofs.Vfs.Linked

/-!
# What a look leaves at the nodes

Asking for a node and listing a directory make nodes, and give one node other children; every other field of every
node stays. A look at a node sets what is known of it. If that differs from what was known before, the memo of the
node is dropped, and that of its parent if no directory was found.
-/

namespace EditorAgent.Vfs

variable {κ ν ρ : Type} {v v' v'' : Vfs κ ν ρ} {n m c k : NodeId} {s : String} {info : FileInfo}

/-! ## Making and listing nodes -/

/-- Nodes were made of which nothing is known, and one node may have been given other children. -/
structure Relisted (n : NodeId) (v v' : Vfs κ ν ρ) : Prop where
  expiry : v'.expiry = v.expiry
  size_le : v.nodes.size ≤ v'.nodes.size
  old : ∀ m < v.nodes.size, v'.node m = { v.node m with children := (v'.node m).children }
  children : ∀ m, m ≠ n → (v'.node m).children = (v.node m).children
  fresh : ∀ m, v.nodes.size ≤ m →
    (v'.node m).stat = .unknown ∧ (v'.node m).fresh = false ∧ (v'.node m).memo = Memo.empty

namespace Relisted

theorem refl (n : NodeId) (v : Vfs κ ν ρ) : Relisted n v v :=
  ⟨rfl, Nat.le_refl _, fun _ _ => rfl, fun _ _ => rfl, fun _ hm => by rw [node_of_size_le hm]; exact ⟨rfl, rfl, rfl⟩⟩

theorem trans (h : Relisted n v v') (h' : Relisted n v' v'') : Relisted n v v'' where
  expiry := h'.expiry.trans h.expiry
  size_le := Nat.le_trans h.size_le h'.size_le
  old m hm := by
    have hold := h'.old m (Nat.lt_of_lt_of_le hm h.size_le)
    rw [h.old m hm] at hold
    exact hold
  children m hm := (h'.children m hm).trans (h.children m hm)
  fresh m hm := by
    by_cases hlt : m < v'.nodes.size
    · rw [h'.old m hlt]
      exact h.fresh m hm
    · exact h'.fresh m (Nat.le_of_not_lt hlt)

theorem makeNode (n : NodeId) (v : Vfs κ ν ρ) (k : NodeId) (s : String) (kind : Option FileKind) :
    Relisted n v (v.makeNode k s kind).2 where
  expiry := rfl
  size_le := by simp
  old m hm := by rw [node_makeNode, if_neg (Nat.ne_of_lt hm)]
  children m _ := (Later.Bare.makeNode v k s kind).children m
  fresh m hm := by
    rw [node_makeNode]
    split
    · exact ⟨rfl, rfl, rfl⟩
    · rw [node_of_size_le hm]
      exact ⟨rfl, rfl, rfl⟩

theorem setChildren (v : Vfs κ ν ρ) (n : NodeId) (f : List NodeId → List NodeId) :
    Relisted n v (v.modifyNode n fun nd => { nd with children := f nd.children }) where
  expiry := rfl
  size_le := by simp
  old m _ := by
    rw [node_modifyNode]
    split <;> rfl
  children m hm := by rw [node_modifyNode_of_ne _ hm]
  fresh m hm := by
    rw [node_modifyNode, if_neg fun h => Nat.not_lt_of_le hm h.2, node_of_size_le hm]
    exact ⟨rfl, rfl, rfl⟩

theorem appendChild (v : Vfs κ ν ρ) (n : NodeId) (s : String) (kind : Option FileKind) :
    Relisted n v (v.appendChild n s kind).2 := by
  rw [appendChild_snd]
  exact (makeNode n v n s kind).trans (setChildren _ n fun cs => cs ++ [v.nodes.size])

theorem pokeChild (v : Vfs κ ν ρ) (n : NodeId) (s : String) : Relisted n v (v.pokeChild n s).2 := by
  rw [Vfs.pokeChild]
  split
  · exact refl n v
  · exact appendChild v n s none

theorem dropChild (v : Vfs κ ν ρ) (n c : NodeId) : Relisted n v (v.dropChild n c) :=
  setChildren v n fun cs => cs.erase c

theorem addChild (v : Vfs κ ν ρ) (n : NodeId) (s : String) (kind : FileKind) :
    Relisted n v (v.addChild n s kind).2 := by
  rw [Vfs.addChild]
  split
  · exact appendChild v n s _
  split
  · exact refl n v
  · next c _ _ => exact (dropChild v n c).trans (appendChild _ n s _)

/-! ### What is told of an old node -/

variable (h : Relisted n v v') (hm : m < v.nodes.size)

include h hm

theorem stat_eq : (v'.node m).stat = (v.node m).stat := by rw [h.old m hm]

theorem memo_eq : (v'.node m).memo = (v.node m).memo := by rw [h.old m hm]

theorem kind?_eq : v'.kind? m = v.kind? m := by rw [kind?, kind?, h.old m hm]

theorem node_eq (hmn : m ≠ n) : v'.node m = v.node m := by
  rw [h.old m hm, h.children m hmn]

end Relisted

theorem expiry_pokeFrom (names : List String) (v : Vfs κ ν ρ) (n : NodeId) :
    (v.pokeFrom n names).2.expiry = v.expiry := by
  induction names generalizing v n with
  | nil => rfl
  | cons s names ih => exact (ih _ _).trans (Relisted.pokeChild v n s).expiry

/-- The first entry gets a node that stands for it, and no old node but that can. -/
theorem exists_nodesFor_cons {old : List NodeId} (e : String × FileKind) (entries : List (String × FileKind))
    (v : Vfs κ ν ρ) (hold : ∀ c ∈ old, c < v.nodes.size) (hnames : (old.map fun c => (v.node c).name).Nodup) :
    ∃ c v₁,
      v.nodesFor k old (e :: entries) = (c :: (v₁.nodesFor k old entries).1, (v₁.nodesFor k old entries).2) ∧
      Relisted n v v₁ ∧ c < v₁.nodes.size ∧ (v₁.node c).name = e.1 ∧ v₁.compatible c e.2 = true ∧
      ∀ b ∈ old, (v.node b).name = e.1 → v.compatible b e.2 = true → b = c := by
  cases hfind : old.find? fun c => (v.node c).name = e.1 && v.compatible c e.2 with
  | some c =>
    have hc := List.find?_some hfind
    simp only [Bool.and_eq_true, decide_eq_true_eq] at hc
    have hmem := List.mem_of_find?_eq_some hfind
    refine ⟨c, v, by rw [nodesFor, hfind], .refl n v, hold c hmem, hc.1, hc.2, fun b hb hname _ => ?_⟩
    exact List.inj_on_of_nodup_map hnames hb hmem (hname.trans hc.1.symm)
  | none =>
    refine ⟨v.nodes.size, (v.makeNode k e.1 (some e.2)).2, ?_, .makeNode n v k e.1 _, by simp, ?_, ?_, ?_⟩
    · rw [nodesFor, hfind]
      rfl
    · rw [node_makeNode, if_pos rfl]
    · rw [compatible, kind?, node_makeNode, if_pos rfl]
      simp
    · intro b hb hname hcomp
      simpa [hname, hcomp] using List.find?_eq_none.mp hfind b hb

/-- The nodes for a listing stand for its entries: an old one that can stand for an entry of its name does so, and
none that cannot. -/
theorem nodesFor_entries {old : List NodeId} (entries : List (String × FileKind)) (v : Vfs κ ν ρ)
    (hold : ∀ c ∈ old, c < v.nodes.size) (hnames : (old.map fun c => (v.node c).name).Nodup) :
    Relisted n v (v.nodesFor k old entries).2 ∧
      (∀ c ∈ old, ∀ e ∈ entries, (v.node c).name = e.1 → v.compatible c e.2 = true →
        c ∈ (v.nodesFor k old entries).1) ∧
      ∀ c ∈ (v.nodesFor k old entries).1, ∃ e ∈ entries,
        ((v.nodesFor k old entries).2.node c).name = e.1 ∧ (v.nodesFor k old entries).2.compatible c e.2 = true := by
  induction entries generalizing v with
  | nil => exact ⟨.refl n v, by simp [nodesFor], by simp [nodesFor]⟩
  | cons e entries ih =>
    obtain ⟨c, v₁, heq, hrel, hclt, hname, hcomp, hmem⟩ :=
      exists_nodesFor_cons (n := n) (k := k) e entries v hold hnames
    have hsame : ∀ b ∈ old, (v₁.node b).name = (v.node b).name := fun b hb => by rw [hrel.old b (hold b hb)]
    obtain ⟨hrest, hkept, hstand⟩ := ih v₁ (fun b hb => Nat.lt_of_lt_of_le (hold b hb) hrel.size_le)
      (by rwa [List.map_congr_left hsame])
    rw [heq]
    refine ⟨hrel.trans hrest, fun b hb e' he' hbname hbcomp => ?_, fun b hb => ?_⟩
    · rcases List.mem_cons.mp he' with rfl | he'
      · exact List.mem_cons.mpr (.inl (hmem b hb hbname hbcomp))
      · refine List.mem_cons_of_mem _ (hkept b hb e' he' ((hsame b hb).trans hbname) ?_)
        rwa [compatible, hrel.kind?_eq (hold b hb)]
    · rcases List.mem_cons.mp hb with rfl | hb
      · refine ⟨e, List.mem_cons_self, ?_, ?_⟩
        · rw [hrest.old b hclt]
          exact hname
        · rwa [compatible, hrest.kind?_eq hclt]
      · obtain ⟨e', he', h⟩ := hstand b hb
        exact ⟨e', List.mem_cons_of_mem _ he', h⟩

section Sync

variable {P : String → Prop} {entries : List (String × FileKind)} (h : v.Linked P) (hn : n < v.nodes.size)

include h

theorem Relisted.syncChildren (n : NodeId) (entries : List (String × FileKind)) :
    Relisted n v (v.syncChildren n entries) := by
  rw [syncChildren_eq]
  exact (nodesFor_entries entries v (fun c hc => (h.children n c hc).1) (h.distinct n)).1.trans
    (.setChildren _ n fun _ => _)

include hn

/-- A child stays if it can stand for the entry of its name. -/
theorem mem_syncChildren {e : String × FileKind} (hc : c ∈ (v.node n).children) (he : e ∈ entries)
    (hname : (v.node c).name = e.1) (hcomp : v.compatible c e.2 = true) :
    c ∈ ((v.syncChildren n entries).node n).children := by
  obtain ⟨hrel, hkept, -⟩ :=
    nodesFor_entries (n := n) (k := n) entries v (fun c hc => (h.children n c hc).1) (h.distinct n)
  rw [syncChildren_eq, node_modifyNode_self _ (Nat.lt_of_lt_of_le hn hrel.size_le)]
  exact hkept c hc e he hname hcomp

/-- A child that is listed can stand for an entry of its name. -/
theorem exists_entry_of_mem_syncChildren (hc : c ∈ ((v.syncChildren n entries).node n).children) :
    ∃ e ∈ entries, ((v.syncChildren n entries).node c).name = e.1 ∧
      (v.syncChildren n entries).compatible c e.2 = true := by
  obtain ⟨hrel, -, hstand⟩ :=
    nodesFor_entries (n := n) (k := n) entries v (fun c hc => (h.children n c hc).1) (h.distinct n)
  have hset : Relisted n (v.nodesFor n (v.node n).children entries).2 (v.syncChildren n entries) :=
    .setChildren _ n fun _ => _
  rw [syncChildren_eq, node_modifyNode_self _ (Nat.lt_of_lt_of_le hn hrel.size_le)] at hc
  obtain ⟨e, he, hname, hcomp⟩ := hstand c hc
  have hlt : c < (v.nodesFor n (v.node n).children entries).2.nodes.size := by
    rcases (nodesFor_bare v n (v.node n).children entries).2 c hc with hold | hnew
    · exact Nat.lt_of_lt_of_le (h.children n c hold).1 hrel.size_le
    · exact hnew.2
  refine ⟨e, he, ?_, ?_⟩
  · rw [hset.old c hlt]
    exact hname
  · rwa [compatible, hset.kind?_eq hlt]

end Sync

/-! ## Forgetting -/

theorem expiry_invalidateAll (mark fuel : Nat) (work : List CellId) (v : Vfs κ ν ρ) :
    (v.invalidateAll mark fuel work).expiry = v.expiry := by
  fun_induction invalidateAll v mark fuel work with
  | case1 => rfl
  | case2 => rfl
  | case3 _ _ _ _ _ ih => exact ih
  | case4 _ _ _ _ _ _ _ ih => exact ih
  | case5 _ _ _ _ _ _ _ _ ih => exact ih

@[simp] theorem expiry_clearMemo (v : Vfs κ ν ρ) (n : NodeId) : (v.clearMemo n).expiry = v.expiry :=
  expiry_invalidateAll ..

@[simp] theorem size_clearMemo (v : Vfs κ ν ρ) (n : NodeId) : (v.clearMemo n).nodes.size = v.nodes.size := by
  rw [(marks_clearMemo v n).nodes, cleared, size_modifyNode]
  rfl

/-- A node whose memo may have been dropped, but for what outlives that. -/
def Node.forget (nd : Node κ ν) (drop : Bool) : Node κ ν :=
  { nd with memo := if drop then nd.memo.clear.1 else nd.memo }

theorem Node.forget_false (nd : Node κ ν) : Node.forget nd false = nd := rfl

theorem node_clearMemo (v : Vfs κ ν ρ) (n m : NodeId) : (v.clearMemo n).node m = Node.forget (v.node m) (n = m) := by
  have hcleared : (v.clearMemo n).node m = (v.cleared n).node m := by rw [node, node, (marks_clearMemo v n).nodes]
  have htick : v.tick.2.nodes = v.nodes := rfl
  have hnode : v.tick.2.node m = v.node m := by rw [node, node, htick]
  rw [hcleared, cleared, node_modifyNode, hnode, htick]
  by_cases hnm : n = m
  · subst hnm
    by_cases hlt : n < v.nodes.size
    · simp [hlt, Node.forget]
    · rw [if_neg fun h => hlt h.2, node_of_size_le (Nat.le_of_not_lt hlt)]
      simp only [decide_true]
      rfl
  · simp [hnm, Node.forget_false]

/-! ## Looking -/

/-- Whether something was found at a node before. -/
def Node.existed (nd : Node κ ν) : Bool :=
  match nd.stat with
  | .found _ => true
  | _ => false

/-- A node at which nothing was found. -/
def Node.lost (nd : Node κ ν) (expiry : Expiry) (isRoot : Bool) : Node κ ν :=
  { nd with kind := none, stat := .missing, fresh := expiry = .never, children := if isRoot then nd.children else [] }

theorem node_observeMissing (hn : n < v.nodes.size) (m : NodeId) : (observeMissing n v).node m =
    if m = n then Node.forget (Node.lost (v.node n) v.expiry (v.isRoot n)) (Node.existed (v.node n))
    else v.node m := by
  unfold observeMissing
  extract_lets existed keep seen
  have hseen : seen.node m = if m = n then Node.lost (v.node n) v.expiry (v.isRoot n) else v.node m := by
    by_cases hm : m = n
    · subst hm
      rw [if_pos rfl]
      exact node_modifyNode_self _ hn
    · rw [if_neg hm]
      exact node_modifyNode_of_ne _ hm
  have hexisted : existed = Node.existed (v.node n) := rfl
  rw [hexisted]
  by_cases hm : m = n
  · subst hm
    rw [if_pos rfl] at hseen ⊢
    split
    · next h => rw [node_clearMemo, hseen, h, decide_eq_true rfl]
    · next h => rw [hseen, Bool.eq_false_iff.mpr h, Node.forget_false]
  · rw [if_neg hm] at hseen ⊢
    split
    · rw [node_clearMemo, hseen, decide_eq_false (Ne.symm hm), Node.forget_false]
    · exact hseen

theorem expiry_observeMissing (n : NodeId) (v : Vfs κ ν ρ) : (observeMissing n v).expiry = v.expiry := by
  unfold observeMissing
  extract_lets existed keep seen
  split
  · exact expiry_clearMemo seen n
  · rfl

theorem size_observeMissing (n : NodeId) (v : Vfs κ ν ρ) : (observeMissing n v).nodes.size = v.nodes.size := by
  unfold observeMissing
  extract_lets existed keep seen
  have hsize : seen.nodes.size = v.nodes.size := size_modifyNode ..
  split
  · rw [size_clearMemo, hsize]
  · exact hsize

/-- Whether what was found differs from what was known before. -/
def differs (v : Vfs κ ν ρ) (n : NodeId) (info : FileInfo) : Bool :=
  (Stat.change (v.node n).stat info).changed && !(Stat.change (v.node n).stat info).first

/-- Whether the memo of a node is dropped when something is found at another, or at itself. -/
def forgets (v : Vfs κ ν ρ) (n : NodeId) (info : FileInfo) (m : NodeId) : Bool :=
  v.differs n info && (m = n || info.kind != .dir && (v.node n).parent = some m)

/-- Takes note of what was found at a node, before a directory is listed. -/
def noted (n : NodeId) (info : FileInfo) (v : Vfs κ ν ρ) : Vfs κ ν ρ :=
  let seen := v.modifyNode n (Node.found · info v.expiry)
  if v.differs n info then
    let cleared := seen.clearMemo n
    if info.kind = .dir then cleared
    else match (v.node n).parent with
      | some p => cleared.clearMemo p
      | none => cleared
  else seen

theorem size_noted (n : NodeId) (info : FileInfo) (v : Vfs κ ν ρ) : (noted n info v).nodes.size = v.nodes.size := by
  unfold noted
  extract_lets seen cleared
  have hseen : seen.nodes.size = v.nodes.size := size_modifyNode ..
  have hcleared : cleared.nodes.size = v.nodes.size := (size_clearMemo seen n).trans hseen
  split
  · split
    · exact hcleared
    · split
      · exact (size_clearMemo cleared _).trans hcleared
      · exact hcleared
  · exact hseen

theorem expiry_noted (n : NodeId) (info : FileInfo) (v : Vfs κ ν ρ) : (noted n info v).expiry = v.expiry := by
  unfold noted
  extract_lets seen cleared
  have hcleared : cleared.expiry = v.expiry := expiry_clearMemo seen n
  split
  · split
    · exact hcleared
    · split
      · exact (expiry_clearMemo cleared _).trans hcleared
      · exact hcleared
  · rfl

theorem Linked.noted {P : String → Prop} (h : v.Linked P) (n : NodeId) (info : FileInfo) :
    (noted n info v).Linked P := by
  unfold Vfs.noted
  extract_lets seen cleared
  have hseen : seen.Linked P := h.modifyNode (fun _ => rfl) (fun _ => rfl) fun _ => .refl _
  have hcleared : cleared.Linked P := hseen.clearMemo n
  split
  · split
    · exact hcleared
    · split
      · exact hcleared.clearMemo _
      · exact hcleared
  · exact hseen

section Found

variable (hn : n < v.nodes.size)

include hn

theorem observeFound_eq (d : Disk) (info : FileInfo) : observeFound d n info v =
    if (Stat.change (v.node n).stat info).changed && info.kind = .dir then rescan d n (noted n info v)
    else noted n info v := by
  have hparent : (((v.modifyNode n (Node.found · info v.expiry)).clearMemo n).node n).parent = (v.node n).parent := by
    rw [node_clearMemo, node_modifyNode_self _ hn]
    rfl
  unfold observeFound noted differs
  rcases Stat.change (v.node n).stat info with ⟨changed, first⟩
  simp only [Node.found] at hparent ⊢
  cases hp : (v.node n).parent <;> rw [hp] at hparent <;> cases changed <;> cases first <;>
    by_cases hd : info.kind = .dir <;> simp [hd, hparent]

theorem node_noted (hself : (v.node n).parent ≠ some n) (m : NodeId) : (noted n info v).node m =
    Node.forget (if m = n then Node.found (v.node n) info v.expiry else v.node m) (v.forgets n info m) := by
  unfold noted forgets
  extract_lets seen cleared
  have hseen : seen.node m = if m = n then Node.found (v.node n) info v.expiry else v.node m := by
    by_cases hmn : m = n
    · subst hmn
      rw [if_pos rfl]
      exact node_modifyNode_self _ hn
    · rw [if_neg hmn]
      exact node_modifyNode_of_ne _ hmn
  rw [← hseen]
  have hcleared : cleared.node m = Node.forget (seen.node m) (n = m) := node_clearMemo seen n m
  cases v.differs n info with
  | false => rfl
  | true =>
    by_cases hd : info.kind = .dir
    · simp only [hd, if_true, hcleared, bne_self_eq_false, Bool.false_and, Bool.or_false, Bool.true_and, eq_comm]
    · rw [if_pos rfl, if_neg hd]
      cases hp : (v.node n).parent with
      | none => simp [hcleared, eq_comm]
      | some p =>
        have hpn : p ≠ n := fun h => hself (hp.trans (congrArg some h))
        have hkind : (info.kind != .dir) = true := by simpa using hd
        dsimp only
        rw [node_clearMemo, hcleared, hkind]
        by_cases hmn : m = n
        · subst hmn
          simp [hpn, Node.forget_false]
        · simp [hmn, Ne.symm hmn, Node.forget_false]

/-- What is noted at a directory concerns it alone. -/
theorem node_noted_of_dir (hself : (v.node n).parent ≠ some n) (hdir : info.kind = .dir) (hmn : m ≠ n) :
    (noted n info v).node m = v.node m := by
  have hforgets : v.forgets n info m = false := by simp [forgets, hdir, hmn]
  rw [node_noted hn hself, if_neg hmn, hforgets, Node.forget_false]

theorem children_noted (hself : (v.node n).parent ≠ some n) (m : NodeId) :
    ((noted n info v).node m).children = (v.node m).children := by
  rw [node_noted hn hself]
  by_cases hmn : m = n
  · rw [if_pos hmn, hmn]
    rfl
  · rw [if_neg hmn]
    rfl

theorem shape_noted (hself : (v.node n).parent ≠ some n) : Shape v (noted n info v) where
  size_le := Nat.le_of_eq (size_noted n info v).symm
  parent m _ := by
    rw [node_noted hn hself]
    by_cases hmn : m = n
    · rw [if_pos hmn, hmn]
      rfl
    · rw [if_neg hmn]
      rfl
  name m _ := by
    rw [node_noted hn hself]
    by_cases hmn : m = n
    · rw [if_pos hmn, hmn]
      rfl
    · rw [if_neg hmn]
      rfl

end Found

end EditorAgent.Vfs

import EditorAgent.Proofs.Vfs.Looks
import EditorAgent.Proofs.Vfs.Sightings
import EditorAgent.Proofs.Vfs.Ways

/-!
# Walking up a tree

Over a disk that does not change, whatever was asked of a tree before, no stat says anything but what the disk says. So
a walk up from a node ends where the disk has the nearest entry of the name that is looked for, and its node is the one
that its path leads to.
-/

namespace EditorAgent

/-- What a stat says of a path is so. -/
def Disk.Bears (d : Disk) (path : String) : Stat → Prop
  | .unknown => True
  | .missing => d.kindAt path = none
  | .found info => d.kindAt path = some info.kind

namespace Vfs

variable {κ ν ρ : Type} {P : String → Prop} {d : Disk} {v v' : Vfs κ ν ρ} {n m c : NodeId} {s : String}
  {ns : List String} {L L' : Log}

/-! ## Candour -/

/-- All stats say what is so. -/
def Candid (d : Disk) (v : Vfs κ ν ρ) : Prop := ∀ m, d.Bears (v.path m) (v.node m).stat

namespace Candid

theorem make (d : Disk) (e : Expiry) : Candid d (make e : Vfs κ ν ρ) := by
  intro m
  cases m with
  | zero => trivial
  | succ m =>
    rw [node_of_size_le (by simp [Vfs.make])]
    trivial

theorem transfer (h : Candid d v) (hshape : Shape v v') (hstat : ∀ m, (v'.node m).stat = (v.node m).stat) :
    Candid d v' := by
  intro m
  rw [hstat]
  by_cases hm : m < v.nodes.size
  · rw [hshape.path_eq hm]
    exact h m
  · rw [node_of_size_le (Nat.le_of_not_lt hm)]
    trivial

theorem look (h : Candid d v) (hn : n < v.nodes.size) (hlook : Look d n v v') : Candid d v' := by
  intro m
  rw [hlook.stat]
  split
  · next hmn =>
    rw [hmn, hlook.shape.path_eq hn, looked]
    cases he : d.entry (v.path n) with
    | error cause => simp [Node.lost, Disk.Bears, Disk.kindAt, he]
    | ok e => simp [Node.found, infoOf, Disk.Bears, Disk.kindAt, he]
  · by_cases hm : m < v.nodes.size
    · rw [hlook.shape.path_eq hm]
      exact h m
    · rw [node_of_size_le (Nat.le_of_not_lt hm)]
      trivial

theorem stat (h : Candid d v) (hlinked : v.Linked P) (hn : n < v.nodes.size) : Candid d (stat d n v).2 := by
  cases hs : v.served n with
  | true => rwa [stat_of_served hs]
  | false =>
    obtain ⟨w, hlook, hrel⟩ := exists_look hlinked hn hs d
    exact (h.look hn hlook).transfer hrel.quiet.shape hrel.quiet.stat

/-- A stat is answered as the disk would. -/
theorem stat_fst (h : Candid d v) (n : NodeId) :
    (∃ info, (Vfs.stat d n v).1 = .ok info ∧ d.kindAt (v.path n) = some info.kind) ∨
      (∃ cause, (Vfs.stat d n v).1 = .error cause) ∧ d.kindAt (v.path n) = none := by
  cases hs : v.served n with
  | true =>
    have hbears := h n
    rw [served, Bool.and_eq_true] at hs
    obtain ⟨hfresh, hknown⟩ := hs
    cases hstat : (v.node n).stat with
    | unknown => simp [hstat] at hknown
    | found info =>
      rw [hstat] at hbears
      exact .inl ⟨info, by simp [Vfs.stat, hfresh, hstat], hbears⟩
    | missing =>
      rw [hstat] at hbears
      exact .inr ⟨⟨.notExist (v.path n), by simp only [Vfs.stat, hfresh, hstat]⟩, hbears⟩
  | false =>
    cases he : d.entry (v.path n) with
    | error cause => exact .inr ⟨⟨_, by rw [stat_of_error hs he]⟩, by rw [Disk.kindAt, he]⟩
    | ok e => exact .inl ⟨_, by rw [stat_of_entry hs he], by rw [Disk.kindAt, he]; rfl⟩

end Candid

variable [DecidableEq κ]

theorem Step.candid (hs : Step d L v L' v') (hlinked : v.Linked P) (h : Candid d v) : Candid d v' := by
  obtain ⟨hquiet, -⟩ | ⟨n, hn, dir, entries, -, rfl, -⟩ | ⟨n, hn, -, rfl | ⟨info, data, -, -, rfl⟩⟩ := hs.cases
  · exact h.transfer hquiet.shape hquiet.stat
  · have hquiet := (Relisted.syncChildren hlinked n entries).quiet
    exact h.transfer hquiet.shape hquiet.stat
  · exact h.stat hlinked hn
  · -- The bytes are noted, and nothing else is changed.
    refine (h.stat hlinked hn).transfer (.modifyNode rfl rfl) fun m => ?_
    rw [node_modifyNode]
    split <;> rfl

theorem Run.candid {ds : List Disk} (h : Run ds L v) (hds : ∀ b ∈ ds, b = d) : Candid d v := by
  induction h with
  | start _ e => exact .make d e
  | edit _ _ ih => exact ih fun b hb => hds b (List.mem_cons_of_mem _ hb)
  | call h hs ih =>
    obtain rfl := hds _ List.mem_cons_self
    exact hs.candid h.tracks.1 (ih hds)

theorem Known.candid (h : Known [d] v) : Candid d v := by
  obtain ⟨L, h⟩ := h
  exact h.candid fun _ => List.mem_singleton.mp

/-! ## The way up -/

omit [DecidableEq κ] in
/-- Above the node that names lead to are those that fewer of the names lead to. -/
theorem Linked.lineage_peekFrom (h : v.Linked P) (hn : v.peekFrom rootId ns = some n) :
    List.Forall₂ (fun m ms => v.peekFrom rootId ms = some m) (v.lineage n) ns.inits.reverse := by
  induction ns using List.reverseRecOn generalizing n with
  | nil =>
    cases hn
    rw [lineage, h.root.2.1]
    exact .cons rfl .nil
  | append_singleton ns s ih =>
    have hup := hn
    rw [peekFrom_concat] at hup
    obtain ⟨m, hm, hc⟩ := Option.bind_eq_some_iff.mp hup
    obtain ⟨hlt, hparent⟩ := h.children m n (child?_eq_some hc).1
    have hinits : (ns ++ [s]).inits.reverse = (ns ++ [s]) :: ns.inits.reverse := by
      rw [List.inits_append]
      simp
    rw [lineage, hparent, hinits]
    dsimp only
    rw [dif_pos (h.name n hlt m hparent).1]
    exact .cons hn (ih hm)

omit [DecidableEq κ] in
theorem Linked.children_stat (h : v.Linked P) (hc : c < v.nodes.size) (hm : m ≠ c) :
    ((Vfs.stat d c v).2.node m).children = (v.node m).children := by
  cases hs : v.served c with
  | true => rw [stat_of_served hs]
  | false =>
    obtain ⟨w, hlook, hrel⟩ := exists_look h hc hs d
    rw [hrel.children m hm, hlook.node, if_neg hm]
    rfl

omit [DecidableEq κ] in
/-- A look at a node leaves the ways that do not lead on from it. -/
theorem Linked.peekFrom_stat (h : v.Linked P) (hc : c < v.nodes.size) (hm : v.peekFrom rootId ns = some m)
    (hne : ∀ pre s rest, ns = pre ++ s :: rest → v.peekFrom rootId pre ≠ some c) :
    (Vfs.stat d c v).2.peekFrom rootId ns = some m :=
  peekFrom_of_child? hm fun pre s rest _ hns ha =>
    h.child?_eq (shape_of_later (looks_stat d c v)) (h.children_stat hc fun hac => hne pre s rest hns (hac ▸ ha)) s

omit [DecidableEq κ] in
theorem Linked.peekFrom_pokeChild_self (h : v.Linked fun _ => True) (hn : v.peekFrom rootId ns = some n) (s : String) :
    (v.pokeChild n s).2.peekFrom rootId (ns ++ [s]) = some (v.pokeChild n s).1 := by
  have hlt := h.lt_of_peekFrom h.root.1 hn
  obtain ⟨hmem, hname⟩ := mem_pokeChild hlt s
  have hchild := (h.pokeChild hlt trivial).child?_of_mem hmem
  rw [hname] at hchild
  rw [peekFrom_concat, h.peekFrom_pokeChild hlt hn, Option.bind_some, hchild]

/-- The node that was found, if any, is the one to which the names lead that were looked for. -/
inductive Leads (v : Vfs κ ν ρ) : Option NodeId → Option (List String) → Prop
  | found {c : NodeId} {ns : List String} (h : v.peekFrom rootId ns = some c) : Leads v (some c) (some ns)
  | missing : Leads v none none

namespace Known

/-- What a stat answers of the node that names lead to, and the ways that it leaves. -/
theorem stat_of_peekFrom (h : Known [d] v) (hns : ∀ s ∈ ns, s ≠ "") (hc : v.peekFrom rootId ns = some c) :
    Keeps (Known [d]) (Vfs.stat d c) v fun r v' =>
      ((∃ info, r = .ok info ∧ d.kindAt (pathOf ns) = some info.kind) ∨
        (∃ cause, r = .error cause) ∧ d.kindAt (pathOf ns) = none) ∧
      ∀ ms m, ms <+: ns → v.peekFrom rootId ms = some m → v'.peekFrom rootId ms = some m := by
  have hlinked := h.linked
  have hlt := hlinked.lt_of_peekFrom hlinked.root.1 hc
  obtain ⟨hknown, hshape, -⟩ := h.stat hlt
  refine ⟨hknown, hshape, ?_, fun ms m hms hm => ?_⟩
  · have hpath : v.path c = pathOf ns := congrArg pathOf (hlinked.names_of_peekFrom hns hc)
    exact hpath ▸ h.candid.stat_fst c
  · refine hlinked.peekFrom_stat hlt hm fun pre s rest hsplit hpre => ?_
    -- No node on the way has as many names as the one that is looked at.
    have hpre_ns : pre <+: ns := (hsplit ▸ List.prefix_append pre (s :: rest)).trans hms
    have hsame := (hlinked.names_of_peekFrom (fun t ht => hns t (hpre_ns.subset ht)) hpre).symm.trans
      (hlinked.names_of_peekFrom hns hc)
    have hlength := hms.length_le
    rw [hsplit, hsame, List.length_append, List.length_cons] at hlength
    omega

theorem nodeAt_leads (h : Known [d] v) (path : String) :
    Keeps (Known [d]) (Vfs.nodeAt path) v fun n v' => v'.peekFrom rootId (splitPath path) = some n := by
  obtain ⟨hknown, hshape, -⟩ := h.nodeAt path
  exact ⟨hknown, hshape, h.linked.peek?_poke_self path fun _ _ => trivial⟩

theorem locateIn_leads {name : String} (hname : name ≠ "") {up : List NodeId} {places : List (List String)}
    (h : Known [d] v) (hnames : ∀ ns ∈ places, ∀ s ∈ ns, s ≠ "") (hchain : places.Pairwise fun ns ms => ms <+: ns)
    (hup : List.Forall₂ (fun m ms => v.peekFrom rootId ms = some m) up places) :
    Keeps (Known [d]) (Vfs.locateIn d name up) v fun o v' => Leads v' o (nearest d name places) := by
  induction up generalizing v places with
  | nil =>
    cases hup
    exact .pure h .missing
  | cons n up ih =>
    obtain ⟨ns, rest, hn, hrest, rfl⟩ := List.forall₂_cons_left_iff.mp hup
    obtain ⟨hbelow, hchain⟩ := List.pairwise_cons.mp hchain
    have hlinked := h.linked
    have hlt := hlinked.lt_of_peekFrom hlinked.root.1 hn
    have hpoke : Keeps (Known [d]) (fun v => v.pokeChild n name) v fun c v₁ =>
        v₁.peekFrom rootId (ns ++ [name]) = some c ∧
          List.Forall₂ (fun m ms => v₁.peekFrom rootId ms = some m) up rest :=
      ⟨(h.pokeChild hlt name).1, (h.pokeChild hlt name).2.1, hlinked.peekFrom_pokeChild_self hn name,
        hrest.imp fun _ _ hm => hlinked.peekFrom_pokeChild hlt hm⟩
    have hfull : ∀ s ∈ ns ++ [name], s ≠ "" :=
      List.forall_mem_append.mpr ⟨hnames ns List.mem_cons_self, by simpa using hname⟩
    refine hpoke.bind fun c v₁ h₁ _ ⟨hc, hrest₁⟩ => ?_
    refine (h₁.stat_of_peekFrom hfull hc).bind fun r v₂ h₂ _ ⟨hanswer, hkept⟩ => ?_
    rcases hanswer with ⟨info, rfl, hkind⟩ | ⟨⟨cause, rfl⟩, hkind⟩
    · have hnear : nearest d name (ns :: rest) = some (ns ++ [name]) := by simp [nearest, hkind]
      rw [hnear]
      exact .pure h₂ (.found (hkept _ _ (List.prefix_refl _) hc))
    · have hnear : nearest d name (ns :: rest) = nearest d name rest := by simp [nearest, hkind]
      rw [hnear]
      refine ih h₂ (fun ms hms => hnames ms (List.mem_cons_of_mem ns hms)) hchain ?_
      refine List.forall₂_iff_get.mpr ⟨hrest₁.length_eq, fun i hi hi' => ?_⟩
      exact hkept _ _ ((hbelow _ (List.get_mem _ _)).trans (List.prefix_append ns [name]))
        ((List.forall₂_iff_get.mp hrest₁).2 i hi hi')

omit [DecidableEq κ] in
theorem pairwise_inits_reverse (ns : List String) : ns.inits.reverse.Pairwise fun ns ms => ms <+: ns := by
  induction ns using List.reverseRecOn with
  | nil => simp
  | append_singleton ns s ih =>
    have hinits : (ns ++ [s]).inits.reverse = (ns ++ [s]) :: ns.inits.reverse := by simp [List.inits_append]
    rw [hinits]
    refine .cons (fun ms hms => ?_) ih
    rw [List.mem_reverse, List.mem_inits] at hms
    exact hms.trans (List.prefix_append ns [s])

theorem locate_leads {name : String} (h : Known [d] v) (hname : name ≠ "") (hns : ∀ s ∈ ns, s ≠ "")
    (hn : v.peekFrom rootId ns = some n) :
    Keeps (Known [d]) (Vfs.locate d n name) v fun o v' => Leads v' o (nearest d name ns.inits.reverse) := by
  refine .get (h.locateIn_leads hname (fun ms hms s hs => ?_) (pairwise_inits_reverse ns)
    (h.linked.lineage_peekFrom hn))
  rw [List.mem_reverse, List.mem_inits] at hms
  exact hns s (hms.subset hs)

end Known

end Vfs
end EditorAgent

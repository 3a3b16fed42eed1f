import EditorAgent.Proofs.Vfs.Linked
import Mathlib.Data.List.Find
import Mathlib.Data.List.Induction

/-!
# Where paths lead

A tree is rooted: siblings have names of their own, and a child has the node that lists it for its parent. So
every node in the tree is the one to which its path leads. Whatever is asked of a tree, on whichever disks, it
stays rooted; asking for a path leaves all others where they led; and removing a node takes away the paths at and
below it, and no others.
-/

namespace EditorAgent

/-- Every directory lists names that a path can hold, each of them once. -/
def Disk.Legible (d : Disk) : Prop :=
  ∀ path entries, d.list path = .ok entries → (∀ e ∈ entries, Vfs.IsName e.1) ∧ (entries.map (·.1)).Nodup

/-- The name of an entry and the directory that it is in tell which entry it is. -/
theorem Disk.nodup_names {d : Disk} (hkeys : (d.entries.map (·.1)).Nodup) (path : String) : (d.names path).Nodup := by
  unfold names
  split
  · next entries hl =>
    obtain ⟨l, rfl⟩ : ∃ l, entries = d.below l := by
      unfold list at hl
      split at hl
      · cases hl
      · split at hl <;> cases hl
        exact ⟨_, rfl⟩
    have hbelow : (d.below l).map (·.1) = (d.entries.map (·.1)).filterMap fun k =>
        if k ≠ [] ∧ k.dropLast = l then k.getLast? else none := by
      rw [below, List.map_filterMap, List.filterMap_map]
      refine List.filterMap_congr fun e _ => ?_
      dsimp only [Function.comp_apply]
      split
      · cases e.1.getLast? <;> rfl
      · rfl
    rw [hbelow]
    refine hkeys.filterMap fun a a' s ha ha' => ?_
    rw [Option.mem_def, Option.ite_none_right_eq_some] at ha ha'
    obtain ⟨⟨-, ha⟩, hs⟩ := ha
    obtain ⟨⟨-, ha'⟩, hs'⟩ := ha'
    rw [← List.dropLast_append_getLast? s hs, ← List.dropLast_append_getLast? s hs', ha, ha']
  · exact List.nodup_nil

theorem Disk.Proper.legible {d : Disk} (h : d.Proper) (hkeys : (d.entries.map (·.1)).Nodup) : d.Legible := by
  intro path entries hl
  have hnames : d.names path = entries.map (·.1) := by rw [names, hl]
  exact ⟨fun e he => (h.of_mem_names (hnames ▸ List.mem_map_of_mem he)).1, hnames ▸ nodup_names hkeys path⟩

namespace Vfs

variable {κ ν ρ α β : Type} {v v' : Vfs κ ν ρ} {n m c : NodeId} {s t : String}

structure Rooted (v : Vfs κ ν ρ) : Prop where
  root : rootId < v.nodes.size ∧ (v.node rootId).parent = none ∧ (v.node rootId).name = ""
  name : ∀ n < v.nodes.size, ∀ p, (v.node n).parent = some p → p < n ∧ IsName (v.node n).name
  children : ∀ n, ∀ c ∈ (v.node n).children, c < v.nodes.size ∧ (v.node c).parent = some n
  distinct : ∀ n, (v.childNames n).Nodup

/-! ## Staying rooted -/

theorem rooted_iff_linked : v.Rooted ↔ v.Linked IsName :=
  ⟨fun h => ⟨h.root, h.name, h.children, h.distinct⟩, fun h => ⟨h.root, h.name, h.children, h.distinct⟩⟩

namespace Rooted

theorem linked (h : v.Rooted) : v.Linked IsName := rooted_iff_linked.mp h

theorem make (e : Expiry) : (make e : Vfs κ ν ρ).Rooted := rooted_iff_linked.mpr (.make e)

theorem modifyNode {f : Node κ ν → Node κ ν} (hparent : ∀ nd, (f nd).parent = nd.parent)
    (hname : ∀ nd, (f nd).name = nd.name) (h : v.Rooted) (hchildren : ∀ nd, (f nd).children.Sublist nd.children) :
    (v.modifyNode n f).Rooted :=
  rooted_iff_linked.mpr (h.linked.modifyNode hparent hname hchildren)

theorem syncChildren {entries : List (String × FileKind)} (h : v.Rooted) (hn : n < v.nodes.size)
    (hentries : ∀ e ∈ entries, IsName e.1) (hnodup : (entries.map (·.1)).Nodup) :
    (v.syncChildren n entries).Rooted :=
  rooted_iff_linked.mpr (h.linked.syncChildren hn hentries hnodup)

theorem pokeChild (h : v.Rooted) (hn : n < v.nodes.size) (hs : IsName s) : (v.pokeChild n s).2.Rooted :=
  rooted_iff_linked.mpr (h.linked.pokeChild hn hs)

theorem pokeChild_lt (h : v.Rooted) (hn : n < v.nodes.size) (s : String) :
    (v.pokeChild n s).1 < (v.pokeChild n s).2.nodes.size :=
  h.linked.pokeChild_lt hn s

theorem poke (h : v.Rooted) (path : String) : (v.poke path).2.Rooted :=
  rooted_iff_linked.mpr (h.linked.pokeFrom h.root.1 fun _ => isName_of_mem_splitPath)

theorem poke_lt (h : v.Rooted) (path : String) : (v.poke path).1 < (v.poke path).2.nodes.size := h.linked.poke_lt path

theorem stat {d : Disk} (hd : d.Legible) (h : v.Rooted) (hn : n < v.nodes.size) : (stat d n v).2.Rooted :=
  rooted_iff_linked.mpr (h.linked.stat hd hn)

theorem mem_lineage_lt (h : v.Rooted) (hn : n < v.nodes.size) (hm : m ∈ v.lineage n) : m < v.nodes.size :=
  h.linked.mem_lineage_lt hn hm

theorem dropChild (h : v.Rooted) (n c : NodeId) : (v.dropChild n c).Rooted :=
  rooted_iff_linked.mpr (h.linked.dropChild n c)

theorem addChild (h : v.Rooted) (hn : n < v.nodes.size) (hs : IsName s) (kind : FileKind) :
    (v.addChild n s kind).2.Rooted :=
  rooted_iff_linked.mpr (h.linked.addChild hn hs kind)

end Rooted

/-- Nodes keep their places, whatever is noted at them. -/
theorem shape_of_later (h : Later (fun _ => True) v v') : Shape v v' := h.toShape

/-- A run that keeps an invariant and leaves the nodes in their places, and ends as told. -/
def Keeps (I : Vfs κ ν ρ → Prop) (act : StateM (Vfs κ ν ρ) α) (v : Vfs κ ν ρ) (Q : α → Vfs κ ν ρ → Prop) : Prop :=
  I (act v).2 ∧ Shape v (act v).2 ∧ Q (act v).1 (act v).2

namespace Keeps

section Runs

variable {I : Vfs κ ν ρ → Prop} {act : StateM (Vfs κ ν ρ) α} {f : α → StateM (Vfs κ ν ρ) β}
  {Q : α → Vfs κ ν ρ → Prop} {R : β → Vfs κ ν ρ → Prop}

theorem pure {a : α} (h : I v) (hq : Q a v) : Keeps I (pure a) v Q := ⟨h, .refl v, hq⟩

theorem bind (h : Keeps I act v Q) (hf : ∀ a v', I v' → Shape v v' → Q a v' → Keeps I (f a) v' R) :
    Keeps I (act >>= f) v R := by
  obtain ⟨hv, hshape, hq⟩ := h
  obtain ⟨hv', hshape', hr⟩ := hf _ _ hv hshape hq
  exact ⟨hv', hshape.trans hshape', hr⟩

theorem get {f : Vfs κ ν ρ → StateM (Vfs κ ν ρ) β} (h : Keeps I (f v) v R) : Keeps I (get >>= f) v R := h

theorem forIn {f : α → β → StateM (Vfs κ ν ρ) (ForInStep β)} {l : List α}
    (hf : ∀ a ∈ l, ∀ b v, I v → Keeps I (f a b) v fun _ _ => True) (h : I v) (b : β) :
    Keeps I (forIn l b f) v fun _ _ => True := by
  induction l generalizing v b with
  | nil => exact .pure h trivial
  | cons a l ih =>
    rw [List.forIn_cons]
    refine (hf a List.mem_cons_self b v h).bind fun r v' h' _ _ => ?_
    cases r with
    | done b => exact .pure h' trivial
    | yield b => exact ih (fun a ha => hf a (List.mem_cons_of_mem _ ha)) h' b

end Runs

variable {d : Disk}

theorem pokeChild (h : v.Rooted) (hn : n < v.nodes.size) (hs : IsName s) :
    Keeps Rooted (fun v => v.pokeChild n s) v fun c v' => c < v'.nodes.size :=
  ⟨h.pokeChild hn hs, shape_of_later (later_pokeChild v n s), h.pokeChild_lt hn s⟩

theorem nodeAt (h : v.Rooted) (path : String) : Keeps Rooted (nodeAt path) v fun c v' => c < v'.nodes.size :=
  ⟨h.poke path, shape_of_later (looks_nodeAt path v), h.poke_lt path⟩

theorem stat (hd : d.Legible) (h : v.Rooted) (hn : n < v.nodes.size) : Keeps Rooted (stat d n) v fun _ _ => True :=
  ⟨h.stat hd hn, shape_of_later (looks_stat d n v), trivial⟩

theorem locateIn (hd : d.Legible) (hs : IsName s) {up : List NodeId} (h : v.Rooted)
    (hup : ∀ n ∈ up, n < v.nodes.size) : Keeps Rooted (locateIn d s up) v fun _ _ => True := by
  induction up generalizing v with
  | nil => exact .pure h trivial
  | cons n up ih =>
    refine (pokeChild h (hup n List.mem_cons_self) hs).bind fun c v₁ h₁ hshape₁ hc => ?_
    refine (stat hd h₁ hc).bind fun r v₂ h₂ hshape₂ _ => ?_
    cases r with
    | ok info => exact .pure h₂ trivial
    | error e =>
      exact ih h₂ fun m hm =>
        Nat.lt_of_lt_of_le (hup m (List.mem_cons_of_mem n hm)) (hshape₁.trans hshape₂).size_le

theorem locate (hd : d.Legible) (hs : IsName s) (h : v.Rooted) (hn : n < v.nodes.size) :
    Keeps Rooted (locate d n s) v fun _ _ => True :=
  get (locateIn hd hs h fun _ => h.mem_lineage_lt hn)

theorem accepted_legible (hd : d.Legible) (o : ScanOptions) (depth : Nat) (dir : String) :
    (∀ e ∈ accepted d o depth dir, IsName e.1) ∧ ((accepted d o depth dir).map (·.1)).Nodup := by
  unfold accepted
  split
  · simp
  · next entries hl =>
    obtain ⟨hnames, hnodup⟩ := hd _ _ hl
    exact ⟨fun e he => hnames e (List.mem_of_mem_filter he), (List.filter_sublist.map _).nodup hnodup⟩

/-- What a scan lists are entries that the filter accepts. -/
theorem exists_of_mem_listings {o : ScanOptions} {fuel depth : Nat} {dir : String}
    {x : String × List (String × FileKind)} (hx : x ∈ listings d o fuel depth dir) :
    ∃ depth, x.2 = accepted d o depth x.1 := by
  induction fuel generalizing depth dir with
  | zero => cases hx
  | succ fuel ih =>
    rcases List.mem_cons.mp hx with rfl | hx
    · exact ⟨depth, rfl⟩
    · obtain ⟨e, -, hx⟩ := List.mem_flatMap.mp hx
      exact ih hx

theorem scan (hd : d.Legible) (h : v.Rooted) (o : ScanOptions) (path : String) :
    Keeps Rooted (scan d o path) v fun _ _ => True := by
  unfold Vfs.scan
  split
  · exact .pure h trivial
  · refine (nodeAt h path).bind fun n v₁ h₁ _ hn => (stat hd h₁ hn).bind fun r v₂ h₂ _ _ => ?_
    cases r with
    | error e => exact .pure h₂ trivial
    | ok info =>
      refine (forIn (fun x hx _ v h => ?_) h₂ _).bind fun _ _ h₃ _ _ => .pure h₃ trivial
      refine (nodeAt h x.1).bind fun c v₃ h₃ _ hc => ?_
      obtain ⟨depth, hx⟩ := exists_of_mem_listings hx
      obtain ⟨hnames, hnodup⟩ := accepted_legible hd o depth x.1
      rw [hx]
      exact ⟨h₃.syncChildren hc hnames hnodup, shape_of_later (later_syncChildren v₃ c _), trivial⟩

end Keeps

/-! ## Looking up -/

/-- The nodes that some path leads to. -/
inductive InTree (v : Vfs κ ν ρ) : NodeId → Prop
  | root : InTree v rootId
  | child {n c : NodeId} (h : InTree v n) (hc : c ∈ (v.node n).children) : InTree v c

theorem peekFrom_append (ns ms : List String) :
    v.peekFrom n (ns ++ ms) = (v.peekFrom n ns).bind (v.peekFrom · ms) := by
  induction ns generalizing n with
  | nil => rfl
  | cons s ns ih =>
    rw [List.cons_append, peekFrom, peekFrom]
    cases v.child? n s with
    | none => rfl
    | some c => exact ih

theorem peekFrom_concat (ns : List String) (s : String) :
    v.peekFrom n (ns ++ [s]) = (v.peekFrom n ns).bind (v.child? · s) := by
  rw [peekFrom_append]
  congr
  funext m
  rw [peekFrom]
  cases v.child? m s <;> rfl

/-- A path that leads somewhere is left as it is when it is asked for. -/
theorem pokeFrom_of_peekFrom {ns : List String} (h : v.peekFrom n ns = some m) : v.pokeFrom n ns = (m, v) := by
  induction ns generalizing n with
  | nil =>
    cases h
    rfl
  | cons s ns ih =>
    rw [peekFrom] at h
    split at h
    · next c hc =>
      rw [pokeFrom, pokeChild, hc]
      exact ih h
    · cases h

namespace Rooted

theorem child?_of_mem (h : v.Rooted) (hc : c ∈ (v.node n).children) : v.child? n (v.node c).name = some c :=
  h.linked.child?_of_mem hc

theorem names_root (h : v.Rooted) : v.names rootId = [] := h.linked.names_root

theorem names_of_mem (h : v.Rooted) (hc : c ∈ (v.node n).children) :
    IsName (v.node c).name ∧ v.names c = v.names n ++ [(v.node c).name] := by
  obtain ⟨hlt, hp⟩ := h.children n c hc
  have hname := (h.name c hlt n hp).2
  exact ⟨hname, h.linked.names_of_mem hc hname.1⟩

/-- A node in the tree has names that lead to it. -/
theorem peekFrom_names (h : v.Rooted) (hn : v.InTree n) :
    (∀ s ∈ v.names n, IsName s) ∧ v.peekFrom rootId (v.names n) = some n := by
  induction hn with
  | root =>
    rw [h.names_root]
    exact ⟨by simp, rfl⟩
  | @child n c _ hc ih =>
    obtain ⟨hname, hnames⟩ := h.names_of_mem hc
    rw [hnames, peekFrom_concat, ih.2]
    refine ⟨fun s hs => ?_, h.child?_of_mem hc⟩
    rcases List.mem_append.mp hs with hs | hs
    · exact ih.1 s hs
    · exact List.mem_singleton.mp hs ▸ hname

/-- Names lead to no node but the one that has them. -/
theorem names_of_peekFrom (h : v.Rooted) {ns : List String} (hn : v.peekFrom rootId ns = some n) : v.names n = ns := by
  induction ns using List.reverseRecOn generalizing n with
  | nil =>
    cases hn
    exact h.names_root
  | append_singleton ns s ih =>
    rw [peekFrom_concat] at hn
    obtain ⟨m, hm, hc⟩ := Option.bind_eq_some_iff.mp hn
    obtain ⟨hmem, rfl⟩ := child?_eq_some hc
    rw [(h.names_of_mem hmem).2, ih hm]

theorem peek?_path (h : v.Rooted) (hn : v.InTree n) : v.peek? (v.path n) = some n := by
  obtain ⟨hnames, hpeek⟩ := h.peekFrom_names hn
  rw [peek?, path_eq_pathOf, splitPath_pathOf hnames, hpeek]

theorem poke_path (h : v.Rooted) (hn : v.InTree n) : v.poke (v.path n) = (n, v) :=
  pokeFrom_of_peekFrom (h.peek?_path hn)

end Rooted

/-! ### After a path was asked for -/

namespace Linked

variable {P : String → Prop}

theorem child?_appendChild (h : v.Linked P) (hn : n < v.nodes.size) (kind : Option FileKind)
    (hc : v.child? m t = some c) : (v.appendChild n s kind).2.child? m t = some c := by
  have hshape : Shape v (v.appendChild n s kind).2 := shape_of_later (.appendChild v n s kind)
  have hm : m < v.nodes.size := by
    by_contra hm
    obtain ⟨hmem, -⟩ := child?_eq_some hc
    rw [node_of_size_le (Nat.le_of_not_lt hm)] at hmem
    cases hmem
  have hprefix : (v.node m).children <+: ((v.appendChild n s kind).2.node m).children := by
    rw [node_appendChild kind hn hm]
    split
    · next heq => exact ⟨[v.nodes.size], by rw [heq]⟩
    · exact List.prefix_rfl
  obtain ⟨more, hmore⟩ := hprefix
  have hold : (v.node m).children.find? (fun c => ((v.appendChild n s kind).2.node c).name = t) = some c := by
    rw [← hc, child?]
    exact List.find?_congr fun a ha => by rw [hshape.name a (h.children m a ha).1]
  rw [child?, ← hmore, List.find?_append, hold]
  rfl

theorem peekFrom_pokeChild (h : v.Linked P) (hn : n < v.nodes.size) {ns : List String}
    (hm : v.peekFrom m ns = some c) : (v.pokeChild n s).2.peekFrom m ns = some c := by
  rw [Vfs.pokeChild]
  split
  · exact hm
  · induction ns generalizing m with
    | nil => exact hm
    | cons t ns ih =>
      rw [peekFrom] at hm ⊢
      split at hm
      · next a ha =>
        rw [h.child?_appendChild hn none ha]
        exact ih hm
      · cases hm

theorem peekFrom_pokeFrom (h : v.Linked P) (hn : n < v.nodes.size) {names ns : List String}
    (hnames : ∀ s ∈ names, P s) (hm : v.peekFrom m ns = some c) :
    (v.pokeFrom n names).2.peekFrom m ns = some c := by
  induction names generalizing v n with
  | nil => exact hm
  | cons s names ih =>
    exact ih (h.pokeChild hn (hnames s List.mem_cons_self)) (h.pokeChild_lt hn s)
      (fun t ht => hnames t (List.mem_cons_of_mem s ht)) (h.peekFrom_pokeChild hn hm)

end Linked

namespace Rooted

theorem peek?_poke (h : v.Rooted) (p : String) {q : String} (hq : v.peek? q = some n) :
    (v.poke p).2.peek? q = some n :=
  h.linked.peekFrom_pokeFrom h.root.1 (fun _ => isName_of_mem_splitPath) hq

/-! ### After a node was removed -/

/-- A path that leads nowhere leads nowhere further on. -/
theorem peekFrom_eq_none_of_prefix {ns ms : List String} (hns : v.peekFrom n ns = none) (hms : ns <+: ms) :
    v.peekFrom n ms = none := by
  obtain ⟨rest, rfl⟩ := hms
  rw [peekFrom_append, hns]
  rfl

/-- Without a child, its names and all that go on from there lead nowhere. -/
theorem peekFrom_dropChild (h : v.Rooted) {ns : List String} (hn : v.peekFrom rootId ns = some n)
    (hc : v.child? n s = some c) (ms : List String) :
    (v.dropChild n c).peekFrom rootId ms = if ns ++ [s] <+: ms then none else v.peekFrom rootId ms := by
  induction ms using List.reverseRecOn with
  | nil =>
    rw [if_neg (by simp)]
    rfl
  | append_singleton ms t ih =>
    rw [peekFrom_concat, peekFrom_concat, ih]
    by_cases hms : ns ++ [s] <+: ms
    · rw [if_pos hms, if_pos (hms.trans (List.prefix_append ms [t]))]
      rfl
    · rw [if_neg hms]
      cases hm : v.peekFrom rootId ms with
      | none => simp
      | some m =>
        -- The step leads to the child exactly if it is taken from the node, by the name.
        have hwhere : ns ++ [s] <+: ms ++ [t] ↔ m = n ∧ t = s := by
          rw [List.prefix_concat_iff]
          constructor
          · rintro (heq | hpre)
            · obtain ⟨rfl, hts⟩ := List.append_inj' heq rfl
              obtain rfl := List.singleton_inj.mp hts
              exact ⟨Option.some.inj (hm.symm.trans hn), rfl⟩
            · exact absurd hpre hms
          · rintro ⟨rfl, rfl⟩
            rw [← h.names_of_peekFrom hn, ← h.names_of_peekFrom hm]
            exact .inl rfl
        simp only [hwhere, Option.bind_some]
        exact h.linked.child?_dropChild hc m t

theorem peek?_remove (h : v.Rooted) {p : String} (hp : splitPath p ≠ []) (q : String) :
    (v.remove p).2.peek? q = if splitPath p <+: splitPath q then none else v.peek? q := by
  obtain ⟨ns, s, hps⟩ : ∃ ns s, splitPath p = ns ++ [s] := ⟨_, _, (List.dropLast_append_getLast hp).symm⟩
  have hnone (hpeek : v.peek? p = none) :
      v.peek? q = if splitPath p <+: splitPath q then none else v.peek? q := by
    split
    · next hpre => exact peekFrom_eq_none_of_prefix hpeek hpre
    · rfl
  have hpeek : v.peek? p = (v.peekFrom rootId ns).bind (v.child? · s) := by rw [peek?, hps, peekFrom_concat]
  rw [Vfs.remove]
  simp only [hps, List.getLast?_concat, List.dropLast_concat]
  cases hn : v.peekFrom rootId ns with
  | none => exact hps ▸ hnone (by rw [hpeek, hn]; rfl)
  | some n =>
    dsimp only
    rw [removeChild]
    cases hc : v.child? n s with
    | none => exact hps ▸ hnone (by rw [hpeek, hn]; exact hc)
    | some c => exact h.peekFrom_dropChild hn hc (splitPath q)

theorem remove_of_root {p : String} (hp : splitPath p = []) : v.remove p = (none, v) := by
  simp [Vfs.remove, hp]

theorem remove (h : v.Rooted) (p : String) : (v.remove p).2.Rooted := by
  unfold Vfs.remove
  dsimp only
  split
  · rw [removeChild]
    split
    · exact h
    · exact h.dropChild ..
  · exact h

end Rooted

/-! ## Whatever is asked -/

/-- The trees that calls lead to, each on a disk of its own. A call may concern any node that was ever made.
Looking a path up changes nothing. -/
inductive Reached : Vfs κ ν ρ → Prop
  | make (e : Expiry) : Reached (make e)
  | poke {v : Vfs κ ν ρ} (h : Reached v) (path : String) : Reached (v.poke path).2
  | locate {v : Vfs κ ν ρ} (h : Reached v) {d : Disk} (hd : d.Legible) {n : NodeId} (hn : n < v.nodes.size)
      {s : String} (hs : IsName s) : Reached (locate d n s v).2
  | addChild {v : Vfs κ ν ρ} (h : Reached v) {n : NodeId} (hn : n < v.nodes.size) {s : String} (hs : IsName s)
      (kind : FileKind) : Reached (v.addChild n s kind).2
  | remove {v : Vfs κ ν ρ} (h : Reached v) (path : String) : Reached (v.remove path).2
  | stat {v : Vfs κ ν ρ} (h : Reached v) {d : Disk} (hd : d.Legible) {n : NodeId} (hn : n < v.nodes.size) :
      Reached (stat d n v).2
  | expire {v : Vfs κ ν ρ} (h : Reached v) (n : NodeId) : Reached (expire n v)
  | scan {v : Vfs κ ν ρ} (h : Reached v) {d : Disk} (hd : d.Legible) (o : ScanOptions) (path : String) :
      Reached (scan d o path v).2

theorem Reached.rooted (h : Reached v) : v.Rooted := by
  induction h with
  | make e => exact .make e
  | poke _ path ih => exact ih.poke path
  | locate _ hd hn hs ih => exact (Keeps.locate hd hs ih hn).1
  | addChild _ hn hs kind ih => exact ih.addChild hn hs kind
  | remove _ path ih => exact ih.remove path
  | stat _ hd hn ih => exact ih.stat hd hn
  | expire _ n ih => exact ih.modifyNode (fun _ => rfl) (fun _ => rfl) fun _ => .refl _
  | scan _ hd o path ih => exact (Keeps.scan hd ih o path).1

/-- Siblings have different names and the parent that lists them; a node in the tree is what its path leads to,
looked up or asked for; a path that is asked for changes no other; a path that is removed takes with it exactly
those that go on from it. The root cannot be removed. -/
theorem paths_of_reached (h : Reached v) :
    (∀ n, (v.childNames n).Nodup ∧ ∀ c ∈ (v.node n).children, (v.node c).parent = some n) ∧
      (∀ n, v.InTree n → v.peek? (v.path n) = some n ∧ v.poke (v.path n) = (n, v)) ∧
      (∀ p q n, v.peek? q = some n → (v.poke p).2.peek? q = some n) ∧
      (∀ p, splitPath p ≠ [] → ∀ q,
        (v.remove p).2.peek? q = if splitPath p <+: splitPath q then none else v.peek? q) ∧
      ∀ p, splitPath p = [] → v.remove p = (none, v) := by
  have hrooted := h.rooted
  refine ⟨fun n => ⟨hrooted.distinct n, fun c hc => (hrooted.children n c hc).2⟩, fun n hn => ?_, fun p q n hq => ?_,
    fun p hp q => ?_, fun p hp => ?_⟩
  · exact ⟨hrooted.peek?_path hn, hrooted.poke_path hn⟩
  · exact hrooted.peek?_poke p hq
  · exact hrooted.peek?_remove hp q
  · exact Rooted.remove_of_root hp

/-- A directory with a file and a link. -/
def shelf : Disk := ⟨[(["a"], ⟨.dir, 1⟩), (["a", "b"], ⟨.file [] none, 1⟩), (["a", "c"], ⟨.link "b", 1⟩)]⟩

/-- A file of the directory and a name that it does not have were asked for. -/
def asked : Vfs Unit Unit Unit :=
  (((make .never).poke "/a/b").2.poke "/a/x").2

/-- The directory was listed. -/
def browsed : Vfs Unit Unit Unit :=
  (stat shelf (asked.poke "/a").1 (asked.poke "/a").2).2

theorem paths_of_reached_browsed :
    Reached browsed ∧ (browsed.childNames 1).Nodup ∧ (browsed.remove "/a").2.peek? "/a/b" = none := by
  have hshelf : shelf.Legible := Disk.Proper.legible (by decide) (by decide)
  have hasked : Reached asked := .poke (.poke (.make .never) "/a/b") "/a/x"
  have h : Reached browsed := .stat (.poke hasked "/a") hshelf (hasked.rooted.poke_lt "/a")
  obtain ⟨hnames, -, -, hremove, -⟩ := paths_of_reached h
  refine ⟨h, (hnames 1).1, ?_⟩
  rw [hremove "/a" (by decide) "/a/b", if_pos (by decide)]

/-- The root stays where it is when its path is removed. -/
theorem not_peek?_remove_root : ¬ ∀ v : Vfs Unit Unit Unit, Reached v → ∀ p q, splitPath p <+: splitPath q →
    (v.remove p).2.peek? q = none := by
  intro h
  have hroot := h (make .never) (.make .never) "/" "/" List.prefix_rfl
  rw [Rooted.remove_of_root splitPath_slash, peek?, splitPath_slash] at hroot
  cases hroot

end Vfs
end EditorAgent

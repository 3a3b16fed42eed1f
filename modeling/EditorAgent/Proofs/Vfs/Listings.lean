import EditorAgent.Go.Resolve
import EditorAgent.Proofs.Vfs.Looks
import EditorAgent.Proofs.Vfs.Rooted
import Mathlib

/-!
# What directories list

On a disk that does not change, a directory that was looked at lists each of its entries once. A name that was
asked for in vain is listed beside them, until the directory is looked at for the first time. So a listing is
that of the disk if only names were asked for that are there.
-/

namespace EditorAgent

namespace Vfs

variable {κ ν ρ : Type} {τ asked asked' : Trust} {d : Disk} {ok : List String → κ → ν → Prop} {v v' : Vfs κ ν ρ}
  {n m : NodeId} {ns : List String} {s : String}

/-- A node lists each name once, all entries of a directory that was found there, and besides them only names that
were asked for. -/
structure Faithful (asked : Trust) (d : Disk) (v : Vfs κ ν ρ) (n : NodeId) : Prop where
  distinct : (v.childNames n).Nodup
  complete : ∀ info, (v.node n).stat = .found info → info.kind = .dir → d.names (v.path n) ⊆ v.childNames n
  known : ∀ s ∈ v.childNames n, s ∈ d.names (v.path n) ∨ asked (v.names n) s

/-- A tree that mirrors a disk, as far as the disk was looked at. -/
structure Mirrors (asked : Trust) (d : Disk) (v : Vfs κ ν ρ) : Prop where
  coherent : Coherent .none d (fun _ _ _ => True) v
  faithful : ∀ n < v.nodes.size, Faithful asked d v n

namespace Faithful

theorem transfer (h : Faithful asked d v n) (hn : Sound d ok v n) (hs : Shape v v') (hlt : n < v.nodes.size)
    (hstat : (v'.node n).stat = (v.node n).stat) (hch : (v'.node n).children = (v.node n).children) :
    Faithful asked d v' n := by
  have hnames := childNames_eq hn hs hch
  refine ⟨hnames ▸ h.distinct, ?_, ?_⟩ <;> rw [hnames, hs.path_eq hlt]
  · rw [hstat]
    exact h.complete
  · rw [hs.names_eq hlt]
    exact h.known

theorem of_childless (hch : (v.node n).children = []) (hstat : (v.node n).stat = .unknown) : Faithful asked d v n := by
  have hnames : v.childNames n = [] := by rw [childNames, hch, List.map_nil]
  refine ⟨hnames ▸ List.nodup_nil, fun info hi => ?_, by simp [hnames]⟩
  rw [hstat] at hi
  cases hi

theorem mono (h : Faithful asked d v n) (hasked : ∀ s, asked (v.names n) s → asked' (v.names n) s) :
    Faithful asked' d v n :=
  ⟨h.distinct, h.complete, fun s hs => (h.known s hs).imp_right (hasked s)⟩

end Faithful

/-- Only the directory that is listed gets other children. -/
theorem children_rescan_of_ne (hmn : m ≠ n) : ((rescan d n v).node m).children = (v.node m).children := by
  rw [rescan]
  split
  · rw [syncChildren_eq, node_modifyNode_of_ne _ hmn, (nodesFor_bare v n _ _).1.children]
  · rfl

namespace Mirrors

theorem make (e : Expiry) : Mirrors asked d (make e : Vfs κ ν ρ) := by
  refine ⟨coherent_make .none d _ e, fun n hn => ?_⟩
  obtain rfl : n = 0 := by simpa [Vfs.make] using hn
  exact .of_childless rfl rfl

theorem mono (h : Mirrors asked d v) (hasked : ∀ ns s, asked ns s → asked' ns s) : Mirrors asked' d v :=
  ⟨h.coherent, fun n hn => (h.faithful n hn).mono (hasked _)⟩

/-- A node may lose children as long as nothing is said of its listing that was not said before. -/
theorem modifyNode {f : Node κ ν → Node κ ν} (h : Mirrors asked d v)
    (hc : Coherent .none d (fun _ _ _ => True) (v.modifyNode n f)) (hs : Shape v (v.modifyNode n f))
    (hsub : ((f (v.node n)).children).Sublist (v.node n).children)
    (hlisted : ∀ info, (f (v.node n)).stat = .found info → info.kind = .dir →
      (v.node n).stat = .found info ∧ (f (v.node n)).children = (v.node n).children) :
    Mirrors asked d (v.modifyNode n f) := by
  refine ⟨hc, fun m hm => ?_⟩
  rw [size_modifyNode] at hm
  have hm' := h.faithful m hm
  have hsound := h.coherent.sound m hm
  by_cases hmn : m = n
  · subst hmn
    have hself := node_modifyNode_self f hm
    have hnames : (v.modifyNode m f).childNames m = (f (v.node m)).children.map fun c => (v.node c).name := by
      rw [childNames, hself]
      exact List.map_congr_left fun c hc => hs.name c (hsound.children c (hsub.subset hc)).1
    have hsubNames : ((v.modifyNode m f).childNames m).Sublist (v.childNames m) := hnames ▸ hsub.map _
    refine ⟨hsubNames.nodup hm'.distinct, fun info hi hd => ?_, fun t ht => ?_⟩
    · obtain ⟨hstat, hch⟩ := hlisted info (hself ▸ hi) hd
      rw [hs.path_eq hm, hnames, hch]
      exact hm'.complete info hstat hd
    · rw [hs.path_eq hm, hs.names_eq hm]
      exact hm'.known t (hsubNames.subset ht)
  · have hnode := node_modifyNode_of_ne (v := v) f hmn
    exact hm'.transfer hsound hs hm (by rw [hnode]) (by rw [hnode])

/-! ### Asking for a node -/

theorem appendChild (h : Mirrors asked d v) (hn : Stands v n ns) (hs : s ≠ "") (hask : asked ns s)
    (hnew : v.child? n s = none) : Mirrors asked d (v.appendChild n s none).2 := by
  have hframe := Frame.appendChild v n s none
  have hself : (v.appendChild n s none).2.node n =
      { v.node n with children := (v.node n).children ++ [v.nodes.size] } := by
    rw [node_appendChild none hn.lt hn.lt, if_pos rfl]
  have hlast : (v.appendChild n s none).2.node v.nodes.size = { parent := some n, name := s, kind := none } := by
    rw [appendChild_snd, node_modifyNode_of_ne _ (Nat.ne_of_gt hn.lt), node_makeNode, if_pos rfl]
  refine ⟨(h.coherent.appendChild none hn hs (fun _ hfalse => hfalse.elim) hnew).1, fun m hm => ?_⟩
  by_cases hold : m < v.nodes.size
  · have hm' := h.faithful m hold
    by_cases hmn : m = n
    · subst hmn
      have hnames : (v.appendChild m s none).2.childNames m = v.childNames m ++ [s] := by
        rw [childNames, hself, List.map_append, List.map_singleton, hlast, childNames]
        congr 1
        exact List.map_congr_left fun c hc => hframe.name c ((h.coherent.sound m hold).children c hc).1
      refine ⟨?_, fun info hi hd => ?_, fun t ht => ?_⟩
      · rw [hnames]
        exact hm'.distinct.append (List.nodup_singleton s) (by simpa using not_mem_childNames hnew)
      · rw [hself] at hi
        rw [hnames, hframe.path_eq hold]
        exact fun t ht => List.mem_append_left _ (hm'.complete info hi hd ht)
      · rw [hnames] at ht
        rw [hframe.path_eq hold, hframe.names_eq hold]
        rcases List.mem_append.mp ht with ht | ht
        · exact hm'.known t ht
        · rw [List.mem_singleton.mp ht, hn.names]
          exact .inr hask
    · have hnode : (v.appendChild n s none).2.node m = v.node m := by
        rw [node_appendChild none hn.lt hold, if_neg (Ne.symm hmn)]
      exact hm'.transfer (h.coherent.sound m hold) hframe.toShape hold (by rw [hnode]) (by rw [hnode])
  · have hnew : m = v.nodes.size := by
      simp only [appendChild_snd, size_modifyNode, size_makeNode] at hm
      omega
    exact .of_childless (by rw [hnew, hlast]) (by rw [hnew, hlast])

theorem pokeChild (h : Mirrors asked d v) (hn : Stands v n ns) (hs : s ≠ "") (hask : asked ns s) :
    Mirrors asked d (v.pokeChild n s).2 ∧ Shape v (v.pokeChild n s).2 ∧
      Stands (v.pokeChild n s).2 (v.pokeChild n s).1 (ns ++ [s]) := by
  obtain ⟨-, hframe, hstands⟩ := gives_pokeChild h.coherent hn hs (fun _ hfalse => hfalse.elim)
  refine ⟨?_, hframe.toShape, hstands⟩
  rw [Vfs.pokeChild]
  split
  · exact h
  · next hnew => exact h.appendChild hn hs hask hnew

theorem pokeFrom {rest : List String} (h : Mirrors asked d v) (hn : Stands v n ns) (hne : ∀ s ∈ rest, s ≠ "")
    (hask : Asks asked (ns ++ rest)) :
    Mirrors asked d (v.pokeFrom n rest).2 ∧ Stands (v.pokeFrom n rest).2 (v.pokeFrom n rest).1 (ns ++ rest) := by
  induction rest generalizing v n ns with
  | nil => exact ⟨h, by simpa [Vfs.pokeFrom] using hn⟩
  | cons s rest ih =>
    obtain ⟨h', -, hn'⟩ := h.pokeChild hn (hne s List.mem_cons_self) (hask ns s ⟨rest, by simp⟩)
    obtain ⟨hrest, hstands⟩ := ih h' hn' (fun t ht => hne t (List.mem_cons_of_mem s ht)) (by simpa using hask)
    rw [List.append_assoc] at hstands
    exact ⟨hrest, hstands⟩

theorem poke (h : Mirrors asked d v) {path : String} (hask : Asks asked (splitPath path)) :
    Mirrors asked d (v.poke path).2 ∧ Stands (v.poke path).2 (v.poke path).1 (splitPath path) :=
  h.pokeFrom h.coherent.stands_root (fun _ hs => (isName_of_mem_splitPath hs).1) hask

/-! ### Looking at the disk -/

variable {info : FileInfo} {e : DiskEntry}

theorem observeMissing (h : Mirrors asked d v) (hn : n < v.nodes.size) (he : ∀ e, d.entry (v.path n) ≠ .ok e) :
    Mirrors asked d (observeMissing n v) := by
  obtain ⟨hc, hframe, hstat⟩ := coherent_observeMissing h.coherent hn he
  rw [observeMissing_eq (h.coherent.sound n hn).stat he] at hc hframe hstat ⊢
  refine h.modifyNode hc hframe.toShape ?_ (by rintro info ⟨⟩)
  dsimp only
  split
  · exact .refl _
  · exact List.nil_sublist _

theorem rescan (hp : d.Named) (hkeys : (d.entries.map (·.1)).Nodup) (h : Mirrors asked d v) (hn : n < v.nodes.size)
    (he : d.entry (v.path n) = .ok e) (hi : infoOf (v.node n).name e = info) (hd : info.kind = .dir) :
    Mirrors asked d (Vfs.rescan d n (v.modifyNode n (Node.found · info v.expiry))) := by
  obtain ⟨hsync, -⟩ := h.coherent.synced_rescan hp hn he hi hd
  obtain ⟨hc, hframe, -⟩ := h.coherent.rescan hp hn he hi hd
  set v₁ := v.modifyNode n (Node.found · info v.expiry) with hv₁
  have hsize : v₁.nodes.size = v.nodes.size := size_modifyNode v n _
  refine ⟨hc, fun m hm => ?_⟩
  by_cases hmn : m = n
  · subst hmn
    refine ⟨?_, fun _ _ _ => ?_, fun s hs => .inl ?_⟩
    · rw [hsync.names]
      exact Disk.nodup_names hkeys _
    · rw [hsync.names, hframe.path_eq hn]
      exact fun _ => id
    · rw [hframe.path_eq hn]
      exact hsync.names ▸ hs
  · have hnode : v₁.node m = v.node m := node_modifyNode_of_ne _ hmn
    have hch : ((Vfs.rescan d n v₁).node m).children = (v.node m).children := by
      rw [children_rescan_of_ne hmn, hnode]
    by_cases hold : m < v.nodes.size
    · refine (h.faithful m hold).transfer (h.coherent.sound m hold) hframe.toShape hold ?_ hch
      rw [hsync.stat m (hsize ▸ hold), hnode]
    · have hnew := Nat.le_of_not_lt hold
      refine .of_childless ?_ (hsync.fresh m (hsize ▸ hnew))
      rw [hch, node_of_size_le hnew]
      rfl

theorem observeFound (hp : d.Named) (hkeys : (d.entries.map (·.1)).Nodup) (h : Mirrors asked d v)
    (hn : n < v.nodes.size) (he : d.entry (v.path n) = .ok e) (hi : infoOf (v.node n).name e = info) :
    Mirrors asked d (observeFound d n info v) := by
  obtain ⟨hc, hframe, -⟩ := coherent_observeFound hp h.coherent hn he hi
  have hstat := (h.coherent.sound n hn).stat
  cases hs : (v.node n).stat with
  | missing =>
    rw [hs] at hstat
    exact absurd he (hstat e)
  | found old =>
    -- The disk says what it said before.
    have hold : old = info := by
      rw [hs] at hstat
      obtain ⟨e', he', rfl⟩ := hstat
      rw [← hi, Except.ok.inj (he'.symm.trans he)]
    subst hold
    rw [observeFound_again hs] at hc hframe ⊢
    refine h.modifyNode hc hframe.toShape (.refl _) ?_
    rintro _ ⟨⟩ _
    exact ⟨hs, rfl⟩
  | unknown =>
    by_cases hd : info.kind = .dir
    · rw [observeFound_dir hs hd]
      exact h.rescan hp hkeys hn he hi hd
    · rw [observeFound_file hs hd] at hc hframe ⊢
      refine h.modifyNode hc hframe.toShape (.refl _) ?_
      rintro _ ⟨⟩ hd'
      exact absurd hd' hd

theorem stat (hp : d.Named) (hkeys : (d.entries.map (·.1)).Nodup) (h : Mirrors asked d v) (hn : n < v.nodes.size) :
    Mirrors asked d (stat d n v).2 := by
  unfold Vfs.stat
  dsimp only
  split
  · exact h
  · exact h
  · rw [sync]
    split
    · next err herr => exact h.observeMissing hn fun e he => by simp [herr] at he
    · next e he => exact h.observeFound hp hkeys hn he rfl

end Mirrors

/-- A directory is seen to list each of its entries once, and besides them only names that were asked for there.
What is no directory lists nothing. -/
def Shows (asked : Trust) (d : Disk) (ns : List String) (r : Except VfsError (List String)) : Prop :=
  if d.kindAt (pathOf ns) = some .dir then
    ∃ names, r = .ok names ∧ names.Nodup ∧ d.names (pathOf ns) ⊆ names ∧
      ∀ s ∈ names, s ∈ d.names (pathOf ns) ∨ asked ns s
  else ∃ cause, r = .error cause

theorem Faithful.shows {info : FileInfo} (h : Faithful asked d v n) (hn : Stands v n ns)
    (hkind : d.kindAt (pathOf ns) = some .dir) (hstat : (v.node n).stat = .found info) (hd : info.kind = .dir) :
    Shows asked d ns (.ok (v.childNames n)) := by
  rw [Shows, if_pos hkind]
  refine ⟨_, rfl, h.distinct, ?_, ?_⟩ <;> rw [← hn.path_eq]
  · exact h.complete info hstat hd
  · rw [← hn.names]
    exact h.known

section Disk

variable (hp : d.Named) (hkeys : (d.entries.map (·.1)).Nodup)

include hp hkeys

theorem mirrors_stat (h : Mirrors asked d v) (hn : Stands v n ns) :
    Keeps (Mirrors asked d) (stat d n) v (Tells d n ns) := by
  obtain ⟨-, hframe, htells⟩ := gives_stat hp h.coherent hn
  exact ⟨h.stat hp hkeys hn.lt, hframe.toShape, htells⟩

theorem mirrors_hasKind (h : Mirrors asked d v) (hn : Stands v n ns) (kind : FileKind) :
    Keeps (Mirrors asked d) (hasKind d kind n) v fun _ _ => True := by
  refine (mirrors_stat hp hkeys h hn).bind fun r v' h' _ _ => ?_
  cases r <;> exact .pure h' trivial

/-- What a directory is seen to list. -/
theorem mirrors_readDir (h : Mirrors asked d v) (hn : Stands v n ns) :
    Keeps (Mirrors asked d) (readDir d n) v fun r v' =>
      if d.kindAt (pathOf ns) = some .dir then
        r = .ok (v'.node n).children ∧ ∃ info, (v'.node n).stat = .found info ∧ info.kind = .dir
      else ∃ cause, r = .error cause := by
  refine (mirrors_stat hp hkeys h hn).bind fun r v' h' hshape hr => ?_
  unfold Tells at hr
  cases he : d.entry (pathOf ns) with
  | error e =>
    rw [he] at hr
    obtain ⟨cause, rfl⟩ := hr
    refine .pure h' ?_
    rw [if_neg (by simp [Disk.kindAt, he])]
    exact ⟨cause, rfl⟩
  | ok e =>
    rw [he] at hr
    obtain ⟨name, rfl, hstat⟩ := hr
    have hkind : d.kindAt (pathOf ns) = some (infoOf name e).kind := by rw [Disk.kindAt, he]; rfl
    refine .get ?_
    by_cases hd : (infoOf name e).kind = .dir
    · rw [if_pos hd]
      refine .pure h' ?_
      rw [hkind, hd, if_pos rfl]
      exact ⟨rfl, _, hstat, hd⟩
    · rw [if_neg hd]
      refine .pure h' ?_
      rw [hkind, if_neg fun heq => hd (Option.some.inj heq)]
      exact ⟨_, rfl⟩

theorem mirrors_blob [DecidableEq κ] (h : Mirrors asked d v) (hn : Stands v n ns) :
    Keeps (Mirrors asked d) (blob d n) v fun _ _ => True := by
  refine (mirrors_stat hp hkeys h hn).bind fun r v' h' hshape _ => ?_
  have hn' := hn.shape hshape
  cases r with
  | error e => exact .pure h' trivial
  | ok info =>
    refine .get ?_
    split
    · exact .pure h' trivial
    split
    · exact .pure h' trivial
    split
    · exact .pure h' trivial
    · next data hread =>
      rw [hn'.path_eq] at hread
      obtain ⟨hc, hframe⟩ := h'.coherent.putBlob hn' hread
      exact ⟨h'.modifyNode hc hframe.toShape (.refl _) fun info hi _ => ⟨hi, rfl⟩, hframe.toShape, trivial⟩

theorem mirrors_locateIn {up : List NodeId} {places : List (List String)} (hs : s ≠ "")
    (hask : ∀ ns ∈ places, asked ns s) (h : Mirrors asked d v) (hup : List.Forall₂ (Stands v) up places) :
    Keeps (Mirrors asked d) (locateIn d s up) v fun _ _ => True := by
  induction up generalizing v places with
  | nil => exact .pure h trivial
  | cons n up ih =>
    obtain ⟨ns, rest, hn, hrest, rfl⟩ := List.forall₂_cons_left_iff.mp hup
    have hpoke : Keeps (Mirrors asked d) (fun v => v.pokeChild n s) v fun c v' => Stands v' c (ns ++ [s]) :=
      h.pokeChild hn hs (hask ns List.mem_cons_self)
    refine hpoke.bind fun c v₁ h₁ hshape₁ hc => ?_
    refine (mirrors_stat hp hkeys h₁ hc).bind fun r v₂ h₂ hshape₂ _ => ?_
    cases r with
    | ok info => exact .pure h₂ trivial
    | error e =>
      exact ih (fun ms hms => hask ms (List.mem_cons_of_mem ns hms)) h₂
        (hrest.imp fun _ _ hx => hx.shape (hshape₁.trans hshape₂))

/-- A name is looked for where a node stands and at all places above it. -/
theorem mirrors_locate (hs : s ≠ "") (h : Mirrors asked d v) (hn : Stands v n ns)
    (hask : ∀ pre, pre <+: ns → asked pre s) : Keeps (Mirrors asked d) (locate d n s) v fun _ _ => True :=
  .get (mirrors_locateIn hp hkeys hs (fun ms hms => hask ms (by simpa using hms)) h (h.coherent.lineage_stands hn))

theorem mirrors_namesAt (h : Mirrors asked d v) (path : String) (hask : Asks asked (splitPath path)) :
    Keeps (Mirrors asked d) (namesAt d path) v fun r _ => Shows asked d (splitPath path) r := by
  have hnode : Keeps (Mirrors asked d) (nodeAt path) v fun n v' => Stands v' n (splitPath path) := by
    obtain ⟨h', hn⟩ := h.poke hask
    exact ⟨h', shape_of_later (looks_nodeAt path v), hn⟩
  have hread : Keeps (Mirrors asked d) (readDirAt d path) v fun r v' =>
      Shows asked d (splitPath path) (r.map fun cs => cs.map fun c => (v'.node c).name) := by
    refine hnode.bind fun n v₁ h₁ _ hn => ?_
    obtain ⟨h₂, hshape, hr⟩ := mirrors_readDir hp hkeys h₁ hn
    refine ⟨h₂, hshape, ?_⟩
    split at hr
    · next hkind =>
      obtain ⟨hr, info, hstat, hd⟩ := hr
      have hn₂ := hn.shape hshape
      rw [hr]
      exact (h₂.faithful n hn₂.lt).shows hn₂ hkind hstat hd
    · next hkind =>
      obtain ⟨cause, hr⟩ := hr
      rw [hr, Shows, if_neg hkind]
      exact ⟨cause, rfl⟩
  refine hread.bind fun r v' h' _ hr => ?_
  cases r with
  | error e => exact .pure h' hr
  | ok cs => exact .get (.pure h' hr)

/-- Nothing is asked for below a path when the path itself is asked for. -/
theorem Mirrors.shows (h : Mirrors asked d v) (path : String) :
    Shows asked d (splitPath path) (namesAt d path v).1 := by
  have h' : Mirrors (fun ns s => asked ns s ∨ ns ++ [s] <+: splitPath path) d v := h.mono fun _ _ => .inl
  obtain ⟨-, -, hshows⟩ := mirrors_namesAt hp hkeys h' path fun _ _ => .inr
  have hbelow (s : String) : ¬ splitPath path ++ [s] <+: splitPath path := fun hpre => by
    have hlen := hpre.length_le
    rw [List.length_append, List.length_singleton] at hlen
    omega
  simpa [Shows, hbelow] using hshows

end Disk

/-- The trees that calls lead to on a disk that does not change. What is asked for by name is on record, with the
place where it is asked for; a call may concern any node that was ever made. Looking a path up changes nothing. -/
inductive Browsed [DecidableEq κ] (d : Disk) (asked : Trust) : Vfs κ ν ρ → Prop
  | make (e : Expiry) : Browsed d asked (make e)
  | poke {v : Vfs κ ν ρ} (h : Browsed d asked v) {path : String} (hask : Asks asked (splitPath path)) :
      Browsed d asked (v.poke path).2
  | locate {v : Vfs κ ν ρ} (h : Browsed d asked v) {n : NodeId} (hn : n < v.nodes.size) {s : String} (hs : s ≠ "")
      (hask : ∀ pre, pre <+: v.names n → asked pre s) : Browsed d asked (locate d n s v).2
  | stat {v : Vfs κ ν ρ} (h : Browsed d asked v) {n : NodeId} (hn : n < v.nodes.size) :
      Browsed d asked (stat d n v).2
  | hasKind {v : Vfs κ ν ρ} (h : Browsed d asked v) {n : NodeId} (hn : n < v.nodes.size) (kind : FileKind) :
      Browsed d asked (hasKind d kind n v).2
  | readDir {v : Vfs κ ν ρ} (h : Browsed d asked v) {n : NodeId} (hn : n < v.nodes.size) :
      Browsed d asked (readDir d n v).2
  | blob {v : Vfs κ ν ρ} (h : Browsed d asked v) {n : NodeId} (hn : n < v.nodes.size) :
      Browsed d asked (blob d n v).2

theorem Browsed.mirrors [DecidableEq κ] (hp : d.Named) (hkeys : (d.entries.map (·.1)).Nodup)
    (h : Browsed d asked v) : Mirrors asked d v := by
  induction h with
  | make e => exact .make e
  | poke _ hask ih => exact (ih.poke hask).1
  | locate _ hn hs hask ih => exact (mirrors_locate hp hkeys hs ih ⟨hn, rfl⟩ hask).1
  | stat _ hn ih => exact ih.stat hp hkeys hn
  | hasKind _ hn kind ih => exact (mirrors_hasKind hp hkeys ih ⟨hn, rfl⟩ kind).1
  | readDir _ hn ih => exact (mirrors_readDir hp hkeys ih ⟨hn, rfl⟩).1
  | blob _ hn ih => exact (mirrors_blob hp hkeys ih ⟨hn, rfl⟩).1

/-- Each name that is listed is one of the entries if each name that was asked for is. -/
theorem Shows.perm {names : List String} (hkeys : (d.entries.map (·.1)).Nodup) (h : Shows asked d ns (.ok names))
    (hasked : ∀ s, asked ns s → s ∈ d.names (pathOf ns)) : names.Perm (d.names (pathOf ns)) := by
  unfold Shows at h
  split at h
  · obtain ⟨_, ⟨⟩, hdistinct, hcomplete, hknown⟩ := h
    refine (List.perm_ext_iff_of_nodup hdistinct (Disk.nodup_names hkeys _)).mpr fun s => ⟨fun hs => ?_, fun hs => ?_⟩
    · exact (hknown s hs).elim id (hasked s)
    · exact hcomplete hs
  · obtain ⟨_, ⟨⟩⟩ := h

/-- Whether there are sources among the names is told by the entries if each source that was asked for is one. -/
theorem Shows.any {names : List String} {p : String → Bool} (h : Shows asked d ns (.ok names))
    (hasked : ∀ s, p s = true → asked ns s → s ∈ d.names (pathOf ns)) :
    names.any p = (d.names (pathOf ns)).any p := by
  unfold Shows at h
  split at h
  · obtain ⟨_, ⟨⟩, -, hcomplete, hknown⟩ := h
    rw [Bool.eq_iff_iff, List.any_eq_true, List.any_eq_true]
    constructor
    · rintro ⟨s, hs, hps⟩
      exact ⟨s, (hknown s hs).elim id (hasked s hps), hps⟩
    · rintro ⟨s, hs, hps⟩
      exact ⟨s, hcomplete hs, hps⟩
  · obtain ⟨_, ⟨⟩⟩ := h

theorem Shows.hasGoFiles {t : Go.Tree} {dir : String} (h : Shows asked d (splitPath dir) (namesAt d dir t).1)
    (hasked : ∀ s, Go.isPackageFileName s = true → asked (splitPath dir) s → s ∈ d.names (pathOf (splitPath dir))) :
    (Go.hasGoFiles d dir t).1 = (decide (d.kindAt (pathOf (splitPath dir)) = some .dir) &&
      (d.names (pathOf (splitPath dir))).any Go.isPackageFileName) := by
  rw [Go.hasGoFiles]
  simp only [bind, StateT.bind]
  revert h
  generalize namesAt d dir t = seen
  obtain ⟨cause | names, t'⟩ := seen <;> intro h
  · change false = _
    rw [Shows] at h
    split at h
    · obtain ⟨names, ⟨⟩, -⟩ := h
    · next hkind => simp [hkind]
  · change names.any Go.isPackageFileName = _
    have hany := h.any hasked
    rw [Shows] at h
    split at h
    · next hkind => simp [hkind, hany]
    · obtain ⟨cause, ⟨⟩⟩ := h

/-- A directory lists each of its entries once, and besides them only names that were asked for there. If these are
entries too, the listing is that of the disk; whether it shows a package source, the disk tells if no such source
was asked for in vain. -/
theorem listings_of_browsed [DecidableEq κ] (hp : d.Named) (hkeys : (d.entries.map (·.1)).Nodup) :
    (∀ v : Vfs κ ν ρ, Browsed d asked v → ∀ path,
      Shows asked d (splitPath path) (namesAt d path v).1 ∧
        ((∀ s, asked (splitPath path) s → s ∈ d.names (pathOf (splitPath path))) → ∀ names,
          (namesAt d path v).1 = .ok names → names.Perm (d.names (pathOf (splitPath path))))) ∧
      ∀ t : Go.Tree, Browsed d asked t → ∀ dir,
        (∀ s, Go.isPackageFileName s = true → asked (splitPath dir) s → s ∈ d.names (pathOf (splitPath dir))) →
        (Go.hasGoFiles d dir t).1 = (decide (d.kindAt (pathOf (splitPath dir)) = some .dir) &&
          (d.names (pathOf (splitPath dir))).any Go.isPackageFileName) := by
  refine ⟨fun v h path => ?_, fun t h dir hasked => ?_⟩
  · have hshows := (h.mirrors hp hkeys).shows hp hkeys path
    exact ⟨hshows, fun hasked names hr => (hr ▸ hshows).perm hkeys hasked⟩
  · exact ((h.mirrors hp hkeys).shows hp hkeys dir).hasGoFiles hasked

/-- A directory with a source and a directory. -/
def workshop : Disk := ⟨[(["w"], ⟨.dir, 1⟩), (["w", "a.go"], ⟨.file [] none, 1⟩), (["w", "b"], ⟨.dir, 1⟩)]⟩

/-- The names that are asked for there. -/
def requests : Trust := fun ns s => (ns, s) ∈ [([], "w"), (["w"], "a.go"), (["w"], "c")]

/-- The source and a name that is no source were asked for, and the directory was looked at in between. -/
def visited : Go.Tree := ((stat workshop 1 ((make .never).poke "/w/a.go").2).2.poke "/w/c").2

theorem listings_of_browsed_visited :
    workshop.Named ∧ Browsed workshop requests visited ∧ (Go.hasGoFiles workshop "/w" visited).1 = true := by
  have hp : workshop.Named := by decide
  have hw : Asks requests ["w"] := asks_nil.concat (by simp [requests])
  have hsource : Asks requests (splitPath "/w/a.go") := by
    rw [show splitPath "/w/a.go" = ["w"] ++ ["a.go"] by decide]
    exact hw.concat (by simp [requests])
  have hother : Asks requests (splitPath "/w/c") := by
    rw [show splitPath "/w/c" = ["w"] ++ ["c"] by decide]
    exact hw.concat (by simp [requests])
  have h : Browsed workshop requests visited := .poke (.stat (.poke (.make .never) hsource) (by decide)) hother
  obtain ⟨-, hgo⟩ := @listings_of_browsed Unit Unit Unit requests workshop _ hp (by decide)
  have hdir : splitPath "/w" = ["w"] := by decide
  have hnames : workshop.names (pathOf ["w"]) = ["a.go", "b"] := by cbv
  have hkind : workshop.kindAt (pathOf ["w"]) = some .dir := by cbv
  refine ⟨hp, h, ?_⟩
  rw [hgo visited h "/w"] <;> rw [hdir, hnames]
  · rw [hkind]
    decide
  · intro s hs hasked
    -- The name that is not there is not that of a source.
    simp only [requests, List.mem_cons, Prod.mk.injEq] at hasked
    rcases hasked with ⟨⟨⟩, -⟩ | ⟨-, rfl⟩ | ⟨-, rfl⟩ | ⟨⟨⟩⟩
    · exact List.mem_cons_self
    · exact absurd hs (by decide)

end Vfs
end EditorAgent

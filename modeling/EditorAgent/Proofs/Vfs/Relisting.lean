import EditorAgent.Proofs.Vfs.Sightings
import Mathlib

/-!
# Directories that are listed again

A node is taken for its entry as long as the entry is of the kind of which it was last seen to be. So listing a
directory again keeps the nodes of all entries that stayed what they were, and changes no node but that of the
directory. The nodes of links that were followed are known by what the links lead to, and are lost each time.
-/

namespace EditorAgent.Vfs

variable {κ ν ρ : Type} {v : Vfs κ ν ρ} {n c : NodeId} {d : Disk} {ds : List Disk} {L : Log}

/-- The entry of a child is what it was when the child was last listed or looked at, and it is no link that was
followed. -/
def Log.Unchanged (L : Log) (d : Disk) (v : Vfs κ ν ρ) (n c : NodeId) : Prop :=
  ∃ kind, L.entry c = some kind ∧ d.entryKind (v.path n) (v.node c).name = some kind ∧
    (kind = .symlink → ∀ info, (v.node c).stat ≠ .found info)

/-- A node that has an unchanged entry can stand for it. -/
theorem Tracks.compatible (h : Tracks L v) {kind : FileKind} (hlog : L.entry c = some kind)
    (hlink : kind = .symlink → ∀ info, (v.node c).stat ≠ .found info) : v.compatible c kind = true := by
  rw [Vfs.compatible]
  rcases h.entry c kind hlog with hnone | hsome | ⟨rfl, info, hfound⟩
  · rw [hnone]
  · rw [hsome]
    exact decide_eq_true rfl
  · exact absurd hfound (hlink rfl info)

section Listing

variable [DecidableEq κ] (h : Run (d :: ds) L v) (hn : n < v.nodes.size) {info : FileInfo}
  (hinfo : (stat d n v).1 = .ok info) (hdir : info.kind = .dir)

include h hn hinfo hdir

/-- A stat that finds a directory lists it if it has changed, and changes no other node in any way. -/
theorem stat_of_dir :
    (∀ m < v.nodes.size, m ≠ n → (stat d n v).2.node m = v.node m) ∧
      ((Stat.change (v.node n).stat info).changed = false ∧
          ((stat d n v).2.node n).children = (v.node n).children ∨
        ∃ v₁ : Vfs κ ν ρ, v₁.Linked (fun _ => True) ∧ v₁.nodes.size = v.nodes.size ∧
          d.list (v.path n) = .ok (d.listing (v.path n)) ∧
          (∀ m < v.nodes.size, m ≠ n → v₁.node m = v.node m) ∧ (v₁.node n).children = (v.node n).children ∧
          (stat d n v).2 = v₁.syncChildren n (d.listing (v.path n))) := by
  obtain ⟨hlinked, -⟩ := h.tracks
  have hself := hlinked.parent_ne hn
  cases hs : v.served n with
  | true =>
    have hfound := found_of_served hs hinfo
    rw [stat_of_served hs]
    exact ⟨fun _ _ _ => rfl, .inl ⟨by simp [hfound, Stat.change], rfl⟩⟩
  | false =>
    obtain ⟨e, he, rfl⟩ := exists_entry_of_stat hs hinfo
    have hnoted := hlinked.noted n (infoOf (v.node n).name e)
    have hsize := size_noted n (infoOf (v.node n).name e) v
    have hothers : ∀ m, m ≠ n → (noted n (infoOf (v.node n).name e) v).node m = v.node m :=
      fun m hmn => node_noted_of_dir hn hself hdir hmn
    rcases stat_cases hlinked hn hs he L with ⟨entries, hl, -, htree, -⟩ | ⟨hchanged, htree, -⟩ <;> rw [htree]
    · have hentries : d.listing (v.path n) = entries := by rw [Disk.listing, hl]
      refine ⟨fun m hm hmn => ?_, .inr ⟨_, hnoted, hsize, hentries ▸ hl, fun m _ => hothers m,
        children_noted hn hself n, by rw [hentries]⟩⟩
      rw [(Relisted.syncChildren hnoted n entries).node_eq (hsize.symm ▸ hm) hmn, hothers m hmn]
    · refine ⟨fun m _ => hothers m, .inl ⟨?_, children_noted hn hself n⟩⟩
      have hkind : e.item.kind = .dir := hdir
      simpa [hkind] using hchanged

/-- A child whose entry is unchanged stays. -/
theorem mem_children_of_unchanged (hc : c ∈ (v.node n).children) (hsame : L.Unchanged d v n c) :
    c ∈ ((stat d n v).2.node n).children := by
  obtain ⟨hlinked, htracks⟩ := h.tracks
  obtain ⟨kind, hlog, hentry, hlink⟩ := hsame
  obtain ⟨-, ⟨-, hlisted⟩ | ⟨v₁, hlinked₁, hsize, hl, hnodes, hchildren, htree⟩⟩ := stat_of_dir h hn hinfo hdir
  · rwa [hlisted]
  · have hnode := hnodes c (hlinked.children n c hc).1 (hlinked.ne_of_child hc)
    rw [htree]
    refine mem_syncChildren hlinked₁ (hsize.symm ▸ hn) (hchildren.symm ▸ hc) (Disk.list_of_entryKind hentry).2
      (by rw [hnode]) ?_
    rw [compatible, kind?, hnode]
    exact htracks.compatible hlog hlink

/-- A link that was followed does not stay when the directory has changed. -/
theorem not_mem_children_of_followed (hchanged : (Stat.change (v.node n).stat info).changed = true)
    (hc : c ∈ (v.node n).children) (hentry : d.entryKind (v.path n) (v.node c).name = some .symlink)
    (hfound : ∃ info, (v.node c).stat = .found info) : c ∉ ((stat d n v).2.node n).children := by
  obtain ⟨hlinked, htracks⟩ := h.tracks
  obtain ⟨-, ⟨hsame, -⟩ | ⟨v₁, hlinked₁, hsize, hl, hnodes, hchildren, htree⟩⟩ := stat_of_dir h hn hinfo hdir
  · rw [hsame] at hchanged
    cases hchanged
  · intro hstays
    rw [htree] at hstays
    obtain ⟨x, hx, hname, hcomp⟩ := exists_entry_of_mem_syncChildren hlinked₁ (hsize.symm ▸ hn) hstays
    have hclt := (hlinked.children n c hc).1
    have hrel := Relisted.syncChildren hlinked₁ n (d.listing (v.path n))
    have hnode := hnodes c hclt (hlinked.ne_of_child hc)
    -- The entry is that of the link, and the node is known to be something else.
    have hx' : x = ((v.node c).name, .symlink) := by
      refine List.inj_on_of_nodup_map ((h.real d List.mem_cons_self).nodup_listing _) hx
        (Disk.list_of_entryKind hentry).2 ?_
      rw [← hname, hrel.old c (hsize.symm ▸ hclt), hnode]
    obtain ⟨old, hold⟩ := hfound
    rw [compatible, hrel.kind?_eq (hsize.symm ▸ hclt), kind?, hnode, hold, hx', decide_eq_true_eq] at hcomp
    exact htracks.followed c old hold hcomp

/-- When a stat finds a directory, every child whose entry is unchanged stays, no node but that of the directory is
changed in any way, and only other entries get new nodes. If the directory has changed, the nodes of links that were
followed do not stay, whether their entries have changed or not. -/
theorem stat_keeps_unchanged :
    (∀ c ∈ (v.node n).children, L.Unchanged d v n c → c ∈ ((stat d n v).2.node n).children) ∧
      (∀ m < v.nodes.size, m ≠ n → (stat d n v).2.node m = v.node m) ∧
      (∀ c ∈ ((stat d n v).2.node n).children, c ∉ (v.node n).children → v.nodes.size ≤ c ∧
        ∀ m ∈ (v.node n).children, (v.node m).name = ((stat d n v).2.node c).name → ¬ L.Unchanged d v n m) ∧
      ((Stat.change (v.node n).stat info).changed = true → ∀ c ∈ (v.node n).children,
        d.entryKind (v.path n) (v.node c).name = some .symlink → (∃ info, (v.node c).stat = .found info) →
        c ∉ ((stat d n v).2.node n).children) := by
  have hkeep := fun c => mem_children_of_unchanged (c := c) h hn hinfo hdir
  refine ⟨fun c => hkeep c, (stat_of_dir h hn hinfo hdir).1, fun c hc hnew => ⟨?_, fun m hm hname hsame => hnew ?_⟩,
    fun hchanged c => not_mem_children_of_followed h hn hinfo hdir hchanged⟩
  · have hlater : Later (fun _ => True) v (stat d n v).2 := looks_stat d n v
    by_contra hlt
    exact hnew (hlater.children n c (Nat.lt_of_not_le hlt) hc)
  · -- The unchanged child is still listed, and no other child has its name.
    have hlinked := h.tracks.1
    have hafter := hlinked.stat (h.real d List.mem_cons_self).lists hn
    have hmlt := (hlinked.children n m hm).1
    have hname' : ((stat d n v).2.node m).name = ((stat d n v).2.node c).name :=
      ((shape_of_later (looks_stat d n v)).name m hmlt).trans hname
    rw [← List.inj_on_of_nodup_map (hafter.distinct n) (hkeep m hm hsame) hc hname']
    exact hm

end Listing

/-- The directory of the shelf has one entry more. -/
def fullerShelf : Disk := ⟨[(["a"], ⟨.dir, 2⟩), (["a", "b"], ⟨.file [] none, 1⟩), (["a", "c"], ⟨.link "b", 1⟩),
  (["a", "e"], ⟨.file [] none, 2⟩)]⟩

/-- The directory was listed. -/
def tended : Vfs Unit Unit Unit := (stat shelf 1 ((make .always).poke "/a").2).2

theorem stat_keeps_unchanged_tended :
    (stat fullerShelf 1 tended).1 = .ok ⟨"a", .dir, 0, 2⟩ ∧ 2 ∈ ((stat fullerShelf 1 tended).2.node 1).children ∧
      (stat fullerShelf 1 tended).2.node 2 = tended.node 2 := by
  have hshelf : shelf.Real := ⟨by decide, by decide⟩
  have hfuller : fullerShelf.Real := ⟨by decide, by decide⟩
  have hpoked : Run [shelf] .blank ((make .always : Vfs Unit Unit Unit).poke "/a").2 :=
    (Run.start hshelf .always).call (.poke (n := rootId) (by decide) "a")
  have hrun := (hpoked.call (.stat (n := 1) (by decide))).edit hfuller
  have hsize : tended.nodes.size = 4 := by cbv
  have hchildren : (tended.node 1).children = [2, 3] := by cbv
  have hstat : (stat fullerShelf 1 tended).1 = .ok ⟨"a", .dir, 0, 2⟩ := by cbv
  obtain ⟨hstays, hothers, -⟩ := stat_keeps_unchanged hrun (n := 1) (hsize.symm ▸ by decide) hstat rfl
  refine ⟨hstat, hstays 2 (hchildren.symm ▸ by decide) ⟨.file, ?_, ?_, ?_⟩,
    hothers 2 (hsize.symm ▸ by decide) (by decide)⟩
  · cbv
  · cbv
  · rintro ⟨⟩

end EditorAgent.Vfs

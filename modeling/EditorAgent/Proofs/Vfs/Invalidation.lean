import EditorAgent.Proofs.Vfs.Later
import Mathlib.Algebra.GroupWithZero.Nat
import Mathlib.Logic.Relation

/-!
# How far an invalidation gets

The work list of an invalidation holds whatever a marked cell is still to hand the mark on to. No cell is marked
twice, so the steps that are allowed for it are enough, and in the end every cell is marked that depends on one of
those it began with, however indirectly.
-/

namespace EditorAgent.Vfs

open Relation

variable {κ ν ρ : Type} {v v' : Vfs κ ν ρ} {c u : CellId} {mark fuel : Nat} {work : List CellId}

/-- A cell depends on another: it is one of its live dependents, or depends on one of them. -/
def Affects (v : Vfs κ ν ρ) : CellId → CellId → Prop := ReflTransGen fun c u => u ∈ v.liveDependents c

/-- A cell that was reached by a mark. -/
def Marked (v : Vfs κ ν ρ) (mark : Nat) (c : CellId) : Prop := ∃ x, v.cell? c = some x ∧ mark ≤ x.invalidatedAt

/-- What marked cells hand the mark on to has it, or is waiting for it. -/
def HandsOn (v : Vfs κ ν ρ) (mark : Nat) (work : List CellId) : Prop :=
  ∀ c u, v.Marked mark c → u ∈ v.liveDependents c → v.Marked mark u ∨ u ∈ work ∨ v.cell? u = none

/-- The dependences along which a cell may still hand a mark on. -/
def burden (mark : Nat) (x : Cell ρ) : Nat := if mark ≤ x.invalidatedAt then 0 else x.dependents.length

/-- The steps that are left, at most. -/
def effort (v : Vfs κ ν ρ) (mark : Nat) (work : List CellId) : Nat :=
  work.length + (v.cells.toList.map (burden mark)).sum

theorem effort_le_invalidationBound (v : Vfs κ ν ρ) (mark : Nat) (work : List CellId) :
    v.effort mark work ≤ v.invalidationBound work := by
  have hfold : ∀ (l : List (Cell ρ)) (n : Nat), n + (l.map (burden mark)).sum ≤
      l.foldl (fun n x => n + x.dependents.length) n := by
    intro l
    induction l with
    | nil => simp
    | cons x l ih =>
      intro n
      have hx : burden mark x ≤ x.dependents.length := by
        unfold burden
        split <;> omega
      have := ih (n + x.dependents.length)
      rw [List.map_cons, List.sum_cons, List.foldl_cons]
      omega
  rw [invalidationBound, ← Array.foldl_toList]
  exact Nat.le_succ_of_le (hfold _ _)

theorem sum_burden_modify {l : List (Cell ρ)} {i : Nat} {x : Cell ρ} {f : Cell ρ → Cell ρ} (hx : l[i]? = some x)
    (hf : burden mark (f x) = 0) :
    ((l.modify i f).map (burden mark)).sum + burden mark x = (l.map (burden mark)).sum := by
  induction l generalizing i with
  | nil => cases hx
  | cons y l ih =>
    cases i with
    | zero =>
      obtain rfl : y = x := by simpa using hx
      simp only [List.modify_zero_cons, List.map_cons, List.sum_cons, hf]
      omega
    | succ i =>
      have := ih (by simpa using hx)
      simp only [List.modify_succ_cons, List.map_cons, List.sum_cons]
      omega

/-- Marks that are there stay. -/
theorem Marked.later (h : v.Marked mark c) (hm : Marks mark v v') : v'.Marked mark c := by
  obtain ⟨x, hx, hle⟩ := h
  obtain ⟨m, hx', hm⟩ := hm.cells c x hx
  exact ⟨_, hx', by dsimp only; omega⟩

theorem Marks.cell?_eq_none_iff (h : Marks mark v v') : v'.cell? c = none ↔ v.cell? c = none := by
  rw [cell?, cell?, Array.getElem?_eq_none_iff, Array.getElem?_eq_none_iff, h.size]

/-- A cell that needs no mark leaves the work list. -/
theorem HandsOn.drop (h : v.HandsOn mark (c :: work)) (hc : v.Marked mark c ∨ v.cell? c = none) :
    v.HandsOn mark work := by
  intro a u ha hu
  rcases h a u ha hu with hu | hu | hu
  · exact .inl hu
  · rcases List.mem_cons.mp hu with rfl | hu
    · exact hc.imp id .inr
    · exact .inr (.inl hu)
  · exact .inr (.inr hu)

theorem effort_drop (hfuel : v.effort mark (c :: work) ≤ fuel + 1) : v.effort mark work ≤ fuel := by
  simp only [effort, List.length_cons] at hfuel ⊢
  omega

section Marking

variable {x : Cell ρ} (hx : v.cell? c = some x)

/-- A cell is marked. -/
def markCell (v : Vfs κ ν ρ) (mark : Nat) (c : CellId) : Vfs κ ν ρ :=
  v.modifyCell c fun x => { x with invalidatedAt := mark }

include hx in
theorem marked_markCell : (v.markCell mark c).Marked mark c := by
  refine ⟨{ x with invalidatedAt := mark }, ?_, Nat.le_refl _⟩
  rw [markCell, cell?, modifyCell, Array.getElem?_modify, if_pos rfl]
  exact congrArg (Option.map _) hx

theorem marked_of_markCell (hne : u ≠ c) (h : (v.markCell mark c).Marked mark u) : v.Marked mark u := by
  obtain ⟨y, hy, hle⟩ := h
  rw [markCell, cell?, modifyCell, Array.getElem?_modify, if_neg hne.symm] at hy
  exact ⟨y, hy, hle⟩

include hx in
theorem effort_markCell (hlt : ¬ mark ≤ x.invalidatedAt) :
    (v.markCell mark c).effort mark ((v.markCell mark c).liveDependents c ++ work) + 1 ≤ v.effort mark (c :: work) := by
  have hlive : (v.markCell mark c).liveDependents c = x.dependents.filter v.isLiveCell := by
    have hone : Marks mark v (v.markCell mark c) := .one v c
    rw [hone.sameTies.liveDependents c, liveDependents, hx]
  have hburden : burden mark x = x.dependents.length := if_neg hlt
  have hcell : v.cells.toList[c]? = some x := by rw [Array.getElem?_toList]; exact hx
  have hmarked : burden mark { x with invalidatedAt := mark } = 0 := if_pos (Nat.le_refl mark)
  have hsum := sum_burden_modify (f := fun x => { x with invalidatedAt := mark }) hcell hmarked
  have hcells : (v.markCell mark c).cells.toList = v.cells.toList.modify c fun x => { x with invalidatedAt := mark } :=
    Array.toList_modify ..
  have hfilter : (x.dependents.filter v.isLiveCell).length ≤ x.dependents.length := List.length_filter_le ..
  rw [effort, effort, hlive, hcells, List.length_append, List.length_cons]
  omega

end Marking

/-- With enough steps, a work list is worked off: everything on it is marked, and every mark is handed on. -/
theorem handsOn_invalidateAll (hfuel : v.effort mark work ≤ fuel) (h : v.HandsOn mark work) :
    (v.invalidateAll mark fuel work).HandsOn mark [] ∧
      ∀ c ∈ work, v.cell? c ≠ none → (v.invalidateAll mark fuel work).Marked mark c := by
  fun_induction invalidateAll v mark fuel work with
  | case1 v work =>
    obtain rfl : work = [] := List.length_eq_zero_iff.mp (by unfold effort at hfuel; omega)
    exact ⟨h, by simp⟩
  | case2 v fuel => exact ⟨h, by simp⟩
  | case3 v fuel c work hc ih =>
    obtain ⟨hhands, hwork⟩ := ih (effort_drop hfuel) (h.drop (.inr hc))
    refine ⟨hhands, fun c' hc' hsome => ?_⟩
    rcases List.mem_cons.mp hc' with rfl | hc'
    · exact absurd hc hsome
    · exact hwork c' hc' hsome
  | case4 v fuel c work x hx hle ih =>
    have hmarked : v.Marked mark c := ⟨x, hx, hle⟩
    obtain ⟨hhands, hwork⟩ := ih (effort_drop hfuel) (h.drop (.inl hmarked))
    refine ⟨hhands, fun c' hc' hsome => ?_⟩
    rcases List.mem_cons.mp hc' with rfl | hc'
    · exact hmarked.later (.invalidateAll ..)
    · exact hwork c' hc' hsome
  | case5 v fuel c work x hx hlt v₁ ih =>
    have hone : Marks mark v v₁ := .one v c
    have hfuel : v₁.effort mark (v₁.liveDependents c ++ work) ≤ fuel :=
      Nat.le_of_succ_le_succ (Nat.le_trans (effort_markCell hx hlt) hfuel)
    -- What the cell hands the mark on to is on the list now, and nothing waits for the cell any more.
    have hstep : v₁.HandsOn mark (v₁.liveDependents c ++ work) := by
      intro a u ha hu
      by_cases hac : a = c
      · exact .inr (.inl (List.mem_append_left _ (hac ▸ hu)))
      · rw [hone.sameTies.liveDependents] at hu
        rcases h a u (marked_of_markCell hac ha) hu with hu | hu | hu
        · exact .inl (hu.later hone)
        · rcases List.mem_cons.mp hu with rfl | hu
          · exact .inl (marked_markCell hx)
          · exact .inr (.inl (List.mem_append_right _ hu))
        · exact .inr (.inr (hone.cell?_eq_none_iff.mpr hu))
    obtain ⟨hhands, hwork⟩ := ih hfuel hstep
    refine ⟨hhands, fun c' hc' hsome => ?_⟩
    rcases List.mem_cons.mp hc' with rfl | hc'
    · exact (marked_markCell hx).later (.invalidateAll ..)
    · exact hwork c' (List.mem_append_right _ hc') (mt hone.cell?_eq_none_iff.mp hsome)

/-- An invalidation that comes after all others marks whatever depends on the cells that it is meant for. -/
theorem marked_invalidate (hnew : ∀ c x, v.cell? c = some x → x.invalidatedAt < mark) (hc : c ∈ work)
    (haffects : v.Affects c u) (hu : v.cell? u ≠ none) : (v.invalidate mark work).Marked mark u := by
  have hmarks : Marks mark v (v.invalidate mark work) := .invalidateAll ..
  have hstart : v.HandsOn mark work := by
    rintro a b ⟨x, hx, hle⟩
    exact absurd hle (Nat.not_le_of_lt (hnew a x hx))
  obtain ⟨hhands, hwork⟩ := handsOn_invalidateAll (effort_le_invalidationBound v mark work) hstart
  induction haffects with
  | refl => exact hwork c hc hu
  | @tail b u _ hbu ih =>
    have hb : v.cell? b ≠ none := by
      intro hb
      rw [liveDependents, hb] at hbu
      cases hbu
    have hbu : u ∈ (v.invalidate mark work).liveDependents b := by rwa [hmarks.sameTies.liveDependents]
    rcases hhands b u (ih hb) hbu with hmarked | hwait | hnone
    · exact hmarked
    · cases hwait
    · exact absurd (hmarks.cell?_eq_none_iff.mp hnone) hu

theorem Affects.of_sameTies (h : v.Affects c u) (hties : SameTies v v') : v'.Affects c u :=
  ReflTransGen.mono (fun a b hb => by rwa [hties.liveDependents]) _ _ h

theorem sameTies_cleared (v : Vfs κ ν ρ) (n : NodeId) : SameTies v (v.cleared n) :=
  have htick : SameTies v v.tick.2 := ⟨fun _ => rfl, fun _ => rfl, rfl, rfl, fun _ => rfl⟩
  htick.trans (.modifyNode (fun _ => rfl) fun _ => rfl)

/-- Clearing a memo marks whatever depends on a cell that it keeps. -/
theorem marked_clearMemo {n : NodeId} {k : NoteKey κ} (hfirm : (v.node n).memo.Firm k (.cell c))
    (hnew : ∀ c x, v.cell? c = some x → x.invalidatedAt ≤ v.stamp) (haffects : v.Affects c u)
    (hu : v.cell? u ≠ none) : (v.clearMemo n).Marked (v.stamp + 1) u := by
  rw [clearMemo_eq]
  refine marked_invalidate (fun c x hx => Nat.lt_succ_of_le (hnew c x hx)) (c := c) ?_
    (haffects.of_sameTies (sameTies_cleared v n)) hu
  exact List.mem_filterMap.mpr ⟨.cell c, hfirm.told, rfl⟩

end EditorAgent.Vfs

import EditorAgent.Go.Importer
import EditorAgent.Proofs.Vfs.Invalidation

/-!
# Which records an invalidation reaches

A record is invalidated together with the records of the packages that import it, however indirectly, and with no
others. Records list their importers, each of them once, in whichever order they came to import.
-/

namespace EditorAgent

namespace Vfs

open Relation

variable {κ ν ρ : Type} {v w : Vfs κ ν ρ} {c u : CellId} {x : Cell ρ} {mark fuel : Nat} {work : List CellId}

/-! ## Marking -/

/-- A mark stays inside a set of cells that holds the live dependents of its members. -/
theorem cell?_invalidateAll_of_closed {P : CellId → Prop} (hclosed : ∀ c u, P c → u ∈ v.liveDependents c → P u)
    (hwork : ∀ c ∈ work, P c) (hu : ¬ P u) : (v.invalidateAll mark fuel work).cell? u = v.cell? u := by
  fun_induction invalidateAll v mark fuel work with
  | case1 => rfl
  | case2 => rfl
  | case3 v fuel c work _ ih => exact ih hclosed fun b hb => hwork b (List.mem_cons_of_mem _ hb)
  | case4 v fuel c work x _ _ ih => exact ih hclosed fun b hb => hwork b (List.mem_cons_of_mem _ hb)
  | case5 v fuel c work x hx _ v₁ ih =>
    have hc : P c := hwork c List.mem_cons_self
    have hne : c ≠ u := fun heq => hu (heq ▸ hc)
    have hties : SameTies v v₁ := (Marks.one v c).sameTies
    have hcells : v₁.cell? u = v.cell? u := by
      have hmodify : v₁.cell? u = if c = u then (v.cell? u).map fun x => { x with invalidatedAt := mark }
          else v.cell? u := Array.getElem?_modify
      rw [hmodify, if_neg hne]
    rw [ih (fun a b ha hb => hclosed a b ha (hties.liveDependents a ▸ hb)) fun b hb => ?_]
    · exact hcells
    · rcases List.mem_append.mp hb with hb | hb
      · exact hclosed c b hc (hties.liveDependents c ▸ hb)
      · exact hwork b (List.mem_cons_of_mem _ hb)

/-- The steps that are allowed for a work list are enough: more of them change nothing. -/
theorem invalidateAll_of_effort_le {fuel' : Nat} (h : v.effort mark work ≤ fuel) (h' : v.effort mark work ≤ fuel') :
    v.invalidateAll mark fuel work = v.invalidateAll mark fuel' work := by
  fun_induction invalidateAll v mark fuel work generalizing fuel' with
  | case1 v work =>
    obtain rfl : work = [] := List.length_eq_zero_iff.mp (by unfold effort at h; omega)
    cases fuel' <;> rfl
  | case2 v fuel => cases fuel' <;> rfl
  | case3 v fuel c work hc ih =>
    obtain _ | fuel' := fuel'
    · exact absurd h' (by simp [effort])
    · rw [invalidateAll, hc]
      exact ih (effort_drop h) (effort_drop h')
  | case4 v fuel c work x hx hle ih =>
    obtain _ | fuel' := fuel'
    · exact absurd h' (by simp [effort])
    · rw [invalidateAll, hx]
      simp only [if_pos hle]
      exact ih (effort_drop h) (effort_drop h')
  | case5 v fuel c work x hx hlt v₁ =>
    rename_i ih
    obtain _ | fuel' := fuel'
    · exact absurd h' (by simp [effort])
    · have heffort : v₁.effort mark (v₁.liveDependents c ++ work) + 1 ≤ v.effort mark (c :: work) :=
        effort_markCell hx hlt
      rw [invalidateAll, hx]
      simp only [if_neg hlt]
      exact ih (Nat.le_of_succ_le_succ (Nat.le_trans heffort h)) (Nat.le_of_succ_le_succ (Nat.le_trans heffort h'))

/-- What depends on a cell has the mark. -/
theorem cell?_invalidate_of_affects (hnew : ∀ c x, v.cell? c = some x → x.invalidatedAt < mark)
    (haffects : v.Affects c u) (hx : v.cell? u = some x) :
    (v.invalidate mark [c]).cell? u = some { x with invalidatedAt := mark } := by
  obtain ⟨m, hm, hcases⟩ := (Marks.invalidateAll mark (v.invalidationBound [c]) [c] v).cells u x hx
  obtain ⟨y, hy, hle⟩ := marked_invalidate hnew List.mem_cons_self haffects (by simp [hx])
  obtain rfl : { x with invalidatedAt := m } = y := Option.some.inj (hm.symm.trans hy)
  have hlt := hnew u x hx
  obtain rfl : m = mark := by
    rcases hcases with rfl | hmark
    · exact absurd hle (Nat.not_le_of_lt hlt)
    · exact hmark
  exact hm

/-- What does not depend on a cell is as it was. -/
theorem cell?_invalidate_of_not_affects (h : ¬ v.Affects c u) : (v.invalidate mark [c]).cell? u = v.cell? u := by
  refine cell?_invalidateAll_of_closed (P := v.Affects c) (fun a b ha hb => ha.tail hb) (fun b hb => ?_) h
  rw [List.mem_singleton.mp hb]
  exact .refl

/-! ## Importers -/

/-- How dependents come to be listed: a cell is noted as a user of another. Meanwhile cells may be made, and be let
go, but none that was let go comes back. -/
inductive UsedBy : List (CellId × CellId) → Vfs κ ν ρ → Prop where
  | start {v : Vfs κ ν ρ} (h : ∀ c x, v.cell? c = some x → x.dependents = []) : UsedBy [] v
  | use {calls : List (CellId × CellId)} {v : Vfs κ ν ρ} {c u : CellId} (h : UsedBy calls v)
    (hc : v.cell? c ≠ none) (hu : v.cell? u ≠ none) : UsedBy (calls ++ [(c, u)]) (v.addDependent c u)
  | pass {calls : List (CellId × CellId)} {v w : Vfs κ ν ρ} (h : UsedBy calls v)
    (hkeep : ∀ c x, v.cell? c = some x → ∃ y, w.cell? c = some y ∧ y.dependents = x.dependents)
    (hmake : ∀ c y, w.cell? c = some y → v.cell? c = none → y.dependents = [])
    (hlive : ∀ c, v.cell? c ≠ none → w.isLiveCell c = true → v.isLiveCell c = true) : UsedBy calls w

/-- Whatever was noted is listed once, but for what was let go, and nothing else is. -/
structure ListsUses (calls : List (CellId × CellId)) (v : Vfs κ ν ρ) : Prop where
  known : ∀ p ∈ calls, v.cell? p.1 ≠ none ∧ v.cell? p.2 ≠ none
  nodup : ∀ c x, v.cell? c = some x → x.dependents.Nodup
  noted : ∀ c x, v.cell? c = some x → ∀ u ∈ x.dependents, (c, u) ∈ calls
  listed : ∀ c x, v.cell? c = some x → ∀ u, v.isLiveCell u = true → (c, u) ∈ calls → u ∈ x.dependents

theorem isLiveCell_addDependent (v : Vfs κ ν ρ) (c user u : CellId) :
    (v.addDependent c user).isLiveCell u = v.isLiveCell u := by
  have halive : ∀ n, (v.addDependent c user).isAlive n = v.isAlive n := isAlive_of_nodes (by rfl) (by rfl)
  have hactive : (v.addDependent c user).active = v.active := rfl
  have hhome : ((v.addDependent c user).cell? u).map (·.home) = (v.cell? u).map (·.home) := by
    rw [cell?_addDependent]
    split
    · cases v.cell? u <;> rfl
    · rfl
  rw [isLiveCell, isLiveCell, hactive]
  cases hx : v.cell? u <;> cases hy : (v.addDependent c user).cell? u <;> simp_all

theorem mem_liveDependents_iff (hx : v.cell? c = some x) :
    u ∈ v.liveDependents c ↔ u ∈ x.dependents ∧ v.isLiveCell u = true := by
  rw [liveDependents, hx, List.mem_filter]

namespace ListsUses

variable {calls : List (CellId × CellId)}

theorem start (h : ∀ c x, v.cell? c = some x → x.dependents = []) : ListsUses [] v := by
  refine ⟨by simp, fun c x hx => ?_, fun c x hx u hu => ?_, by simp⟩
  · simp [h c x hx]
  · simp [h c x hx] at hu

theorem use (h : ListsUses calls v) (hc : v.cell? c ≠ none) (hu : v.cell? u ≠ none) :
    ListsUses (calls ++ [(c, u)]) (v.addDependent c u) := by
  have hnone : ∀ b, (v.addDependent c u).cell? b = none ↔ v.cell? b = none := by
    intro b
    rw [cell?_addDependent]
    split
    · rw [Option.map_eq_none_iff]
    · rfl
  have hcases : ∀ b y, (v.addDependent c u).cell? b = some y →
      (b ≠ c ∧ v.cell? b = some y) ∨ (b = c ∧ ∃ x, v.cell? c = some x ∧
        y.dependents = if u ∈ v.liveDependents c then v.liveDependents c else v.liveDependents c ++ [u]) := by
    intro b y hy
    rw [cell?_addDependent] at hy
    split at hy
    · next heq =>
      obtain rfl := heq
      obtain ⟨x, hx, rfl⟩ := Option.map_eq_some_iff.mp hy
      exact .inr ⟨rfl, x, hx, by simp only [List.contains_iff_mem]⟩
    · next hne => exact .inl ⟨Ne.symm hne, hy⟩
  refine ⟨fun p hp => ?_, fun b y hy => ?_, fun b y hy a ha => ?_, fun b y hy a hlive ha => ?_⟩
  · rw [ne_eq, ne_eq, hnone, hnone]
    rcases List.mem_append.mp hp with hp | hp
    · exact h.known p hp
    · rw [List.mem_singleton.mp hp]
      exact ⟨hc, hu⟩
  · rcases hcases b y hy with ⟨-, hy⟩ | ⟨-, x, hx, heq⟩
    · exact h.nodup b y hy
    · have hnodup : (v.liveDependents c).Nodup := by
        rw [liveDependents, hx]
        exact (h.nodup c x hx).filter _
      rw [heq]
      split
      · exact hnodup
      · next hnot => exact List.nodup_append.mpr ⟨hnodup, by simp, by
          rintro a ha b hb rfl
          exact hnot (List.mem_singleton.mp hb ▸ ha)⟩
  · rcases hcases b y hy with ⟨-, hy⟩ | ⟨rfl, x, hx, heq⟩
    · exact List.mem_append_left _ (h.noted b y hy a ha)
    · have hcase : a ∈ v.liveDependents b ∨ a = u := by
        rw [heq] at ha
        split at ha
        · exact .inl ha
        · simpa using ha
      rcases hcase with ha | rfl
      · exact List.mem_append_left _ (h.noted b x hx a ((mem_liveDependents_iff hx).mp ha).1)
      · simp
  · rw [isLiveCell_addDependent] at hlive
    rcases hcases b y hy with ⟨hne, hy⟩ | ⟨rfl, x, hx, heq⟩
    · refine h.listed b y hy a hlive ?_
      simpa [hne] using ha
    · have hcase : a ∈ v.liveDependents b ∨ a = u := by
        rcases List.mem_append.mp ha with ha | ha
        · exact .inl ((mem_liveDependents_iff hx).mpr ⟨h.listed b x hx a hlive ha, hlive⟩)
        · exact .inr (by simpa using ha)
      rw [heq]
      split
      · next hmem =>
        rcases hcase with ha | rfl
        · exact ha
        · exact hmem
      · simpa using hcase

theorem pass (h : ListsUses calls v)
    (hkeep : ∀ c x, v.cell? c = some x → ∃ y, w.cell? c = some y ∧ y.dependents = x.dependents)
    (hmake : ∀ c y, w.cell? c = some y → v.cell? c = none → y.dependents = [])
    (hlive : ∀ c, v.cell? c ≠ none → w.isLiveCell c = true → v.isLiveCell c = true) : ListsUses calls w := by
  have hstays : ∀ b, v.cell? b ≠ none → w.cell? b ≠ none := by
    intro b hb
    obtain ⟨x, hx⟩ := Option.ne_none_iff_exists'.mp hb
    obtain ⟨y, hy, -⟩ := hkeep b x hx
    simp [hy]
  -- A cell that is there now was there before with the same list, or is new.
  have hcases : ∀ b y, w.cell? b = some y →
      (∃ x, v.cell? b = some x ∧ y.dependents = x.dependents) ∨ (v.cell? b = none ∧ y.dependents = []) := by
    intro b y hy
    cases hx : v.cell? b with
    | none => exact .inr ⟨rfl, hmake b y hy hx⟩
    | some x =>
      obtain ⟨y', hy', heq⟩ := hkeep b x hx
      obtain rfl : y = y' := Option.some.inj (hy.symm.trans hy')
      exact .inl ⟨x, rfl, heq⟩
  refine ⟨fun p hp => (h.known p hp).imp (hstays _) (hstays _), fun b y hy => ?_, fun b y hy a ha => ?_,
    fun b y hy a ha hcall => ?_⟩
  · rcases hcases b y hy with ⟨x, hx, heq⟩ | ⟨-, heq⟩ <;> rw [heq]
    · exact h.nodup b x hx
    · exact List.nodup_nil
  · rcases hcases b y hy with ⟨x, hx, heq⟩ | ⟨-, heq⟩ <;> rw [heq] at ha
    · exact h.noted b x hx a ha
    · cases ha
  · rcases hcases b y hy with ⟨x, hx, heq⟩ | ⟨hnone, -⟩
    · rw [heq]
      exact h.listed b x hx a (hlive a (h.known _ hcall).2 ha) hcall
    · exact absurd hnone (h.known _ hcall).1

end ListsUses

theorem UsedBy.listsUses {calls : List (CellId × CellId)} (h : UsedBy calls v) : ListsUses calls v := by
  induction h with
  | start h => exact .start h
  | use _ hc hu ih => exact ih.use hc hu
  | pass _ hkeep hmake hlive ih => exact ih.pass hkeep hmake hlive

/-- A live importer is listed once if it was noted, in whichever order that was, and not at all otherwise. -/
theorem UsedBy.count_dependents {calls : List (CellId × CellId)} (h : UsedBy calls v) (hx : v.cell? c = some x)
    (hu : v.isLiveCell u = true) : x.dependents.count u = if (c, u) ∈ calls then 1 else 0 := by
  have hlists := h.listsUses
  split
  · next hcall => exact List.count_eq_one_of_mem (hlists.nodup c x hx) (hlists.listed c x hx u hu hcall)
  · next hcall => exact List.count_eq_zero_of_not_mem fun hmem => hcall (hlists.noted c x hx u hmem)

end Vfs

namespace Go

open Vfs

/-- Whether a record was checked, and not invalidated since the check began. -/
def isValid (t : Tree) (c : CellId) : Bool :=
  match t.cell? c with
  | some x => x.content.checkedAt != 0 && x.invalidatedAt < x.content.checkedAt
  | none => false

/-- A record serves its outcome while it is valid. -/
theorem served?_eq (t : Tree) (c : CellId) :
    Importer.served? t c = if isValid t c then (t.cell? c).bind (·.content.result) else none := by
  rw [Importer.served?, isValid]
  cases t.cell? c with
  | none => rfl
  | some x => rfl

/-- An invalidation that is later than whatever happened to the records marks those that import a package, however
indirectly, and those alone; none of them is valid afterwards, and the others are as valid as they were. Its steps are
enough whatever the imports are. Along the imports that were noted, each record lists its live importers once. -/
theorem invalidate_importers (t : Tree) {c : CellId} {mark : Nat}
    (hnew : ∀ u x, t.cell? u = some x → x.invalidatedAt < mark ∧ x.content.checkedAt < mark) :
    (∀ fuel, t.invalidationBound [c] ≤ fuel → t.invalidateAll mark fuel [c] = t.invalidate mark [c]) ∧
      (∀ u x, t.Affects c u → t.cell? u = some x →
        (t.invalidate mark [c]).cell? u = some { x with invalidatedAt := mark }) ∧
      (∀ u, ¬ t.Affects c u → (t.invalidate mark [c]).cell? u = t.cell? u) ∧
      (∀ u, t.Affects c u → isValid (t.invalidate mark [c]) u = false) ∧
      (∀ u, ¬ t.Affects c u → isValid (t.invalidate mark [c]) u = isValid t u) ∧
      ∀ calls, UsedBy calls t → ∀ a x, t.cell? a = some x → ∀ u, t.isLiveCell u = true →
        x.dependents.count u = if (a, u) ∈ calls then 1 else 0 := by
  have hmark : ∀ u x, t.cell? u = some x → x.invalidatedAt < mark := fun u x hx => (hnew u x hx).1
  refine ⟨fun fuel hfuel => ?_, fun u x hu hx => cell?_invalidate_of_affects hmark hu hx,
    fun u hu => cell?_invalidate_of_not_affects hu, fun u hu => ?_, fun u hu => ?_,
    fun calls huses a x hx u hu => huses.count_dependents hx hu⟩
  · have heffort : t.effort mark [c] ≤ t.invalidationBound [c] := effort_le_invalidationBound t mark [c]
    exact invalidateAll_of_effort_le (Nat.le_trans heffort hfuel) heffort
  · cases hx : t.cell? u with
    | some x =>
      have hlt : x.content.checkedAt < mark := (hnew u x hx).2
      rw [isValid, cell?_invalidate_of_affects hmark hu hx]
      simp [Nat.le_of_lt hlt]
    | none =>
      have hgone : (t.invalidate mark [c]).cell? u = none :=
        (Marks.invalidateAll mark (t.invalidationBound [c]) [c] t).cell?_eq_none_iff.mpr hx
      rw [isValid, hgone]
  · rw [isValid, isValid, cell?_invalidate_of_not_affects hu]

namespace Ring

/-- Three packages that were checked at the fourth stamp, the first two of which were invalidated before. -/
def bare : Tree where
  expiry := .never
  nodes := #[]
  cells := #[
    { home := 0, invalidatedAt := 3, content := { importPath := "a", dir := "/a", checkedAt := 4 } },
    { home := 0, invalidatedAt := 2, content := { importPath := "b", dir := "/b", checkedAt := 4 } },
    { home := 0, content := { importPath := "c", dir := "/c", checkedAt := 4 } }]
  active := [0, 1, 2]

/-- The first two import one another, and the third imports itself. -/
def tied : Tree := ((bare.addDependent 0 1).addDependent 1 0).addDependent 2 2

def calls : List (CellId × CellId) := [(0, 1), (1, 0), (2, 2)]

theorem usedBy_tied : UsedBy calls tied := by
  have hbare : UsedBy [] bare := .start fun c x hx => by
    match c, hx with
    | 0, hx | 1, hx | 2, hx => cases hx; rfl
  exact ((hbare.use (by decide) (by decide)).use (by decide) (by decide)).use (by decide) (by decide)

theorem affects_first {u : CellId} (h : tied.Affects 0 u) : u = 0 ∨ u = 1 := by
  have hfirst : tied.liveDependents 0 = [1] := by rfl
  have hsecond : tied.liveDependents 1 = [0] := by rfl
  induction h with
  | refl => exact .inl rfl
  | tail _ hu ih =>
    rcases ih with rfl | rfl
    · exact .inr (by simpa [hfirst] using hu)
    · exact .inl (by simpa [hsecond] using hu)

theorem before_mark (u : CellId) (x : Cell PackageRecord) (hx : tied.cell? u = some x) :
    x.invalidatedAt < 5 ∧ x.content.checkedAt < 5 := by
  match u, hx with
  | 0, hx | 1, hx | 2, hx => cases hx; decide

end Ring

/-- Of three packages two of which import one another, an invalidation reaches these two and leaves the third. -/
theorem invalidate_importers_of_ring :
    (∀ u x, Ring.tied.cell? u = some x → x.invalidatedAt < 5 ∧ x.content.checkedAt < 5) ∧
      isValid (Ring.tied.invalidate 5 [0]) 0 = false ∧ isValid (Ring.tied.invalidate 5 [0]) 1 = false ∧
      isValid (Ring.tied.invalidate 5 [0]) 2 = true ∧
      ∀ x, Ring.tied.cell? 0 = some x → x.dependents.count 1 = 1 := by
  have hnew := Ring.before_mark
  obtain ⟨-, -, -, hreached, hothers, hlisted⟩ := invalidate_importers Ring.tied (c := 0) hnew
  have hsecond : Ring.tied.Affects 0 1 := .single (by decide)
  have hthird : ¬ Ring.tied.Affects 0 2 := fun h => by simpa using Ring.affects_first h
  refine ⟨hnew, hreached 0 .refl, hreached 1 hsecond, (hothers 2 hthird).trans (by rfl), fun x hx => ?_⟩
  exact hlisted Ring.calls Ring.usedBy_tied 0 x hx 1 (by decide)

end Go
end EditorAgent

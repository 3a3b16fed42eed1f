import EditorAgent.Go.Importer
import Mathlib.Data.Finset.Card
import Mathlib.Logic.Relation

/-!
# Waiting for records

Importers that work at the same time wait for each other's records. Each registers what it holds and what it
wants before it blocks. `waitsOnChain` follows the registered waits from a wanted record; it finds a record of
a chain exactly if one can be reached.
-/

namespace EditorAgent.Go

/-- An importer blocked on a busy record. What it holds stays locked until `want` is released. -/
structure Wait where
  id : Nat
  held : List CellId
  want : CellId
deriving DecidableEq, Repr

namespace Wait

/-- What the importers that hold a record wait for. -/
def wantsOf (waits : List Wait) (c : CellId) : List CellId :=
  (waits.filter (·.held.contains c)).map (·.want)

theorem mem_wantsOf {waits : List Wait} {c x : CellId} :
    x ∈ wantsOf waits c ↔ ∃ w ∈ waits, c ∈ w.held ∧ w.want = x := by
  simp [wantsOf, and_assoc]

/-- Records that may still have to be looked at. -/
def unseen (waits : List Wait) (seen stack : List CellId) : Finset CellId :=
  (stack ++ waits.map (·.want)).toFinset \ seen.toFinset

theorem card_unseen_tail_le (waits : List Wait) (seen stack : List CellId) (c : CellId) :
    (unseen waits seen stack).card ≤ (unseen waits seen (c :: stack)).card := by
  refine Finset.card_le_card fun x hx => ?_
  simp only [unseen, Finset.mem_sdiff, List.mem_toFinset, List.mem_append, List.mem_cons] at hx ⊢
  exact ⟨hx.1.imp_left .inr, hx.2⟩

theorem card_unseen_visit_lt {waits : List Wait} {seen stack : List CellId} {c : CellId}
    (h : c ∉ seen) :
    (unseen waits (c :: seen) ((wantsOf waits c).reverse ++ stack)).card <
      (unseen waits seen (c :: stack)).card := by
  refine Finset.card_lt_card (Finset.ssubset_iff_of_subset (fun x hx => ?_) |>.mpr ⟨c, ?_, ?_⟩)
  · simp only [unseen, Finset.mem_sdiff, List.mem_toFinset, List.mem_append, List.mem_reverse,
      List.mem_cons, mem_wantsOf, List.mem_map] at hx ⊢
    grind
  · simp [unseen, h]
  · simp [unseen]

/-- Follows waits from the records of a stack to one of a chain. -/
def search (waits : List Wait) (chain seen : List CellId) : List CellId → Bool
  | [] => false
  | c :: stack =>
    if chain.contains c then true
    else if seen.contains c then search waits chain seen stack
    else search waits chain (c :: seen) ((wantsOf waits c).reverse ++ stack)
termination_by stack => ((unseen waits seen stack).card, stack.length)
decreasing_by
  · rcases (card_unseen_tail_le waits seen stack c).lt_or_eq with hlt | heq
    · exact .left _ _ hlt
    · rw [heq]
      exact .right _ (by simp)
  · rename_i hseen
    exact .left _ _ (card_unseen_visit_lt (by simpa using hseen))

/-- A record waits on another if an importer that holds the one is blocked on the other. -/
def Edge (waits : List Wait) (c x : CellId) : Prop := ∃ w ∈ waits, c ∈ w.held ∧ w.want = x

open Relation

variable {waits : List Wait} {chain seen stack : List CellId}

theorem exists_path_of_search (h : search waits chain seen stack = true) :
    ∃ c ∈ stack, ∃ x ∈ chain, ReflTransGen (Edge waits) c x := by
  fun_induction search waits chain seen stack with
  | case1 => cases h
  | case2 seen c stack hc => exact ⟨c, by simp, c, by simpa using hc, .refl⟩
  | case3 seen c stack hc hs ih =>
    obtain ⟨y, hy, x, hx, hpath⟩ := ih h
    exact ⟨y, by simp [hy], x, hx, hpath⟩
  | case4 seen c stack hc hs ih =>
    obtain ⟨y, hy, x, hx, hpath⟩ := ih h
    rw [List.mem_append, List.mem_reverse, mem_wantsOf] at hy
    rcases hy with hy | hy
    · exact ⟨c, by simp, x, hx, .head hy hpath⟩
    · exact ⟨y, by simp [hy], x, hx, hpath⟩

/-- What was seen is off the chain, and its waits were put on the stack. -/
def Explored (waits : List Wait) (chain seen stack : List CellId) : Prop :=
  ∀ c ∈ seen, c ∉ chain ∧ ∀ x, Edge waits c x → x ∈ seen ∨ x ∈ stack

theorem not_mem_chain_of_search (hex : Explored waits chain seen stack)
    (h : search waits chain seen stack = false) {c x : CellId} (hc : c ∈ seen ∨ c ∈ stack)
    (hpath : ReflTransGen (Edge waits) c x) : x ∉ chain := by
  fun_induction search waits chain seen stack with
  | case1 seen =>
    have hseen : x ∈ seen := by
      induction hpath with
      | refl => simpa using hc
      | tail _ hstep ih => simpa using (hex _ ih).2 _ hstep
    exact (hex x hseen).1
  | case2 => cases h
  | case3 seen y stack hy hs ih =>
    have hs' : y ∈ seen := by simpa using hs
    refine ih (fun z hz => ⟨(hex z hz).1, fun x hx => ?_⟩) h (by grind)
    have := (hex z hz).2 x hx
    grind
  | case4 seen y stack hy hs ih =>
    have hy' : y ∉ chain := by simpa using hy
    refine ih (fun z hz => ?_) h (by grind)
    rw [List.mem_cons] at hz
    rcases hz with rfl | hz
    · refine ⟨hy', fun x hx => .inr ?_⟩
      rw [List.mem_append, List.mem_reverse, mem_wantsOf]
      exact .inl hx
    · refine ⟨(hex z hz).1, fun x hx => ?_⟩
      have := (hex z hz).2 x hx
      grind

/-! ## Registering a wait -/

theorem edge_append_iff {w : Wait} {c x : CellId} :
    Edge (waits ++ [w]) c x ↔ Edge waits c x ∨ (c ∈ w.held ∧ w.want = x) := by
  simp only [Edge, List.mem_append, List.mem_singleton]
  grind

theorem Edge.mono {waits' : List Wait} (h : waits ⊆ waits') {c x : CellId} (hx : Edge waits c x) :
    Edge waits' c x := by
  obtain ⟨w, hw, hc⟩ := hx
  exact ⟨w, h hw, hc⟩

/-- A wait is registered when what it wants does not lead back to what it holds; then it closes no cycle. -/
theorem acyclic_append {w : Wait} (hac : ∀ c, ¬ TransGen (Edge waits) c c)
    (hw : ∀ x ∈ w.held, ¬ ReflTransGen (Edge waits) w.want x) (c : CellId) :
    ¬ TransGen (Edge (waits ++ [w])) c c := by
  -- The new wait is not used again on the way from what it wants.
  have hold {y : CellId} (h : ReflTransGen (Edge (waits ++ [w])) w.want y) :
      ReflTransGen (Edge waits) w.want y := by
    induction h with
    | refl => exact .refl
    | tail _ hstep ih =>
      rcases edge_append_iff.mp hstep with hstep | ⟨hb, -⟩
      · exact ih.tail hstep
      · exact absurd ih (hw _ hb)
  have hsplit {a b : CellId} (h : TransGen (Edge (waits ++ [w])) a b) :
      TransGen (Edge waits) a b ∨ ∃ x ∈ w.held,
        ReflTransGen (Edge (waits ++ [w])) a x ∧ ReflTransGen (Edge (waits ++ [w])) w.want b := by
    induction h with
    | single hstep =>
      rcases edge_append_iff.mp hstep with hstep | ⟨hx, rfl⟩
      · exact .inl (.single hstep)
      · exact .inr ⟨_, hx, .refl, .refl⟩
    | tail hpath hstep ih =>
      rcases ih with ih | ⟨x, hx, hax, hxb⟩
      · rcases edge_append_iff.mp hstep with hstep | ⟨hb, rfl⟩
        · exact .inl (ih.tail hstep)
        · exact .inr ⟨_, hb, hpath.to_reflTransGen, .refl⟩
      · exact .inr ⟨x, hx, hax, hxb.tail hstep⟩
  intro h
  rcases hsplit h with h | ⟨x, hx, hcx, hxc⟩
  · exact hac c h
  · exact hw x hx (hold (hxc.trans hcx))

end Wait

/-- Whether waiting for a record could block on one that a chain holds. -/
def waitsOnChain (waits : List Wait) (want : CellId) (chain : List CellId) : Bool :=
  Wait.search waits chain [] [want]

/-- The search finds a record of the chain exactly if one is reached from the wanted one. -/
theorem waitsOnChain_iff {waits : List Wait} {want : CellId} {chain : List CellId} :
    waitsOnChain waits want chain = true ↔
      ∃ x ∈ chain, Relation.ReflTransGen (Wait.Edge waits) want x := by
  constructor
  · intro h
    obtain ⟨c, hc, hx⟩ := Wait.exists_path_of_search h
    rwa [List.mem_singleton.mp hc] at hx
  · rintro ⟨x, hx, hpath⟩
    by_contra h
    rw [Bool.not_eq_true] at h
    refine Wait.not_mem_chain_of_search ?_ h (.inr (List.mem_singleton_self want)) hpath hx
    intro c hc
    cases hc

end EditorAgent.Go

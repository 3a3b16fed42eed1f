import EditorAgent.Proofs.Go.Waits
import Mathlib.Data.Fintype.Pigeonhole
import Mathlib.Data.List.Chain
import Mathlib.Data.Set.Basic

/-!
# Importers at work together

A crew is a number of importers that share their records. An importer holds the records that it is checking;
one that was fanned out has its parent's chain below them, and the parent holds that chain until it has joined
its children. The steps are those between which another importer may come: to try a lock, to register a wait
or give up, to be granted a lock, to take back a wait, to release a lock.
-/

namespace EditorAgent.Go

open Relation

/-- Where an importer stands. -/
inductive Phase where
  /-- At work, or between two imports. -/
  | free
  /-- About to try the lock of a record. -/
  | asking (c : CellId)
  /-- Found the lock taken. -/
  | refused (c : CellId)
  /-- Registered under a number and blocked. -/
  | waiting (id : Nat) (c : CellId)
  /-- Blocked without a chain, and so without being registered. -/
  | blocked (c : CellId)
  /-- Has the lock and is still registered. -/
  | granted (id : Nat) (c : CellId)
  /-- Has the lock and looks whether the record serves. -/
  | locked (c : CellId)
  /-- Told that waiting would close a cycle. -/
  | cycle (c : CellId)
  /-- Waits for those it fanned out. -/
  | joining
  | done
deriving DecidableEq, Repr

namespace Phase

/-- The record that is being imported. -/
@[simp] def target? : Phase → Option CellId
  | asking c | refused c | waiting _ c | blocked c | granted _ c | locked c | cycle c => some c
  | free | joining | done => none

/-- The record whose release is awaited. -/
@[simp] def wanted? : Phase → Option CellId
  | waiting _ c | blocked c => some c
  | _ => none

/-- The record that is locked but not yet being checked. -/
@[simp] def taken? : Phase → Option CellId
  | granted _ c | locked c => some c
  | _ => none

/-- The number of a registered wait and its record. -/
@[simp] def ticket? : Phase → Option (Nat × CellId)
  | waiting id c | granted id c => some (id, c)
  | _ => none

end Phase

structure Worker where
  /-- Who fanned it out. -/
  parent : Option Nat := none
  /-- The chain of the parent. -/
  base : List CellId := []
  /-- The records it is checking, the innermost first. -/
  own : List CellId := []
  phase : Phase := .done
deriving DecidableEq, Repr

/-- The records that stay locked while a worker imports. -/
def Worker.chain (w : Worker) : List CellId := w.own ++ w.base

/-- Workers by number, who has which record locked, and the registered waits. -/
structure Crew where
  worker : Nat → Worker := fun _ => {}
  size : Nat := 0
  owner : CellId → Option Nat := fun _ => none
  waits : List Wait := []
  nextWait : Nat := 0

namespace Crew

def put (s : Crew) (n : Nat) (w : Worker) : Crew := { s with worker := Function.update s.worker n w }

def move (s : Crew) (n : Nat) (phase : Phase) : Crew := s.put n { s.worker n with phase }

/-- Adds a worker. -/
def add (s : Crew) (w : Worker) : Crew := { s.put s.size w with size := s.size + 1 }

def lock (s : Crew) (c : CellId) (n : Nat) : Crew :=
  { s with owner := Function.update s.owner c (some n) }

def unlock (s : Crew) (c : CellId) : Crew := { s with owner := Function.update s.owner c none }

/-- Registers a wait. -/
def register (s : Crew) (held : List CellId) (want : CellId) : Crew :=
  { s with waits := s.waits ++ [⟨s.nextWait, held, want⟩], nextWait := s.nextWait + 1 }

/-- Takes back a wait. -/
def deregister (s : Crew) (id : Nat) : Crew := { s with waits := s.waits.filter (·.id != id) }

section Fields

variable (s : Crew) (n : Nat) (w : Worker) (c : CellId) (held : List CellId) (phase : Phase)

@[simp] theorem worker_put_self : (s.put n w).worker n = w := Function.update_self ..
@[simp] theorem worker_put_of_ne {m : Nat} (h : m ≠ n) : (s.put n w).worker m = s.worker m :=
  Function.update_of_ne h ..
@[simp] theorem waits_put : (s.put n w).waits = s.waits := rfl
@[simp] theorem nextWait_put : (s.put n w).nextWait = s.nextWait := rfl
@[simp] theorem owner_put : (s.put n w).owner = s.owner := rfl
@[simp] theorem size_put : (s.put n w).size = s.size := rfl
@[simp] theorem move_eq_put : s.move n phase = s.put n { s.worker n with phase } := rfl
@[simp] theorem worker_add : (s.add w).worker = (s.put s.size w).worker := rfl
@[simp] theorem worker_lock : (s.lock c n).worker = s.worker := rfl
@[simp] theorem worker_unlock : (s.unlock c).worker = s.worker := rfl
@[simp] theorem worker_register : (s.register held c).worker = s.worker := rfl
@[simp] theorem waits_register :
    (s.register held c).waits = s.waits ++ [⟨s.nextWait, held, c⟩] := rfl
@[simp] theorem worker_deregister : (s.deregister n).worker = s.worker := rfl

end Fields

/-- The steps of a crew whose records import each other as `imports` says. -/
inductive Step (imports : CellId → CellId → Prop) (s : Crew) : Crew → Prop
  /-- Someone begins to import from outside. -/
  | enter : Step imports s (s.add { phase := .free })
  | ask {n : Nat} {c : CellId} (h : (s.worker n).phase = .free)
      (hc : ∀ x ∈ (s.worker n).chain.head?, imports x c) : Step imports s (s.move n (.asking c))
  | take {n : Nat} {c : CellId} (h : (s.worker n).phase = .asking c) (hfree : s.owner c = none) :
      Step imports s ((s.move n (.locked c)).lock c n)
  | refuse {n : Nat} {c : CellId} (h : (s.worker n).phase = .asking c) (hbusy : s.owner c ≠ none) :
      Step imports s (s.move n (.refused c))
  | block {n : Nat} {c : CellId} (h : (s.worker n).phase = .refused c)
      (hchain : (s.worker n).chain = []) : Step imports s (s.move n (.blocked c))
  | giveUp {n : Nat} {c : CellId} (h : (s.worker n).phase = .refused c)
      (hchain : (s.worker n).chain ≠ []) (hcycle : waitsOnChain s.waits c (s.worker n).chain = true) :
      Step imports s (s.move n (.cycle c))
  | wait {n : Nat} {c : CellId} (h : (s.worker n).phase = .refused c)
      (hchain : (s.worker n).chain ≠ []) (hcycle : waitsOnChain s.waits c (s.worker n).chain = false) :
      Step imports s ((s.move n (.waiting s.nextWait c)).register (s.worker n).chain c)
  | grant {n id : Nat} {c : CellId} (h : (s.worker n).phase = .waiting id c)
      (hfree : s.owner c = none) : Step imports s ((s.move n (.granted id c)).lock c n)
  | grantBlocked {n : Nat} {c : CellId} (h : (s.worker n).phase = .blocked c)
      (hfree : s.owner c = none) : Step imports s ((s.move n (.locked c)).lock c n)
  | withdraw {n id : Nat} {c : CellId} (h : (s.worker n).phase = .granted id c) :
      Step imports s ((s.move n (.locked c)).deregister id)
  /-- The record has an outcome that serves. -/
  | serve {n : Nat} {c : CellId} (h : (s.worker n).phase = .locked c) :
      Step imports s ((s.move n .free).unlock c)
  | check {n : Nat} {c : CellId} (h : (s.worker n).phase = .locked c) :
      Step imports s (s.put n { s.worker n with own := c :: (s.worker n).own, phase := .free })
  | report {n : Nat} {c : CellId} (h : (s.worker n).phase = .cycle c) :
      Step imports s (s.move n .free)
  /-- A check ends, with whatever outcome. -/
  | finish {n : Nat} {c : CellId} {rest : List CellId} (h : (s.worker n).phase = .free)
      (hown : (s.worker n).own = c :: rest) :
      Step imports s ((s.put n { s.worker n with own := rest }).unlock c)
  | fanOut {n : Nat} (h : (s.worker n).phase = .free) (hown : (s.worker n).own ≠ []) :
      Step imports s (s.move n .joining)
  | spawn {n : Nat} (h : (s.worker n).phase = .joining) :
      Step imports s (s.add { parent := some n, base := (s.worker n).chain, phase := .free })
  | join {n : Nat} (h : (s.worker n).phase = .joining)
      (hall : ∀ m, (s.worker m).parent = some n → (s.worker m).phase = .done) :
      Step imports s (s.move n .free)
  | leave {n : Nat} (h : (s.worker n).phase = .free) (hown : (s.worker n).own = []) :
      Step imports s (s.move n .done)

inductive Reachable (imports : CellId → CellId → Prop) : Crew → Prop
  | start : Reachable imports {}
  | step {s s' : Crew} (h : Reachable imports s) (hs : Step imports s s') : Reachable imports s'

variable {imports : CellId → CellId → Prop} {s s' : Crew}

/-- What holds of every worker and of one that is put among them holds of all of them then. -/
theorem forall_put {P : Nat → Worker → Prop} {n : Nat} {w : Worker} (hs : ∀ m, P m (s.worker m))
    (hw : P n w) (m : Nat) : P m ((s.put n w).worker m) := by
  by_cases hm : m = n
  · subst hm
    simpa using hw
  · simpa [hm] using hs m

/-! ## Chains are paths -/

end Crew

/-- The record being imported and the chain below it. -/
def Worker.trail (w : Worker) : List CellId := w.phase.target?.toList ++ w.chain

namespace Crew

/-- Each record of a trail is imported by the next. -/
def Linked (imports : CellId → CellId → Prop) (s : Crew) : Prop :=
  ∀ n, (s.worker n).trail.IsChain fun a b => imports b a

theorem Linked.put (h : Linked imports s) {n : Nat} {w : Worker}
    (hw : w.trail.IsChain fun a b => imports b a) : Linked imports (s.put n w) :=
  forall_put (P := fun _ w => w.trail.IsChain fun a b => imports b a) h hw

theorem Step.linked (hs : Step imports s s') (h : Linked imports s) : Linked imports s' := by
  have hchain n : (s.worker n).chain.IsChain fun a b => imports b a := (h n).right_of_append
  cases hs with
  | enter => exact h.put (by simp [Worker.trail, Worker.chain])
  | @ask n c hp hc => exact h.put (List.isChain_cons.mpr ⟨hc, hchain n⟩)
  | @take n c hp => exact h.put (by simpa [Worker.trail, Worker.chain, hp] using h n)
  | @refuse n c hp => exact h.put (by simpa [Worker.trail, Worker.chain, hp] using h n)
  | @block n c hp => exact h.put (by simpa [Worker.trail, Worker.chain, hp] using h n)
  | @giveUp n c hp => exact h.put (by simpa [Worker.trail, Worker.chain, hp] using h n)
  | @wait n c hp => exact h.put (by simpa [Worker.trail, Worker.chain, hp] using h n)
  | @grant n id c hp => exact h.put (by simpa [Worker.trail, Worker.chain, hp] using h n)
  | @grantBlocked n c hp => exact h.put (by simpa [Worker.trail, Worker.chain, hp] using h n)
  | @withdraw n id c hp => exact h.put (by simpa [Worker.trail, Worker.chain, hp] using h n)
  | @serve n c hp => exact h.put (hchain n)
  | @check n c hp => exact h.put (by simpa [Worker.trail, Worker.chain, hp] using h n)
  | @report n c hp => exact h.put (hchain n)
  | @finish n c rest hp hown =>
    have htail := hchain n
    rw [Worker.chain, hown, List.cons_append] at htail
    exact h.put (by simpa [Worker.trail, Worker.chain, hp] using htail.tail)
  | @fanOut n => exact h.put (hchain n)
  | @spawn n => exact h.put (hchain n)
  | @join n => exact h.put (hchain n)
  | @leave n => exact h.put (hchain n)

/-- Every record of a chain imports what is being imported, through those above it. -/
theorem Linked.imports_target (h : Linked imports s) {n : Nat} {c x : CellId}
    (hc : (s.worker n).phase.target? = some c) (hx : x ∈ (s.worker n).chain) :
    TransGen imports x c := by
  have hn := h n
  rw [Worker.trail, hc, Option.toList_some, List.singleton_append] at hn
  have hpath : (c :: (s.worker n).chain).IsChain fun a b => TransGen imports b a :=
    hn.imp fun _ _ => .single
  have : IsTrans CellId fun a b => TransGen imports b a := ⟨fun _ _ _ hab hbc => hbc.trans hab⟩
  exact List.rel_of_pairwise_cons (List.isChain_iff_pairwise.mp hpath) hx

/-! ## Locks -/

end Crew

/-- The records a worker has locked. -/
def Worker.holdings (w : Worker) : List CellId := w.phase.taken?.toList ++ w.own

namespace Crew

/-- Nobody holds a record twice, and who holds it is its owner. -/
structure Exclusive (s : Crew) : Prop where
  nodup : ∀ n, (s.worker n).holdings.Nodup
  owner : ∀ n c, c ∈ (s.worker n).holdings ↔ s.owner c = some n

theorem Exclusive.put (h : Exclusive s) {n : Nat} {w : Worker}
    (hw : w.holdings = (s.worker n).holdings) : Exclusive (s.put n w) where
  nodup := forall_put (P := fun _ w => w.holdings.Nodup) h.nodup (hw ▸ h.nodup n)
  owner := forall_put (P := fun n w => ∀ c, c ∈ w.holdings ↔ s.owner c = some n) h.owner
    (hw ▸ h.owner n)

theorem Exclusive.of_eq (h : Exclusive s) (hworker : s'.worker = s.worker)
    (howner : s'.owner = s.owner) : Exclusive s' := by
  obtain ⟨hn, ho⟩ := h
  rw [← hworker, ← howner] at *
  exact ⟨hn, ho⟩

/-- A worker locks a record that nobody owns. -/
theorem Exclusive.lock (h : Exclusive s) {n : Nat} {c : CellId} {w : Worker} (hfree : s.owner c = none)
    (hw : w.holdings = c :: (s.worker n).holdings) : Exclusive ((s.put n w).lock c n) := by
  have hne m : c ∉ (s.worker m).holdings := fun hc => by simp [(h.owner m c).mp hc] at hfree
  refine ⟨forall_put (P := fun _ w => w.holdings.Nodup) h.nodup ?_, fun m x => ?_⟩
  · exact hw ▸ List.nodup_cons.mpr ⟨hne n, h.nodup n⟩
  · by_cases hm : m = n <;> by_cases hx : x = c
    · simp [Crew.lock, hm, hx, hw]
    · simp [Crew.lock, hm, hx, hw, h.owner]
    · simp [Crew.lock, hm, hx, hne, Ne.symm hm]
    · simp [Crew.lock, hm, hx, h.owner]

/-- A worker releases the record it locked last. -/
theorem Exclusive.unlock (h : Exclusive s) {n : Nat} {c : CellId} {w : Worker}
    (hw : (s.worker n).holdings = c :: w.holdings) : Exclusive ((s.put n w).unlock c) := by
  have hn := h.nodup n
  rw [hw, List.nodup_cons] at hn
  have hc : s.owner c = some n := (h.owner n c).mp (by simp [hw])
  refine ⟨forall_put (P := fun _ w => w.holdings.Nodup) h.nodup hn.2, fun m x => ?_⟩
  by_cases hm : m = n <;> by_cases hx : x = c
  · simp [Crew.unlock, hm, hx, hn.1]
  · simp [Crew.unlock, hm, hx, ← h.owner, hw]
  · simp [Crew.unlock, hm, hx, h.owner, hc, Ne.symm hm]
  · simp [Crew.unlock, hm, hx, h.owner]

theorem Step.exclusive (hs : Step imports s s') (hunused : s.worker s.size = {})
    (h : Exclusive s) : Exclusive s' := by
  cases hs with
  | enter => exact (h.put (n := s.size) (by simp [hunused, Worker.holdings])).of_eq rfl rfl
  | spawn => exact (h.put (n := s.size) (by simp [hunused, Worker.holdings])).of_eq rfl rfl
  | take hp hfree => exact h.lock hfree (by simp [Worker.holdings, hp])
  | grant hp hfree => exact h.lock hfree (by simp [Worker.holdings, hp])
  | grantBlocked hp hfree => exact h.lock hfree (by simp [Worker.holdings, hp])
  | serve hp => exact h.unlock (by simp [Worker.holdings, hp])
  | finish hp hown => exact h.unlock (by simp [Worker.holdings, hp, hown])
  | @wait n c hp =>
    exact (h.put (w := { s.worker n with phase := .waiting s.nextWait c })
      (by simp [Worker.holdings, hp])).of_eq rfl rfl
  | @withdraw n id c hp =>
    exact (h.put (w := { s.worker n with phase := .locked c })
      (by simp [Worker.holdings, hp])).of_eq rfl rfl
  | ask hp | refuse hp | block hp | giveUp hp | check hp | report hp | fanOut hp | join hp
  | leave hp => exact h.put (by simp [Worker.holdings, hp])

/-! ## Waits -/

/-- Registered waits belong to workers, tell the truth about imports and close no cycle. -/
structure Orderly (imports : CellId → CellId → Prop) (s : Crew) : Prop where
  registered : ∀ n, ∀ t ∈ (s.worker n).phase.ticket?, ⟨t.1, (s.worker n).chain, t.2⟩ ∈ s.waits
  apart : ∀ n m, ∀ t ∈ (s.worker n).phase.ticket?, ∀ u ∈ (s.worker m).phase.ticket?,
    t.1 = u.1 → n = m
  fresh : ∀ w ∈ s.waits, w.id < s.nextWait
  truthful : ∀ w ∈ s.waits, ∀ c ∈ w.held, TransGen imports c w.want
  acyclic : ∀ c, ¬ TransGen (Wait.Edge s.waits) c c

theorem Orderly.put (h : Orderly imports s) {n : Nat} {w : Worker}
    (hw : ∀ t ∈ w.phase.ticket?, t ∈ (s.worker n).phase.ticket? ∧ w.chain = (s.worker n).chain) :
    Orderly imports (s.put n w) := by
  have hticket {m : Nat} {t : Nat × CellId} (ht : t ∈ ((s.put n w).worker m).phase.ticket?) :
      t ∈ (s.worker m).phase.ticket? ∧ ((s.put n w).worker m).chain = (s.worker m).chain := by
    by_cases hm : m = n
    · subst hm
      simp only [worker_put_self] at ht ⊢
      exact hw t ht
    · simp only [worker_put_of_ne _ _ _ hm] at ht ⊢
      exact ⟨ht, trivial⟩
  refine ⟨fun m t ht => ?_, fun m k t ht u hu => ?_, h.fresh, h.truthful, h.acyclic⟩
  · rw [(hticket ht).2]
    exact h.registered m t (hticket ht).1
  · exact h.apart m k t (hticket ht).1 u (hticket hu).1

/-- The locks do not matter to the waits. -/
theorem Orderly.of_eq (h : Orderly imports s) (hworker : s'.worker = s.worker)
    (hwaits : s'.waits = s.waits) (hnext : s'.nextWait = s.nextWait) : Orderly imports s' := by
  obtain ⟨hr, ha, hf, ht, hc⟩ := h
  rw [← hworker, ← hwaits] at *
  exact ⟨hr, ha, hnext ▸ hf, ht, hc⟩

theorem Orderly.register (h : Orderly imports s) (hl : Linked imports s) {n : Nat} {c : CellId}
    (hp : (s.worker n).phase = .refused c)
    (hcycle : waitsOnChain s.waits c (s.worker n).chain = false) :
    Orderly imports ((s.move n (.waiting s.nextWait c)).register (s.worker n).chain c) := by
  have hnew {m : Nat} {t : Nat × CellId}
      (ht : t ∈ ((s.move n (.waiting s.nextWait c)).worker m).phase.ticket?) :
      m = n ∧ t = (s.nextWait, c) ∨
        m ≠ n ∧ t ∈ (s.worker m).phase.ticket? ∧ t.1 < s.nextWait := by
    by_cases hm : m = n
    · subst hm
      exact .inl ⟨rfl, by simpa [eq_comm] using ht⟩
    · replace ht : t ∈ (s.worker m).phase.ticket? := by simpa [hm] using ht
      exact .inr ⟨hm, ht, h.fresh _ (h.registered m t ht)⟩
  refine ⟨fun m t ht => ?_, fun m k t ht u hu htu => ?_, fun w hw => ?_, fun w hw x hx => ?_, ?_⟩
  · rcases hnew ht with ⟨rfl, rfl⟩ | ⟨hm, ht, -⟩
    · simp [Worker.chain]
    · simp [hm, h.registered m t ht]
  · have ht' := hnew ht
    have hu' := hnew hu
    by_cases hboth : m = n ∨ k = n
    · grind
    · push Not at hboth
      exact h.apart m k t (by grind) u (by grind) htu
  · rcases List.mem_append.mp hw with hw | hw
    · exact (h.fresh w hw).trans (Nat.lt_succ_self _)
    · rw [List.mem_singleton.mp hw]
      exact Nat.lt_succ_self _
  · rcases List.mem_append.mp hw with hw | hw
    · exact h.truthful w hw x hx
    · rw [List.mem_singleton.mp hw] at hx ⊢
      exact hl.imports_target (by rw [hp]; rfl) hx
  · refine Wait.acyclic_append h.acyclic fun x hx hpath => ?_
    have hfound : waitsOnChain s.waits c (s.worker n).chain = true :=
      waitsOnChain_iff.mpr ⟨x, hx, hpath⟩
    simp [hcycle] at hfound

theorem Orderly.deregister (h : Orderly imports s) {n id : Nat} {c : CellId}
    (hp : (s.worker n).phase = .granted id c) :
    Orderly imports ((s.move n (.locked c)).deregister id) := by
  have hput := h.put (n := n) (w := { s.worker n with phase := .locked c }) (by simp)
  have hsub : s.waits.filter (·.id != id) ⊆ s.waits := List.filter_subset_self _
  refine ⟨fun m t ht => ?_, hput.apart, fun w hw => h.fresh w (hsub hw),
    fun w hw => h.truthful w (hsub hw), fun x hx => h.acyclic x (hx.lift (fun y => y) fun _ _ => .mono hsub)⟩
  have hm : m ≠ n := by
    rintro rfl
    simp at ht
  have ht' : t ∈ (s.worker m).phase.ticket? := by
    simpa [hm] using ht
  have hid : t.1 ≠ id := fun e => hm (h.apart m n t ht' (id, c) (by simp [hp]) e)
  refine List.mem_filter.mpr ⟨hput.registered m t ht, by simpa using hid⟩

theorem Step.orderly (hs : Step imports s s') (hl : Linked imports s) (h : Orderly imports s) :
    Orderly imports s' := by
  cases hs with
  | enter => exact (h.put (n := s.size) (by simp)).of_eq rfl rfl rfl
  | ask => exact h.put (by simp)
  | take => exact (h.put (by simp)).of_eq rfl rfl rfl
  | refuse => exact h.put (by simp)
  | block => exact h.put (by simp)
  | giveUp => exact h.put (by simp)
  | wait hp _ hcycle => exact h.register hl hp hcycle
  | grant hp => exact (h.put (by simp [hp, Worker.chain])).of_eq rfl rfl rfl
  | grantBlocked => exact (h.put (by simp)).of_eq rfl rfl rfl
  | withdraw hp => exact h.deregister hp
  | serve => exact (h.put (by simp)).of_eq rfl rfl rfl
  | check => exact h.put (by simp)
  | report => exact h.put (by simp)
  | finish hp => exact (h.put (by simp [hp])).of_eq rfl rfl rfl
  | fanOut => exact h.put (by simp)
  | spawn => exact (h.put (n := s.size) (by simp)).of_eq rfl rfl rfl
  | join => exact h.put (by simp)
  | leave => exact h.put (by simp)

/-- Whoever waits without being registered holds nothing. -/
def Unchained (s : Crew) : Prop := ∀ n c, (s.worker n).phase = .blocked c → (s.worker n).chain = []

theorem Step.unchained (hs : Step imports s s') (h : Unchained s) : Unchained s' := by
  have hput {n : Nat} {w : Worker} (hw : ∀ c, w.phase = .blocked c → w.chain = []) :
      ∀ m c, ((s.put n w).worker m).phase = .blocked c → ((s.put n w).worker m).chain = [] :=
    forall_put (P := fun _ w => ∀ c, w.phase = .blocked c → w.chain = []) h hw
  cases hs with
  | block hp hchain => exact hput fun _ _ => hchain
  | finish hp => exact hput (by simp [hp])
  | _ => exact hput (by simp)

/-- A record that one importer waits for and another holds while waiting is an edge of the waits. -/
theorem Orderly.edge (h : Orderly imports s) (hu : Unchained s) {n : Nat} {c x : CellId}
    (hx : x ∈ (s.worker n).chain) (hc : (s.worker n).phase.wanted? = some c) :
    Wait.Edge s.waits x c := by
  cases hp : (s.worker n).phase with
  | waiting id c' =>
    obtain rfl : c' = c := by simpa [hp] using hc
    exact ⟨_, h.registered n (id, c') (by simp [hp]), hx, rfl⟩
  | blocked c' => simp [hu n c' hp] at hx
  | _ => simp [hp] at hc

/-- Importers do not wait for each other in a circle. -/
theorem Orderly.not_closed (h : Orderly imports s) (hu : Unchained s) {S : Set Nat}
    (hne : S.Nonempty) (hS : ∀ n ∈ S, ∃ c, (s.worker n).phase.wanted? = some c ∧
      ∃ m ∈ S, c ∈ (s.worker m).chain) : False := by
  choose! want hwant next hnext hheld using hS
  obtain ⟨n₀, hn₀⟩ := hne
  -- Follow the waits for ever; there are only so many records to meet.
  have hmem k : next^[k] n₀ ∈ S := by
    induction k with
    | zero => exact hn₀
    | succ k ih =>
      rw [Function.iterate_succ_apply']
      exact hnext _ ih
  have hedge k : Wait.Edge s.waits (want (next^[k] n₀)) (want (next^[k + 1] n₀)) := by
    have hk := hheld _ (hmem k)
    rw [← Function.iterate_succ_apply' next] at hk
    exact h.edge hu hk (hwant _ (hmem (k + 1)))
  have hfin k : want (next^[k + 1] n₀) ∈ (s.waits.map (·.want)).toFinset := by
    obtain ⟨w, hw, -, hwant⟩ := hedge k
    exact List.mem_toFinset.mpr (List.mem_map.mpr ⟨w, hw, hwant⟩)
  obtain ⟨i, j, hij, heq⟩ := Finite.exists_ne_map_eq_of_infinite
    fun k => (⟨_, hfin k⟩ : (s.waits.map (·.want)).toFinset)
  have hloop {i j : Nat} (hij : i < j) :
      TransGen (Wait.Edge s.waits) (want (next^[i + 1] n₀)) (want (next^[j + 1] n₀)) :=
    Nat.rel_of_forall_rel_succ_of_lt (TransGen (Wait.Edge s.waits))
      (fun k => .single (hedge (k + 1))) hij
  have heq : want (next^[i + 1] n₀) = want (next^[j + 1] n₀) := Subtype.ext_iff.mp heq
  rcases Nat.lt_or_gt_of_ne hij with hlt | hlt
  · exact h.acyclic _ (heq ▸ hloop hlt)
  · exact h.acyclic _ (heq ▸ hloop hlt)

/-! ## Reports of cycles -/

/-- Whoever is told of a cycle imports a record that imports one of its chain. -/
def Honest (imports : CellId → CellId → Prop) (s : Crew) : Prop :=
  ∀ n c, (s.worker n).phase = .cycle c → ∃ x ∈ (s.worker n).chain, TransGen imports c x

theorem Orderly.imports_of_path (h : Orderly imports s) {c x : CellId}
    (hpath : ReflTransGen (Wait.Edge s.waits) c x) : c = x ∨ TransGen imports c x := by
  induction hpath with
  | refl => exact .inl rfl
  | tail _ hstep ih =>
    obtain ⟨w, hw, hb, rfl⟩ := hstep
    have hlast := h.truthful w hw _ hb
    rcases ih with rfl | ih
    · exact .inr hlast
    · exact .inr (ih.trans hlast)

theorem Step.honest (hs : Step imports s s') (hl : Linked imports s) (ho : Orderly imports s)
    (h : Honest imports s) : Honest imports s' := by
  have hput {n : Nat} {w : Worker}
      (hw : ∀ c, w.phase = .cycle c → ∃ x ∈ w.chain, TransGen imports c x) :
      ∀ m c, ((s.put n w).worker m).phase = .cycle c →
        ∃ x ∈ ((s.put n w).worker m).chain, TransGen imports c x :=
    forall_put (P := fun _ w => ∀ c, w.phase = .cycle c → ∃ x ∈ w.chain, TransGen imports c x) h hw
  cases hs with
  | @giveUp n c hp _ hcycle =>
    refine hput ?_
    rintro _ ⟨⟩
    obtain ⟨x, hx, hpath⟩ := waitsOnChain_iff.mp hcycle
    refine ⟨x, hx, ?_⟩
    rcases ho.imports_of_path hpath with rfl | hpath
    · exact hl.imports_target (by rw [hp]; rfl) hx
    · exact hpath
  | finish hp => exact hput (by simp [hp])
  | _ => exact hput (by simp)

/-! ## Parents and children -/

/-- Numbers beyond the size are not in use, and the parent of a worker at work is joining. -/
structure Rooted (s : Crew) : Prop where
  unused : ∀ n, s.size ≤ n → s.worker n = {}
  parent : ∀ n p, (s.worker n).parent = some p → (s.worker n).phase ≠ .done →
    (s.worker p).phase = .joining ∧ (s.worker n).base = (s.worker p).chain ∧ p < n
  finished : ∀ n, (s.worker n).phase = .done → (s.worker n).own = []

theorem Rooted.lt_size (h : Rooted s) {n : Nat} (hn : (s.worker n).phase ≠ .done) : n < s.size := by
  by_contra hle
  exact hn (by rw [h.unused n (by omega)])

theorem Rooted.children_done (h : Rooted s) {n : Nat} (hn : (s.worker n).phase ≠ .joining) (m : Nat)
    (hm : (s.worker m).parent = some n) : (s.worker m).phase = .done := by
  by_contra hlive
  exact hn (h.parent m n hm hlive).1

theorem Rooted.put (h : Rooted s) {n : Nat} {w : Worker} (hn : (s.worker n).phase ≠ .done)
    (hall : ∀ m, (s.worker m).parent = some n → (s.worker m).phase = .done)
    (hparent : w.parent = (s.worker n).parent) (hbase : w.base = (s.worker n).base)
    (hdone : w.phase = .done → w.own = []) : Rooted (s.put n w) := by
  have hlt := h.lt_size hn
  refine ⟨fun m hm => ?_, fun m p hp hm => ?_, forall_put (P := fun _ w => w.phase = .done → w.own = [])
    h.finished hdone⟩
  · have hne : m ≠ n := by
      rintro rfl
      exact absurd hm (by simpa using hlt)
    simpa [hne] using h.unused m hm
  · by_cases hmn : m = n
    · subst hmn
      rw [worker_put_self, hparent] at hp
      have hpm := h.parent m p hp hn
      rwa [worker_put_self, worker_put_of_ne _ _ _ (by omega), hbase]
    · rw [worker_put_of_ne _ _ _ hmn] at hp hm ⊢
      have hpn : p ≠ n := by
        rintro rfl
        exact hm (hall m hp)
      rw [worker_put_of_ne _ _ _ hpn]
      exact h.parent m p hp hm

theorem Rooted.add (h : Rooted s) {w : Worker} (hdone : w.phase = .done → w.own = [])
    (hw : ∀ p, w.parent = some p → (s.worker p).phase = .joining ∧ w.base = (s.worker p).chain) :
    Rooted (s.add w) := by
  have hlt {p : Nat} (hp : (s.worker p).phase = .joining) : p < s.size := h.lt_size (by simp [hp])
  refine ⟨fun m hm => ?_, fun m p hp hm => ?_, forall_put (P := fun _ w => w.phase = .done → w.own = [])
    h.finished hdone⟩
  · have hle : s.size + 1 ≤ m := hm
    have hne : m ≠ s.size := by omega
    simpa [hne] using h.unused m (by omega)
  · by_cases hmn : m = s.size
    · subst hmn
      rw [worker_add, worker_put_self] at hp
      obtain ⟨hjoin, hbase⟩ := hw p hp
      have hp' := hlt hjoin
      rw [worker_add, worker_put_self, worker_put_of_ne _ _ _ (by omega)]
      exact ⟨hjoin, hbase, hp'⟩
    · rw [worker_add, worker_put_of_ne _ _ _ hmn] at hp hm ⊢
      have hpm := h.parent m p hp hm
      have hp' := hlt hpm.1
      rwa [worker_put_of_ne _ _ _ (by omega)]

theorem Rooted.of_eq (h : Rooted s) (hworker : s'.worker = s.worker) (hsize : s'.size = s.size) :
    Rooted s' := by
  obtain ⟨hu, hp, hf⟩ := h
  rw [← hworker, ← hsize] at *
  exact ⟨hu, hp, hf⟩

theorem Step.rooted (hs : Step imports s s') (h : Rooted s) : Rooted s' := by
  -- A worker that is not joining has no children at work, so it may change its chain.
  have hput {s' : Crew} {n : Nat} {w : Worker} (hworker : s'.worker = (s.put n w).worker)
      (hsize : s'.size = s.size) (hn : (s.worker n).phase ≠ .done)
      (hj : (s.worker n).phase ≠ .joining) (hparent : w.parent = (s.worker n).parent)
      (hbase : w.base = (s.worker n).base) (hdone : w.phase = .done → w.own = []) : Rooted s' :=
    (h.put hn (h.children_done hj) hparent hbase hdone).of_eq hworker hsize
  cases hs with
  | enter => exact h.add (by simp) (by simp)
  | spawn hp => exact h.add (by simp) (by simp [hp])
  | join hp hall => exact h.put (by simp [hp]) hall rfl rfl (by simp)
  | leave hp hown => exact hput rfl rfl (by simp [hp]) (by simp [hp]) rfl rfl fun _ => hown
  | finish hp => exact hput rfl rfl (by simp [hp]) (by simp [hp]) rfl rfl (by simp [hp])
  | ask hp | take hp | refuse hp | block hp | giveUp hp | wait hp | grant hp | grantBlocked hp
  | withdraw hp | serve hp | check hp | report hp | fanOut hp =>
    exact hput rfl rfl (by simp [hp]) (by simp [hp]) rfl rfl (by simp)

/-! ## Results -/

/-- All that is kept from step to step. -/
structure Sound (imports : CellId → CellId → Prop) (s : Crew) : Prop where
  linked : Linked imports s
  exclusive : Exclusive s
  orderly : Orderly imports s
  unchained : Unchained s
  honest : Honest imports s
  rooted : Rooted s

theorem Step.sound (hs : Step imports s s') (h : Sound imports s) : Sound imports s' where
  linked := hs.linked h.linked
  exclusive := hs.exclusive (h.rooted.unused _ le_rfl) h.exclusive
  orderly := hs.orderly h.linked h.orderly
  unchained := hs.unchained h.unchained
  honest := hs.honest h.linked h.orderly h.honest
  rooted := hs.rooted h.rooted

theorem Reachable.sound (h : Reachable imports s) : Sound imports s := by
  induction h with
  | start =>
    refine ⟨?_, ⟨?_, ?_⟩, ⟨?_, ?_, ?_, ?_, ?_⟩, ?_, ?_, ⟨?_, ?_, ?_⟩⟩
    all_goals simp [Linked, Unchained, Honest, Worker.trail, Worker.chain, Worker.holdings]
    intro c hc
    obtain ⟨_, ⟨w, hw, -⟩, -⟩ := TransGen.head'_iff.mp hc
    cases hw
  | step _ hs ih => exact hs.sound ih

/-- A worker that has to wait: for a record that another has locked, or for a child. -/
def Held (s : Crew) (n : Nat) : Prop :=
  (∃ c, (s.worker n).phase.wanted? = some c ∧ s.owner c ≠ none) ∨
    (s.worker n).phase = .joining ∧
      ∃ m, (s.worker m).parent = some n ∧ (s.worker m).phase ≠ .done

/-- A worker that is not done and need not wait can move. -/
theorem exists_step_of_not_held {n : Nat} (hn : (s.worker n).phase ≠ .done) (hheld : ¬ Held s n) :
    ∃ s', Step imports s s' ∧ s'.worker n ≠ s.worker n := by
  have hmoved {w : Worker} (hw : w ≠ s.worker n) : (s.put n w).worker n ≠ s.worker n := by simpa
  have hphase {phase : Phase} (h : phase ≠ (s.worker n).phase) :
      (s.move n phase).worker n ≠ s.worker n := hmoved fun e => h (congrArg Worker.phase e)
  have hfree {c : CellId} (hc : (s.worker n).phase.wanted? = some c) : s.owner c = none := by
    by_contra hbusy
    exact hheld (.inl ⟨c, hc, hbusy⟩)
  cases hp : (s.worker n).phase with
  | free =>
    cases hown : (s.worker n).own with
    | nil => exact ⟨_, .leave hp hown, hphase (by simp [hp])⟩
    | cons c rest =>
      exact ⟨_, .finish hp hown, hmoved fun e => by simpa [hown] using congrArg Worker.own e⟩
  | asking c =>
    by_cases howner : s.owner c = none
    · exact ⟨_, .take hp howner, hphase (by simp [hp])⟩
    · exact ⟨_, .refuse hp howner, hphase (by simp [hp])⟩
  | refused c =>
    by_cases hchain : (s.worker n).chain = []
    · exact ⟨_, .block hp hchain, hphase (by simp [hp])⟩
    · cases hw : waitsOnChain s.waits c (s.worker n).chain with
      | true => exact ⟨_, .giveUp hp hchain hw, hphase (by simp [hp])⟩
      | false => exact ⟨_, .wait hp hchain hw, hphase (by simp [hp])⟩
  | waiting id c => exact ⟨_, .grant hp (hfree (by simp [hp])), hphase (by simp [hp])⟩
  | blocked c => exact ⟨_, .grantBlocked hp (hfree (by simp [hp])), hphase (by simp [hp])⟩
  | granted id c => exact ⟨_, .withdraw hp, hphase (by simp [hp])⟩
  | locked c => exact ⟨_, .serve hp, hphase (by simp [hp])⟩
  | cycle c => exact ⟨_, .report hp, hphase (by simp [hp])⟩
  | joining =>
    refine ⟨_, .join hp fun m hm => ?_, hphase (by simp [hp])⟩
    by_contra hlive
    exact hheld (.inr ⟨hp, m, hm, hlive⟩)
  | done => exact absurd hp hn

/-- If all have to wait, then what one of them holds is on the chain of one that waits for a record. -/
theorem Rooted.exists_wanting (h : Rooted s) (hall : ∀ n, (s.worker n).phase ≠ .done → Held s n)
    {n : Nat} (hn : (s.worker n).phase ≠ .done) :
    ∃ m c, (s.worker m).phase.wanted? = some c ∧ (s.worker n).chain ⊆ (s.worker m).chain := by
  -- Children have larger numbers than their parents, and numbers are bounded.
  induction hk : s.size - n using Nat.strongRecOn generalizing n with
  | ind k ih =>
    rcases hall n hn with ⟨c, hc, -⟩ | ⟨-, m, hm, hlive⟩
    · exact ⟨n, c, hc, List.Subset.refl _⟩
    · obtain ⟨-, hbase, hlt⟩ := h.parent m n hm hlive
      have hsize := h.lt_size hlive
      obtain ⟨k, c, hc, hsub⟩ := ih (s.size - m) (by omega) hlive rfl
      exact ⟨k, c, hc, fun x hx => hsub (List.mem_append_right _ (hbase ▸ hx))⟩

/-- Some worker can move as long as not all of them are done. -/
theorem Sound.progress (h : Sound imports s) {n : Nat} (hn : (s.worker n).phase ≠ .done) :
    ∃ m s', (s.worker m).phase ≠ .done ∧ Step imports s s' ∧ s'.worker m ≠ s.worker m := by
  by_contra hstuck
  have hall m (hm : (s.worker m).phase ≠ .done) : Held s m := by
    by_contra hheld
    obtain ⟨s', hs, hne⟩ : ∃ s', Step imports s s' ∧ s'.worker m ≠ s.worker m :=
      exists_step_of_not_held hm hheld
    exact hstuck ⟨m, s', hm, hs, hne⟩
  obtain ⟨m, c, hc, -⟩ := h.rooted.exists_wanting hall hn
  refine h.orderly.not_closed h.unchained (S := { m | ∃ c, (s.worker m).phase.wanted? = some c })
    ⟨m, c, hc⟩ ?_
  rintro m ⟨c, hc⟩
  have hlive : (s.worker m).phase ≠ .done := fun e => by simp [e] at hc
  have howner : s.owner c ≠ none := by
    rcases hall m hlive with ⟨c', hc', ho⟩ | ⟨hj, -⟩
    · exact (Option.some.inj (hc.symm.trans hc')) ▸ ho
    · simp [hj] at hc
  obtain ⟨u, hu⟩ := Option.ne_none_iff_exists'.mp howner
  -- The owner has to wait too, so it has the record on its chain.
  have hown : c ∈ (s.worker u).own := by
    have hheld := (h.exclusive.owner u c).mpr hu
    rw [Worker.holdings, List.mem_append] at hheld
    refine hheld.resolve_left fun htaken => ?_
    have htaken : (s.worker u).phase.taken? = some c := by simpa using htaken
    have hu' : (s.worker u).phase ≠ .done := fun e => by simp [e] at htaken
    rcases hall u hu' with ⟨c', hc', -⟩ | ⟨hj, -⟩
    · cases hp : (s.worker u).phase <;> simp [hp] at htaken hc'
    · simp [hj] at htaken
  have hu' : (s.worker u).phase ≠ .done := fun e => by simp [h.rooted.finished u e] at hown
  obtain ⟨k, c', hc', hsub⟩ := h.rooted.exists_wanting hall hu'
  exact ⟨c, hc, k, ⟨c', hc'⟩, hsub (List.mem_append_left _ hown)⟩

/-- Importers that work together do not wait for each other in a circle, some of them can always move, one that
is told of a cycle has met one, and no record is checked by two of them. -/
theorem contention_is_safe (h : Reachable imports s) :
    (∀ S : Set Nat, S.Nonempty → ¬ ∀ n ∈ S, ∃ c, (s.worker n).phase.wanted? = some c ∧
      ∃ m ∈ S, c ∈ (s.worker m).chain) ∧
    (∀ n, (s.worker n).phase ≠ .done → ∃ m s', (s.worker m).phase ≠ .done ∧ Step imports s s' ∧
      s'.worker m ≠ s.worker m) ∧
    (∀ n c, (s.worker n).phase = .cycle c → ∃ x ∈ (s.worker n).chain, TransGen imports c x) ∧
    (∀ n m c, c ∈ (s.worker n).own → c ∈ (s.worker m).own → n = m) ∧
    ∀ n, (s.worker n).own.Nodup := by
  have hs := h.sound
  have howner {n : Nat} {c : CellId} (hc : c ∈ (s.worker n).own) : s.owner c = some n :=
    (hs.exclusive.owner n c).mp (List.mem_append_right _ hc)
  refine ⟨fun S hne => hs.orderly.not_closed hs.unchained hne, fun n => hs.progress, hs.honest,
    fun n m c hn hm => ?_, fun n => (hs.exclusive.nodup n).of_append_right⟩
  exact Option.some.inj ((howner hn).symm.trans (howner hm))

/-- Two packages that import each other, each begun by another worker. -/
theorem contention_is_safe_crossed : ∃ s, Reachable (fun a b => a + b = 1) s ∧
    (s.worker 0).phase = .waiting 0 1 ∧ (s.worker 1).phase = .cycle 0 ∧
    ∃ x ∈ (s.worker 1).chain, TransGen (fun a b => a + b = 1) 0 x := by
  have hwait : waitsOnChain [] 1 [0] = false := by
    simp [waitsOnChain, Wait.search, Wait.wantsOf]
  have hcycle : waitsOnChain [⟨0, [0], 1⟩] 0 [1] = true := by
    simp [waitsOnChain, Wait.search, Wait.wantsOf]
  have h : Reachable (fun a b => a + b = 1) _ := .start
  have h := h.step .enter
  have h := h.step .enter
  have h := h.step (.ask (n := 0) (c := 0) rfl fun x (hx : none = some x) => nomatch hx)
  have h := h.step (.take (n := 0) rfl rfl)
  have h := h.step (.check (n := 0) rfl)
  have h := h.step (.ask (n := 1) (c := 1) rfl fun x (hx : none = some x) => nomatch hx)
  have h := h.step (.take (n := 1) rfl rfl)
  have h := h.step (.check (n := 1) rfl)
  have h := h.step (.ask (n := 0) (c := 1) rfl fun x (hx : some 0 = some x) => by cases hx; rfl)
  have h := h.step (.refuse (n := 0) rfl fun (hx : some 1 = none) => nomatch hx)
  have h := h.step (.wait (n := 0) rfl (List.cons_ne_nil 0 []) hwait)
  have h := h.step (.ask (n := 1) (c := 0) rfl fun x (hx : some 1 = some x) => by cases hx; rfl)
  have h := h.step (.refuse (n := 1) rfl fun (hx : some 0 = none) => nomatch hx)
  have h := h.step (.giveUp (n := 1) rfl (List.cons_ne_nil 1 []) hcycle)
  exact ⟨_, h, rfl, rfl, (contention_is_safe h).2.2.1 1 0 rfl⟩

end Crew
end EditorAgent.Go

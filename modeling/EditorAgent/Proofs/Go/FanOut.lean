import EditorAgent.Go.Importer
import Mathlib

/-!
# Working through a list together

Several workers apply a function to the items of a list. Each takes the next item that nobody has taken, stores what the
function gives, and stops at the first failure that it sees. With fewer than two workers or items the list is worked
through in turn. Main statement: whatever the order of the steps, the outcome is that of working through the list in
turn, but for the choice among the failures, and no item is worked on twice.
-/

namespace EditorAgent.Go

open Relation

/-- Where a worker of a team stands. -/
inductive Stage (β ε : Type) where
  /-- About to look whether someone has failed. -/
  | testing
  /-- About to take the next item. -/
  | taking
  /-- About to apply the function to an item. -/
  | running (i : Nat)
  /-- Has what the function gives for an item. -/
  | storing (i : Nat) (r : Except ε β)
  | done

namespace Stage

variable {β ε : Type}

/-- The item that is worked on. -/
@[simp] def item? : Stage β ε → Option Nat
  | running i | storing i _ => some i
  | _ => none

end Stage

/-- Workers on one list, with what they share. -/
structure Team (β ε : Type) where
  /-- The next item to be taken. -/
  next : Nat := 0
  failure : Option ε := none
  /-- What has been found for each item. -/
  slots : List (Option β)
  workers : List (Stage β ε)
  /-- The items that the function was applied to. -/
  ran : List Nat := []

variable {α β ε : Type}

namespace Team

/-- A team of `size` workers before its first step. -/
def start (items : List α) (size : Nat) : Team β ε :=
  { slots := List.replicate items.length none, workers := List.replicate (min size items.length) .testing }

def move (s : Team β ε) (n : Nat) (p : Stage β ε) : Team β ε := { s with workers := s.workers.set n p }

/-- What is made of the shared data once all workers are done. -/
def result (s : Team β ε) : Except ε (List β) :=
  match s.failure with
  | some e => .error e
  | none => .ok (s.slots.filterMap id)

def Finished (s : Team β ε) : Prop := ∀ p ∈ s.workers, p = .done

/-- The steps of a team that applies `f` to `items`. -/
inductive Step (f : α → Except ε β) (items : List α) (s : Team β ε) : Team β ε → Prop
  | quit {n : Nat} (h : s.workers[n]? = some .testing) (hfailure : s.failure ≠ none) : Step f items s (s.move n .done)
  | pass {n : Nat} (h : s.workers[n]? = some .testing) (hfailure : s.failure = none) : Step f items s (s.move n .taking)
  | take {n : Nat} {a : α} (h : s.workers[n]? = some .taking) (ha : items[s.next]? = some a) :
    Step f items s { s.move n (.running s.next) with next := s.next + 1 }
  /-- No item is left. -/
  | exhaust {n : Nat} (h : s.workers[n]? = some .taking) (hlast : items[s.next]? = none) :
    Step f items s { s.move n .done with next := s.next + 1 }
  | run {n i : Nat} {a : α} (h : s.workers[n]? = some (.running i)) (ha : items[i]? = some a) :
    Step f items s { s.move n (.storing i (f a)) with ran := i :: s.ran }
  | store {n i : Nat} {b : β} (h : s.workers[n]? = some (.storing i (.ok b))) :
    Step f items s { s.move n .testing with slots := s.slots.set i (some b) }
  /-- The first failure stays. -/
  | record {n i : Nat} {e : ε} (h : s.workers[n]? = some (.storing i (.error e))) :
    Step f items s { s.move n .done with failure := s.failure <|> some e }

end Team

/-- Works through a list up to the first failure; with the items that the function was applied to. -/
def inTurn (f : α → Except ε β) (i : Nat) : List α → Except ε (List β) × List Nat
  | [] => (.ok [], [])
  | a :: items => match f a with
    | .error e => (.error e, [i])
    | .ok b => ((inTurn f (i + 1) items).1.map (b :: ·), i :: (inTurn f (i + 1) items).2)

/-- What working through a list comes to, with the items that the function was applied to. -/
inductive FanOut (f : α → Except ε β) (items : List α) (workers : Nat) : Except ε (List β) → List Nat → Prop
  | alone (h : workers < 2 ∨ items.length < 2) : FanOut f items workers (inTurn f 0 items).1 (inTurn f 0 items).2
  | together {s : Team β ε} (hworkers : 2 ≤ workers) (hitems : 2 ≤ items.length)
      (hrun : ReflTransGen (Team.Step f items) (Team.start items workers) s) (hdone : s.Finished) :
    FanOut f items workers s.result s.ran

variable {f : α → Except ε β} {items : List α} {i n m : Nat}

/-! ## In turn -/

/-- Dependencies that are imported one at a time are worked through in turn. -/
theorem untilFailure_eq (f : α → Except ImportError β) (items : List α) (i : Nat) (s : Session) :
    Importer.untilFailure (fun a => return f a) items s = ((inTurn f i items).1, s) := by
  induction items generalizing i with
  | nil => rfl
  | cons a items ih =>
    cases ha : f a with
    | error e => simp [Importer.untilFailure, inTurn, ha, pure, StateT.pure, bind, StateT.bind]
    | ok b =>
      have hrest := ih (i + 1)
      cases hr : (inTurn f (i + 1) items).1 <;>
        simp_all [Importer.untilFailure, inTurn, pure, StateT.pure, bind, StateT.bind, Except.map]

/-- Working through a list in turn gives what the function gives for each item, or one of its failures. -/
theorem inTurn_fst (f : α → Except ε β) (items : List α) (i : Nat) :
    (∃ bs, (inTurn f i items).1 = .ok bs ∧ bs.map .ok = items.map f) ∨
      ∃ e, (inTurn f i items).1 = .error e ∧ ∃ a ∈ items, f a = .error e := by
  induction items generalizing i with
  | nil => exact .inl ⟨[], rfl, rfl⟩
  | cons a items ih =>
    cases ha : f a with
    | error e => exact .inr ⟨e, by rw [inTurn, ha], a, List.mem_cons_self, ha⟩
    | ok b =>
      rcases ih (i + 1) with ⟨bs, hrest, hbs⟩ | ⟨e, hrest, a', ha', he⟩
      · exact .inl ⟨b :: bs, by rw [inTurn, ha, hrest]; rfl, by rw [List.map_cons, List.map_cons, ha, hbs]⟩
      · exact .inr ⟨e, by rw [inTurn, ha, hrest]; rfl, a', List.mem_cons_of_mem a ha', he⟩

/-- The items of a beginning of the list, one after another. -/
theorem inTurn_snd (f : α → Except ε β) (items : List α) (i : Nat) :
    ∃ m ≤ items.length, (inTurn f i items).2 = List.range' i m := by
  induction items generalizing i with
  | nil => exact ⟨0, Nat.le_refl _, rfl⟩
  | cons a items ih =>
    cases ha : f a with
    | error e => exact ⟨1, by simp, by rw [inTurn, ha]; rfl⟩
    | ok b =>
      obtain ⟨m, hm, hrest⟩ := ih (i + 1)
      exact ⟨m + 1, Nat.succ_le_succ hm, by rw [inTurn, ha, hrest, List.range'_succ]⟩

/-! ## Together -/

/-- What is about to be stored is what the function gives. -/
def Stage.Truthful (f : α → Except ε β) (items : List α) : Stage β ε → Prop
  | storing i r => ∃ a, items[i]? = some a ∧ f a = r
  | _ => True

namespace Team

variable {s s' : Team β ε} {p q : Stage β ε}

/-- A worker is at a stage. -/
def At (s : Team β ε) (n : Nat) (p : Stage β ε) : Prop := s.workers[n]? = some p

theorem At.of_move (h : (s.move n p).At m q) : m = n ∧ q = p ∨ m ≠ n ∧ s.At m q := by
  rw [At, move, List.getElem?_set] at h
  split at h
  · next heq =>
    obtain ⟨-, h⟩ := Option.ite_none_right_eq_some.mp h
    cases h
    exact .inl ⟨heq.symm, rfl⟩
  · next hne => exact .inr ⟨Ne.symm hne, h⟩

theorem At.move_self (h : s.At n q) : (s.move n p).At n p := by
  obtain ⟨hn, -⟩ := List.getElem?_eq_some_iff.mp h
  exact List.getElem?_set_self hn

theorem At.move (h : s.At m q) (hne : m ≠ n) : (s.move n p).At m q :=
  (List.getElem?_set_ne hne.symm).trans h

/-- What has been found is what the function gives. -/
structure Truthful (f : α → Except ε β) (items : List α) (s : Team β ε) : Prop where
  slot : ∀ (i : Nat) (b : β), s.slots[i]? = some (some b) → ∃ a, items[i]? = some a ∧ f a = .ok b
  failure : ∀ e, s.failure = some e → ∃ a ∈ items, f a = .error e
  worker : ∀ n p, s.At n p → p.Truthful f items

theorem Truthful.worker_move (h : s.Truthful f items) (hp : p.Truthful f items) :
    ∀ m q, (s.move n p).At m q → q.Truthful f items := by
  intro m q hq
  rcases hq.of_move with ⟨-, rfl⟩ | ⟨-, hq⟩
  · exact hp
  · exact h.worker m q hq

theorem Step.truthful (hs : Step f items s s') (h : s.Truthful f items) : s'.Truthful f items := by
  cases hs with
  | quit _ _ | pass _ _ | take _ _ | exhaust _ _ => exact ⟨h.slot, h.failure, h.worker_move trivial⟩
  | run _ ha => exact ⟨h.slot, h.failure, h.worker_move ⟨_, ha, rfl⟩⟩
  | @store n i b hn =>
    refine ⟨fun j b' hj => ?_, h.failure, h.worker_move trivial⟩
    rw [List.getElem?_set] at hj
    split at hj
    · next heq =>
      obtain ⟨-, hj⟩ := Option.ite_none_right_eq_some.mp hj
      cases hj
      exact heq ▸ h.worker n _ hn
    · exact h.slot j b' hj
  | @record n i e hn =>
    refine ⟨h.slot, fun e' he' => ?_, h.worker_move trivial⟩
    cases hfailure : s.failure with
    | some e₀ => exact h.failure e' (by simpa [hfailure] using he')
    | none =>
      obtain ⟨a, ha, he⟩ := h.worker n _ hn
      obtain rfl : e = e' := by simpa [hfailure] using he'
      exact ⟨a, List.mem_of_getElem? ha, he⟩

/-- Nobody works on an item that someone has taken. -/
structure Once (items : List α) (s : Team β ε) : Prop where
  running : ∀ n i, s.At n (.running i) → i < s.next ∧ i < items.length ∧ i ∉ s.ran
  apart : ∀ n m i, s.At n (.running i) → s.At m (.running i) → n = m
  ran : ∀ i ∈ s.ran, i < s.next ∧ i < items.length
  nodup : s.ran.Nodup

/-- A worker has moved to a stage at which the function is not about to be applied. -/
theorem Once.move (h : s.Once items) (hp : ∀ i, p ≠ .running i) (hmove : ∀ m q, s'.At m q → (s.move n p).At m q)
    (hnext : s.next ≤ s'.next) (hran : s'.ran = s.ran) : s'.Once items := by
  have hold {m i : Nat} (hm : s'.At m (.running i)) : s.At m (.running i) := by
    rcases (hmove m _ hm).of_move with ⟨-, heq⟩ | ⟨-, hm⟩
    · exact absurd heq.symm (hp i)
    · exact hm
  refine ⟨fun m i hm => ?_, fun m m' i hm hm' => h.apart m m' i (hold hm) (hold hm'), fun i hi => ?_, hran ▸ h.nodup⟩
  · obtain ⟨hlt, hlen, hnew⟩ := h.running m i (hold hm)
    exact ⟨Nat.lt_of_lt_of_le hlt hnext, hlen, hran ▸ hnew⟩
  · obtain ⟨hlt, hlen⟩ := h.ran i (hran ▸ hi)
    exact ⟨Nat.lt_of_lt_of_le hlt hnext, hlen⟩

theorem Step.once (hs : Step f items s s') (h : s.Once items) : s'.Once items := by
  cases hs with
  | quit _ _ | pass _ _ | store _ | record _ => exact h.move (by simp) (fun _ _ hm => hm) (Nat.le_refl _) rfl
  | exhaust _ _ => exact h.move (by simp) (fun _ _ hm => hm) (Nat.le_succ _) rfl
  | @take n a hn ha =>
    obtain ⟨hlen, -⟩ := List.getElem?_eq_some_iff.mp ha
    have hfresh : s.next ∉ s.ran := fun hmem => Nat.lt_irrefl _ (h.ran _ hmem).1
    have hcases {m i : Nat} (hm : (s.move n (.running s.next)).At m (.running i)) :
        m = n ∧ i = s.next ∨ m ≠ n ∧ i < s.next ∧ s.At m (.running i) := by
      rcases hm.of_move with ⟨hmn, heq⟩ | ⟨hne, hm⟩
      · cases heq
        exact .inl ⟨hmn, rfl⟩
      · exact .inr ⟨hne, (h.running m i hm).1, hm⟩
    refine ⟨fun m i hm => ?_, fun m m' i hm hm' => ?_, fun i hi => ?_, h.nodup⟩
    · rcases hcases hm with ⟨-, rfl⟩ | ⟨-, -, hm⟩
      · exact ⟨Nat.lt_succ_self _, hlen, hfresh⟩
      · obtain ⟨hlt, hrest⟩ := h.running m i hm
        exact ⟨Nat.lt_succ_of_lt hlt, hrest⟩
    · rcases hcases hm with ⟨rfl, hi⟩ | ⟨-, hi, hm⟩ <;> rcases hcases hm' with ⟨rfl, hi'⟩ | ⟨-, hi', hm'⟩
      · rfl
      · omega
      · omega
      · exact h.apart m m' i hm hm'
    · obtain ⟨hlt, hlen⟩ := h.ran i hi
      exact ⟨Nat.lt_succ_of_lt hlt, hlen⟩
  | @run n i a hn ha =>
    obtain ⟨hlt, hlen, hnew⟩ := h.running n i hn
    have hcases {m j : Nat} (hm : (s.move n (.storing i (f a))).At m (.running j)) : j ≠ i ∧ s.At m (.running j) := by
      rcases hm.of_move with ⟨-, heq⟩ | ⟨hne, hm⟩
      · cases heq
      · exact ⟨fun heq => hne (h.apart m n i (heq ▸ hm) hn), hm⟩
    refine ⟨fun m j hm => ?_, fun m m' j hm hm' => ?_, ?_, List.nodup_cons.mpr ⟨hnew, h.nodup⟩⟩
    · obtain ⟨hne, hm⟩ := hcases hm
      obtain ⟨hlt, hlen, hnew⟩ := h.running m j hm
      exact ⟨hlt, hlen, List.not_mem_cons_of_ne_of_not_mem hne hnew⟩
    · exact h.apart m m' j (hcases hm).2 (hcases hm').2
    · exact List.forall_mem_cons.mpr ⟨⟨hlt, hlen⟩, h.ran⟩

/-- Every item that was taken is being worked on or has been found, and a worker only stops when none is left, as long
as nobody has failed. -/
structure Covering (items : List α) (s : Team β ε) : Prop where
  slots : s.slots.length = items.length
  taken : s.failure = none → ∀ i < s.next, i < items.length →
    (∃ b, s.slots[i]? = some (some b)) ∨ ∃ n p, s.At n p ∧ p.item? = some i
  stopped : s.failure = none → ∀ n, s.At n .done → items.length ≤ s.next

/-- A worker has moved on, with the items that it took, and left behind what it found. -/
theorem Covering.move (h : s.Covering items) (hq : s.At n q) (hworkers : ∀ m r, s'.At m r ↔ (s.move n p).At m r)
    (hslots : s'.slots.length = s.slots.length) (hfailure : s'.failure = s.failure) (hnext : s.next ≤ s'.next)
    (hfound : ∀ (i : Nat) (b : β), s.slots[i]? = some (some b) → ∃ b', s'.slots[i]? = some (some b'))
    (hitem : ∀ i, q.item? = some i → (∃ b, s'.slots[i]? = some (some b)) ∨ p.item? = some i)
    (htaken : ∀ i < s'.next, i < items.length → i < s.next ∨ p.item? = some i)
    (hdone : p = .done → items.length ≤ s'.next) : s'.Covering items := by
  have hself : s'.At n p := (hworkers n p).mpr hq.move_self
  refine ⟨hslots.trans h.slots, fun hnone i hi hlen => ?_, fun hnone m hm => ?_⟩
  · rcases htaken i hi hlen with hi | hp
    · rcases h.taken (hfailure ▸ hnone) i hi hlen with ⟨b, hb⟩ | ⟨m, r, hm, hr⟩
      · exact .inl (hfound i b hb)
      · by_cases hmn : m = n
        · subst hmn
          cases hm.symm.trans hq
          exact (hitem i hr).imp_right fun hp => ⟨m, p, hself, hp⟩
        · exact .inr ⟨m, r, (hworkers m r).mpr (hm.move hmn), hr⟩
    · exact .inr ⟨n, p, hself, hp⟩
  · rcases ((hworkers m _).mp hm).of_move with ⟨-, heq⟩ | ⟨-, hm⟩
    · exact hdone heq.symm
    · exact Nat.le_trans (h.stopped (hfailure ▸ hnone) m hm) hnext

theorem Step.covering (hs : Step f items s s') (htruthful : s.Truthful f items) (h : s.Covering items) :
    s'.Covering items := by
  have hsame (n : Nat) (p : Stage β ε) : ∀ m r, (s.move n p).At m r ↔ (s.move n p).At m r := fun _ _ => Iff.rfl
  have hfound (i : Nat) (b : β) (hb : s.slots[i]? = some (some b)) : ∃ b', s.slots[i]? = some (some b') := ⟨b, hb⟩
  cases hs with
  | quit _ hfailure => exact ⟨h.slots, fun hnone => absurd hnone hfailure, fun hnone => absurd hnone hfailure⟩
  | pass hn _ =>
    exact h.move hn (hsame _ _) rfl rfl (Nat.le_refl _) hfound (by simp) (fun _ hi _ => .inl hi) (by simp)
  | take hn _ =>
    refine h.move hn (hsame _ _) rfl rfl (Nat.le_succ _) hfound (by simp) (fun i hi _ => ?_) (by simp)
    rcases Nat.lt_succ_iff_lt_or_eq.mp hi with hi | rfl
    · exact .inl hi
    · exact .inr rfl
  | exhaust hn hlast =>
    have hlen : items.length ≤ s.next := List.getElem?_eq_none_iff.mp hlast
    exact h.move hn (hsame _ _) rfl rfl (Nat.le_succ _) hfound (by simp)
      (fun i _ hi => .inl (Nat.lt_of_lt_of_le hi hlen)) fun _ => Nat.le_succ_of_le hlen
  | run hn _ =>
    exact h.move hn (hsame _ _) rfl rfl (Nat.le_refl _) hfound (by simp) (fun _ hi _ => .inl hi) (by simp)
  | @store n i b hn =>
    obtain ⟨a, ha, -⟩ := htruthful.worker n _ hn
    obtain ⟨hlen, -⟩ := List.getElem?_eq_some_iff.mp ha
    have hset : (s.slots.set i (some b))[i]? = some (some b) := List.getElem?_set_self (h.slots ▸ hlen)
    refine h.move hn (hsame _ _) List.length_set rfl (Nat.le_refl _) (fun j b' hb' => ?_) (fun j hj => .inl ?_)
      (fun _ hj _ => .inl hj) (by simp)
    · by_cases heq : i = j
      · exact ⟨b, heq ▸ hset⟩
      · exact ⟨b', (List.getElem?_set_ne heq).trans hb'⟩
    · obtain rfl : i = j := Option.some.inj hj
      exact ⟨b, hset⟩
  | record _ => exact ⟨h.slots, by simp, by simp⟩

/-! ## Schedules -/

/-- What holds of a team at any time. -/
structure Sound (f : α → Except ε β) (items : List α) (s : Team β ε) : Prop where
  truthful : s.Truthful f items
  once : s.Once items
  covering : s.Covering items

theorem at_start {size : Nat} (h : (start items size : Team β ε).At n p) : p = .testing :=
  (List.mem_replicate.mp (List.mem_of_getElem? h)).2

theorem sound_start (f : α → Except ε β) (items : List α) (size : Nat) : (start items size).Sound f items where
  truthful := {
    slot := fun i b hb => by cases (List.mem_replicate.mp (List.mem_of_getElem? hb)).2
    failure := fun e he => by cases he
    worker := fun n p hn => by rw [at_start hn]; trivial }
  once := {
    running := fun n i hn => by cases at_start hn
    apart := fun n m i hn => by cases at_start hn
    ran := fun i hi => by cases hi
    nodup := List.nodup_nil }
  covering := {
    slots := List.length_replicate
    taken := fun _ i hi => absurd hi (Nat.not_lt_zero i)
    stopped := fun _ n hn => by cases at_start hn }

theorem Step.sound (hs : Step f items s s') (h : s.Sound f items) : s'.Sound f items :=
  ⟨hs.truthful h.truthful, hs.once h.once, hs.covering h.truthful h.covering⟩

theorem Step.length_workers (hs : Step f items s s') : s'.workers.length = s.workers.length := by
  cases hs <;> exact List.length_set

/-- Whatever the order of the steps, a team stays sound, and no worker gets lost. -/
theorem sound_of_run {size : Nat} (hrun : ReflTransGen (Step f items) (start items size) s) :
    s.Sound f items ∧ s.workers.length = min size items.length := by
  induction hrun with
  | refl => exact ⟨sound_start f items size, List.length_replicate⟩
  | tail _ hs ih => exact ⟨hs.sound ih.1, hs.length_workers.trans ih.2⟩

/-- A team that is not finished can go on. -/
theorem Sound.exists_step (h : s.Sound f items) (hopen : ¬ s.Finished) : ∃ s', Step f items s s' := by
  simp only [Finished, not_forall] at hopen
  obtain ⟨p, hp, hnot⟩ := hopen
  obtain ⟨n, hn⟩ := List.getElem?_of_mem hp
  cases p with
  | testing =>
    by_cases hfailure : s.failure = none
    · exact ⟨_, .pass hn hfailure⟩
    · exact ⟨_, .quit hn hfailure⟩
  | taking =>
    cases ha : items[s.next]? with
    | none => exact ⟨_, .exhaust hn ha⟩
    | some a => exact ⟨_, .take hn ha⟩
  | running i => exact ⟨_, .run hn (List.getElem?_eq_getElem (h.once.running n i hn).2.1)⟩
  | storing i r =>
    cases r with
    | ok b => exact ⟨_, .store hn⟩
    | error e => exact ⟨_, .record hn⟩
  | done => exact absurd rfl hnot

end Team

/-- How far a worker is from being done, if it takes no other item. -/
def Stage.effort : Stage β ε → Nat
  | done => 0
  | taking => 1
  | testing => 2
  | storing _ _ => 3
  | running _ => 4

namespace Team

variable {s s' : Team β ε} {p q : Stage β ε}

/-- How far a team is from being finished, at most. -/
def effort (items : List α) (s : Team β ε) : Nat :=
  4 * (items.length - s.next) + (s.workers.map Stage.effort).sum

theorem sum_set {ps : List (Stage β ε)} (h : ps[n]? = some q) (p : Stage β ε) :
    ((ps.set n p).map Stage.effort).sum + q.effort = (ps.map Stage.effort).sum + p.effort := by
  induction ps generalizing n with
  | nil => cases h
  | cons r ps ih =>
    cases n with
    | zero =>
      cases h
      simp only [List.set_cons_zero, List.map_cons, List.sum_cons]
      omega
    | succ n =>
      have hrest := ih (n := n) h
      simp only [List.set_cons_succ, List.map_cons, List.sum_cons]
      omega

theorem effort_lt_of_move (h : s.At n q) (hworkers : s'.workers = s.workers.set n p)
    (hlt : 4 * (items.length - s'.next) + p.effort < 4 * (items.length - s.next) + q.effort) :
    s'.effort items < s.effort items := by
  have hsum := sum_set h p
  rw [effort, effort, hworkers]
  omega

theorem Step.effort_lt (hs : Step f items s s') : s'.effort items < s.effort items := by
  cases hs with
  | quit hn _ | pass hn _ | run hn _ | store hn | record hn =>
    exact effort_lt_of_move hn rfl (Nat.add_lt_add_left (by simp [Stage.effort]) _)
  | @take n a hn ha =>
    obtain ⟨hlen, -⟩ := List.getElem?_eq_some_iff.mp ha
    refine effort_lt_of_move hn rfl ?_
    simp only [Stage.effort]
    omega
  | exhaust hn _ =>
    refine effort_lt_of_move hn rfl ?_
    simp only [Stage.effort]
    omega

/-- No schedule goes on for ever. -/
theorem wellFounded_step (f : α → Except ε β) (items : List α) : WellFounded fun s' s => Step f items s s' :=
  Subrelation.wf Step.effort_lt (InvImage.wf (effort items) Nat.lt_wfRel.wf)

/-! ## Outcomes -/

/-- Nobody has failed, so everything has been found. -/
theorem Sound.slot_of_finished (h : s.Sound f items) (hdone : s.Finished) (hworkers : 0 < s.workers.length)
    (hnone : s.failure = none) {a : α} (ha : items[i]? = some a) : ∃ b, s.slots[i]? = some (some b) ∧ f a = .ok b := by
  have hlast : items.length ≤ s.next := by
    have hat : s.At 0 s.workers[0] := List.getElem?_eq_getElem hworkers
    exact h.covering.stopped hnone 0 (hdone _ (List.getElem_mem hworkers) ▸ hat)
  obtain ⟨hlen, -⟩ := List.getElem?_eq_some_iff.mp ha
  rcases h.covering.taken hnone i (Nat.lt_of_lt_of_le hlen hlast) hlen with ⟨b, hb⟩ | ⟨n, p, hn, hp⟩
  · obtain ⟨a', ha', hab⟩ := h.truthful.slot i b hb
    cases ha.symm.trans ha'
    exact ⟨b, hb, hab⟩
  · rw [hdone p (List.mem_of_getElem? hn)] at hp
    cases hp

theorem map_filterMap_slots {items : List α} {slots : List (Option β)}
    (h : List.Forall₂ (fun a slot => ∃ b, slot = some b ∧ f a = .ok b) items slots) :
    (slots.filterMap id).map .ok = items.map f := by
  induction h with
  | nil => rfl
  | cons hhead _ ih =>
    obtain ⟨b, rfl, hb⟩ := hhead
    rw [List.filterMap_cons_some (f := id) rfl, List.map_cons, List.map_cons, hb, ih]

/-- A finished team has what the function gives for each item, or one of its failures. -/
theorem Sound.result_of_finished (h : s.Sound f items) (hdone : s.Finished) (hworkers : 0 < s.workers.length) :
    (∃ bs, s.result = .ok bs ∧ bs.map .ok = items.map f) ∨
      ∃ e, s.result = .error e ∧ ∃ a ∈ items, f a = .error e := by
  cases hfailure : s.failure with
  | some e => exact .inr ⟨e, by rw [result, hfailure], h.truthful.failure e hfailure⟩
  | none =>
    refine .inl ⟨s.slots.filterMap id, by rw [result, hfailure], map_filterMap_slots ?_⟩
    refine List.forall₂_iff_get.mpr ⟨h.covering.slots.symm, fun i hi hi' => ?_⟩
    obtain ⟨b, hb, hab⟩ := h.slot_of_finished hdone hworkers hfailure (List.getElem?_eq_getElem hi)
    exact ⟨b, (List.getElem?_eq_some_iff.mp hb).2, hab⟩

end Team

/-- Every outcome is a list of what the function gives for each item, or one of its failures. -/
theorem FanOut.outcome {workers : Nat} {r : Except ε (List β)} {ran : List Nat} (h : FanOut f items workers r ran) :
    ((∃ bs, r = .ok bs ∧ bs.map .ok = items.map f) ∨ ∃ e, r = .error e ∧ ∃ a ∈ items, f a = .error e) ∧
      ran.Nodup ∧ ∀ i ∈ ran, i < items.length := by
  cases h with
  | alone _ =>
    obtain ⟨m, hm, hran⟩ := inTurn_snd f items 0
    refine ⟨inTurn_fst f items 0, hran ▸ List.nodup_range', fun i hi => ?_⟩
    rw [hran, List.mem_range'_1] at hi
    omega
  | together hworkers hitems hrun hdone =>
    obtain ⟨hsound, hlength⟩ := Team.sound_of_run hrun
    refine ⟨hsound.result_of_finished hdone (by omega), hsound.once.nodup, fun i hi => (hsound.once.ran i hi).2⟩

theorem exists_ok_of_map_ok {bs : List β} (h : bs.map .ok = items.map f) {a : α} (ha : a ∈ items) :
    ∃ b, f a = .ok b := by
  obtain ⟨b, -, hb⟩ := List.mem_map.mp (h ▸ List.mem_map_of_mem ha : f a ∈ bs.map .ok)
  exact ⟨b, hb.symm⟩

/-- A list that is worked through by any number of workers, on any schedule: no schedule goes on for ever or gets stuck;
the outcome is what the function gives for the items, in their order, just if it fails for none of them, and otherwise
one of its failures; and the function is applied at most once to each item. -/
theorem fanOut_agrees (f : α → Except ε β) (items : List α) (workers : Nat) :
    (WellFounded fun s' s => Team.Step f items s s') ∧
      (∀ s, ReflTransGen (Team.Step f items) (Team.start items workers) s → s.Finished ∨ ∃ s', Team.Step f items s s') ∧
      ∀ r ran, FanOut f items workers r ran →
        ((∃ bs, r = .ok bs) ↔ ∀ a ∈ items, ∃ b, f a = .ok b) ∧
          (∀ bs, r = .ok bs → bs.map .ok = items.map f) ∧
          (∀ e, r = .error e → ∃ a ∈ items, f a = .error e) ∧
          ran.Nodup ∧ ∀ i ∈ ran, i < items.length := by
  refine ⟨Team.wellFounded_step f items, fun s hrun => ?_, fun r ran h => ?_⟩
  · exact or_iff_not_imp_left.mpr (Team.sound_of_run hrun).1.exists_step
  · obtain ⟨⟨bs, rfl, hbs⟩ | ⟨e, rfl, a, ha, he⟩, hran⟩ := h.outcome
    · refine ⟨iff_of_true ⟨bs, rfl⟩ fun a ha => exists_ok_of_map_ok hbs ha, ?_, by simp, hran⟩
      rintro bs' ⟨⟩
      exact hbs
    · refine ⟨iff_of_false (by simp) fun hall => ?_, by simp, ?_, hran⟩
      · obtain ⟨b, hb⟩ := hall a ha
        cases he.symm.trans hb
      · rintro e' ⟨⟩
        exact ⟨a, ha, he⟩

/-- Two workers take the first two of three items; the second item fails, and the third is never taken. -/
theorem fanOut_agrees_cutShort :
    let f : Nat → Except String Nat := fun n => if n = 2 then .error "two" else .ok (2 * n)
    FanOut f [1, 2, 3] 2 (.error "two") [0, 1] ∧ (∃ a ∈ [1, 2, 3], f a = .error "two") ∧ [0, 1].Nodup := by
  intro f
  let s : Team Nat String := {
    next := 2, failure := some "two", slots := [some 2, none, none], workers := [.done, .done], ran := [0, 1] }
  have hrun : ReflTransGen (Team.Step f [1, 2, 3]) (Team.start [1, 2, 3] 2) s := by
    refine .head (.pass (n := 0) rfl rfl) (.head (.pass (n := 1) rfl rfl) ?_)
    refine .head (.take (n := 0) (a := 1) rfl rfl) (.head (.take (n := 1) (a := 2) rfl rfl) ?_)
    refine .head (.run (n := 1) (i := 1) (a := 2) rfl rfl) (.head (.record (n := 1) (i := 1) (e := "two") rfl) ?_)
    refine .head (.run (n := 0) (i := 0) (a := 1) rfl rfl) (.head (.store (n := 0) (i := 0) (b := 2) rfl) ?_)
    exact .single (.quit (n := 0) rfl (by decide))
  have hfan : FanOut f [1, 2, 3] 2 (.error "two") [0, 1] :=
    .together (s := s) (by decide) (by decide) hrun (by simp [Team.Finished, s])
  obtain ⟨-, -, herror, hran, -⟩ := (fanOut_agrees f [1, 2, 3] 2).2.2 _ _ hfan
  exact ⟨hfan, herror "two" rfl, hran⟩

end EditorAgent.Go

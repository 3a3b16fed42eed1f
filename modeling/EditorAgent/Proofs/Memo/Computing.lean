import EditorAgent.Proofs.Memo.Nesting
import Mathlib

/-!
# What a computation leaves

A computation may change the memo in which its value is to be kept, and so may the computations that it starts. What
comes after it is any line of steps, the ends of the computations around it included. Main statement: a computation
whose entry was removed meanwhile leaves no trace in the memo, and one whose entry was not removed leaves its value,
until that is replaced.
-/

namespace EditorAgent.Memo.Nest

variable {κ ν τ : Type} [DecidableEq κ] [DecidableEq τ] {kind : ν → τ} {s s' u : Nest κ ν τ} {op : Op κ ν τ}
  {ops : List (Op κ ν τ)} {answer : Answer ν}

/-! ## Runs -/

/-- A run during which the computations `base` stay under way. -/
inductive Path (kind : ν → τ) (base : List (Computation κ τ)) : Nest κ ν τ → List (Op κ ν τ) → Nest κ ν τ → Prop
  | nil {s : Nest κ ν τ} (hbase : base <:+ s.stack) : Path kind base s [] s
  | cons {s s' u : Nest κ ν τ} {op : Op κ ν τ} {ops : List (Op κ ν τ)} {answer : Answer ν} (hbase : base <:+ s.stack)
      (hstep : Step kind s op answer s') (hrest : Path kind base s' ops u) : Path kind base s (op :: ops) u

variable {base : List (Computation κ τ)}

namespace Path

theorem append (h : Path kind base s ops s') {ops' : List (Op κ ν τ)} (h' : Path kind base s' ops' u) :
    Path kind base s (ops ++ ops') u := by
  induction h with
  | nil _ => exact h'
  | cons hbase hstep _ ih => exact .cons hbase hstep (ih h')

theorem mono (h : Path kind base s ops u) {base' : List (Computation κ τ)} (hbase : base' <:+ base) :
    Path kind base' s ops u := by
  induction h with
  | nil h => exact .nil (hbase.trans h)
  | cons h hstep _ ih => exact .cons (hbase.trans h) hstep ih

theorem base_end (h : Path kind base s ops u) : base <:+ u.stack := by
  induction h with
  | nil hbase => exact hbase
  | cons _ _ _ ih => exact ih

/-- The step at one place of a run. -/
theorem split {before after : List (Op κ ν τ)} (h : Path kind base s (before ++ op :: after) u) :
    ∃ a answer b, Path kind base s before a ∧ Step kind a op answer b ∧ Path kind base b after u := by
  induction before generalizing s with
  | nil =>
    cases h with
    | cons hbase hstep hrest => exact ⟨s, _, _, .nil hbase, hstep, hrest⟩
  | cons op' before ih =>
    cases h with
    | cons hbase hstep hrest =>
      obtain ⟨a, answer, b, ha, hab, hb⟩ := ih hrest
      exact ⟨a, answer, b, .cons hbase hstep ha, hab, hb⟩

/-- What every step keeps, if its operation is such as all of the run are, is kept by a run. -/
theorem keeps (hrun : Path kind base s ops u) {P : Nest κ ν τ → Prop} {Q : Op κ ν τ → Prop}
    (hP : ∀ {s s' op answer}, Step kind s op answer s' → s.Sound → Q op → P s → P s') (hsound : s.Sound)
    (hops : ∀ op ∈ ops, Q op) (h : P s) : P u := by
  induction hrun with
  | nil _ => exact h
  | cons _ hstep _ ih =>
    obtain ⟨hop, hops⟩ := List.forall_mem_cons.mp hops
    exact ih (hstep.sound hsound) hops (hP hstep hsound hop h)

theorem sound (hrun : Path kind base s ops u) (h : s.Sound) : u.Sound := by
  induction hrun with
  | nil _ => exact h
  | cons _ hstep _ ih => exact ih (hstep.sound h)

end Path

theorem path_of_follow (h : s.follow kind ops = some u) : Path kind [] s ops u := by
  induction ops generalizing s with
  | nil =>
    cases h
    exact .nil List.nil_suffix
  | cons op ops ih =>
    obtain ⟨⟨s', answer⟩, hstep, hrest⟩ : ∃ x, s.step kind op = some x ∧ x.1.follow kind ops = some u := by
      simpa [follow, List.foldlM_cons, Option.bind_eq_some_iff] using h
    exact .cons List.nil_suffix (step_of_eq_some hstep) (ih hrest)

theorem Reached.sound (h : s.Reached kind) : s.Sound := by
  obtain ⟨ops, hrun⟩ := h
  exact (path_of_follow hrun).sound sound_empty

theorem Step.stack_ask {q : Query κ ν τ} (h : Step kind s (.ask q) answer s') : s'.stack = s.stack := by
  cases h <;> rfl

theorem Step.stack_give {v : ν} (h : Step kind s (.give v) answer s') : ∃ c, s.stack = c :: s'.stack := by
  cases h with
  | give hstack _ => exact ⟨_, hstack⟩

/-- A program leaves the computations around it under way. -/
theorem path_of_run {p : Program κ ν τ} {v : ν} (h : p.run kind s = some (u, ops, v)) :
    u.stack = s.stack ∧ Path kind s.stack s ops u := by
  induction p generalizing s u ops v with
  | done w =>
    cases h
    exact ⟨rfl, .nil (List.suffix_refl _)⟩
  | ask q next ih =>
    simp only [Program.run, Option.bind_eq_bind, Option.bind_eq_some_iff, Prod.exists, Option.pure_def,
      Option.some.injEq, Prod.mk.injEq] at h
    obtain ⟨s', answer, hstep, u', ops', v', hrun, rfl, rfl, rfl⟩ := h
    have hstep := step_of_eq_some hstep
    obtain ⟨hstack, hrest⟩ := ih answer hrun
    have hsame := hstep.stack_ask
    exact ⟨hstack.trans hsame, .cons (List.suffix_refl _) hstep (hsame ▸ hrest)⟩
  | read k t pinned init next ihinit ihnext =>
    simp only [Program.run, Option.bind_eq_bind, Option.bind_eq_some_iff, Prod.exists] at h
    obtain ⟨s', answer, hstep, h⟩ := h
    have hstep := step_of_eq_some hstep
    have hsuffix : s.stack <:+ s.stack := List.suffix_refl _
    cases hstep with
    | found hkept =>
      simp only [Option.bind_eq_some_iff, Prod.exists, Option.pure_def, Option.some.injEq, Prod.mk.injEq] at h
      obtain ⟨u', ops', v', hrun, rfl, rfl, rfl⟩ := h
      obtain ⟨hstack, hrest⟩ := ihnext _ hrun
      exact ⟨hstack, .cons hsuffix (.found hkept) hrest⟩
    | start hidle hnone =>
      simp only [Option.bind_eq_some_iff, Prod.exists, Option.pure_def, Option.some.injEq, Prod.mk.injEq] at h
      obtain ⟨a, during, w, hinit, b, answer, hgive, u', ops', v', hrun, rfl, rfl, rfl⟩ := h
      obtain ⟨hstack, hduring⟩ := ihinit hinit
      have hgive := step_of_eq_some hgive
      obtain ⟨c, hc⟩ := hgive.stack_give
      have hb : b.stack = s.stack := (List.cons.inj (hc.symm.trans hstack)).2
      obtain ⟨hstack', hrest⟩ := ihnext _ hrun
      have hbase : s.stack <:+ a.stack := by rw [hstack]; exact List.suffix_cons _ _
      have hpath := (hduring.mono (List.suffix_cons _ _)).append (.cons hbase hgive (hb ▸ hrest))
      exact ⟨hstack'.trans hb, by simpa using Path.cons hsuffix (.start hidle hnone) hpath⟩

/-! ## What lasts -/

section Lasting

variable {k : κ} {serial : Nat} {x : Made ν}

theorem slot_of_slot? {m : Memo κ ν} {sl : Slot ν} (h : m.slot? k = some sl) : (m.slot k).2 = sl := by
  rw [Memo.slot, h]

/-- A slot that was dropped does not come back. -/
def Gone (serial : Nat) (s : Nest κ ν τ) : Prop :=
  serial < s.memo.next ∧ ∀ k sl, s.memo.slot? k = some sl → sl.serial ≠ serial

theorem Step.gone (hstep : Step kind s op answer s') (hsound : s.Sound) (h : s.Gone serial) : s'.Gone serial := by
  obtain ⟨hlt, hgone⟩ := h
  have hopened (k : κ) : (s.memo.slot k).2.serial ≠ serial := by
    rcases slot_snd s.memo k with hs | ⟨-, hs⟩
    · exact hgone k _ hs
    · rw [hs]
      exact Nat.ne_of_gt hlt
  refine ⟨Nat.lt_of_lt_of_le hlt hstep.next_le, fun k sl hs => ?_⟩
  cases hstep.change hsound k with
  | same h => exact hgone k sl (h ▸ hs)
  | removed _ h => cases h.symm.trans hs
  | put _ h | started _ _ h =>
    cases h.symm.trans hs
    exact hopened k
  | ended _ hold _ h hsame _ =>
    cases h.symm.trans hs
    exact hsame ▸ hgone k _ hold

/-- The slot that is being computed goes with the entry of its key. -/
theorem Step.gone_of_removes (hstep : Step kind s op answer s') (hsound : s.Sound) {c : Computation κ τ}
    (hc : c ∈ s.stack) (hop : op.Removes c.key) : s'.Gone c.serial := by
  refine ⟨Nat.lt_of_lt_of_le (hsound.opened c hc) hstep.next_le, fun k sl hs heq => ?_⟩
  cases hstep with
  | look hq _ => exact Op.not_removes_of_looks hq _ hop
  | found _ | put _ | start _ _ | give _ _ | fail _ => exact hop.elim
  | erase =>
    obtain rfl : _ = c.key := hop
    have hslot : s.memo.slot? k = some sl ∧ k ≠ c.key := by
      have hslot := (slot?_erase hsound.keyed).symm.trans hs
      split at hslot
      · cases hslot
      · next hne => exact ⟨hslot, hne⟩
    exact hslot.2 (hsound.owned c hc k sl hslot.1 heq)
  | clear =>
    obtain ⟨hold, hout⟩ := Option.filter_eq_some_iff.mp ((slot?_clear hsound.keyed).symm.trans hs)
    have hbusy : sl.busy = true := (hsound.busy k sl hold).mpr ⟨c, hc, heq.symm⟩
    simp [outlives, hbusy] at hout

/-- The slot of a key is still there. -/
def Present (k : κ) (serial : Nat) (s : Nest κ ν τ) : Prop := ∃ sl, s.memo.slot? k = some sl ∧ sl.serial = serial

theorem Step.present (hstep : Step kind s op answer s') (hsound : s.Sound) (hop : ¬ op.Removes k)
    (h : s.Present k serial) : s'.Present k serial := by
  obtain ⟨sl, hs, rfl⟩ := h
  cases hstep.change hsound k with
  | same h => exact ⟨sl, h.trans hs, rfl⟩
  | removed hremoves _ => exact absurd hremoves hop
  | put _ h | started _ _ h => exact ⟨_, h, by rw [slot_of_slot? hs]⟩
  | ended _ hold _ h hsame _ =>
    cases hold.symm.trans hs
    exact ⟨_, h, hsame⟩

/-- If a key has a slot, then one of certain numbers. -/
def AtMost (k : κ) (serials : Set Nat) (s : Nest κ ν τ) : Prop :=
  ∀ sl, s.memo.slot? k = some sl → sl.serial ∈ serials

/-- A key gets no other slot, unless its entry is opened. -/
theorem Step.atMost (hstep : Step kind s op answer s') (hsound : s.Sound) (hop : ¬ op.Opens k) {serials : Set Nat}
    (h : s.AtMost k serials) : s'.AtMost k serials := by
  intro sl hs
  cases hstep.change hsound k with
  | same hsame => exact h sl (hsame ▸ hs)
  | removed _ hnone => cases hnone.symm.trans hs
  | put hput _ => exact absurd (hput ▸ rfl) hop
  | started hread _ _ => exact absurd (hread ▸ rfl) hop
  | ended _ hold _ hnew hsame _ =>
    cases hnew.symm.trans hs
    exact hsame ▸ h _ hold

/-- Nothing that is kept is the value. -/
def Unseen (x : Made ν) (s : Nest κ ν τ) : Prop :=
  x.nth < s.made ∧ ∀ k sl, s.memo.slot? k = some sl → sl.value ≠ some x

theorem Step.unseen (hstep : Step kind s op answer s') (hsound : s.Sound) (h : s.Unseen x) : s'.Unseen x := by
  obtain ⟨hlt, hunseen⟩ := h
  have hopened (k : κ) : (s.memo.slot k).2.value ≠ some x := by
    rcases slot_snd s.memo k with hs | ⟨-, hs⟩
    · exact hunseen k _ hs
    · simp [hs]
  refine ⟨Nat.lt_of_lt_of_le hlt hstep.made_le, fun k sl hs hx => ?_⟩
  cases hstep.change hsound k with
  | same h => exact hunseen k sl (h ▸ hs) hx
  | removed _ h => cases h.symm.trans hs
  | put _ h =>
    cases h.symm.trans hs
    cases hx
    exact Nat.lt_irrefl _ hlt
  | started _ _ h =>
    cases h.symm.trans hs
    exact hopened k hx
  | ended _ hold _ h _ hvalue =>
    cases h.symm.trans hs
    rcases hvalue x hx with hx | heq
    · exact hunseen k _ hold hx
    · exact Nat.ne_of_lt hlt heq

theorem Step.not_shown (hstep : Step kind s op answer s') (hsound : s.Sound) (h : s.Unseen x) : x ∉ answer.shown := by
  obtain ⟨hlt, hunseen⟩ := h
  have hkept (k : κ) : ¬ s.memo.Kept k x := fun hk =>
    have ⟨sl, hs, hx⟩ := (kept_iff hsound.keyed).mp hk
    hunseen k sl hs hx
  have hnew (v : ν) : x ≠ ⟨s.made, v⟩ := fun heq => Nat.ne_of_lt hlt (congrArg Made.nth heq)
  intro hx
  cases hstep with
  | look _ hshown =>
    obtain ⟨k, hk⟩ := hshown x hx
    exact hkept k hk
  | found hk => exact hkept _ (List.mem_singleton.mp hx ▸ hk)
  | put _ | give _ _ => exact hnew _ (List.mem_singleton.mp hx)
  | erase | clear | start _ _ | fail _ => cases hx

/-- A value is kept, and nobody works for another one. -/
def Holds (k : κ) (x : Made ν) (s : Nest κ ν τ) : Prop :=
  ∃ sl, s.memo.slot? k = some sl ∧ sl.value = some x ∧ sl.busy = false

theorem Step.holds (hstep : Step kind s op answer s') (hsound : s.Sound) (hop : ¬ op.Replaces k (kind x.value))
    (h : s.Holds k x) : s'.Holds k x := by
  obtain ⟨sl, hs, hx, hidle⟩ := h
  cases hstep.change hsound k with
  | same hsame => exact ⟨sl, hsame.trans hs, hx, hidle⟩
  | removed hremoves _ => exact absurd (hremoves.replaces _) hop
  | put hput _ => exact absurd (hput ▸ rfl) hop
  | started hread hnone _ =>
    refine absurd (hread ▸ ⟨rfl, fun heq => ?_⟩) hop
    rw [peek?, hs, Option.bind_some, hx] at hnone
    simp [heq] at hnone
  | ended hc hold hserial _ _ _ =>
    cases hold.symm.trans hs
    rw [(hsound.busy k sl hs).mpr ⟨_, hc, hserial.symm⟩] at hidle
    cases hidle

end Lasting

/-! ## Computations -/

variable (kind)

/-- Whatever comes, no answer hands out a value. -/
def Forgets (s : Nest κ ν τ) (x : Made ν) : Prop :=
  ∀ later u, s.follow kind later = some u → ∀ op u' answer, u.step kind op = some (u', answer) → x ∉ answer.shown

/-- A key is computed when it is read, whatever comes before that does not open its entry. -/
def Lacks (s : Nest κ ν τ) (k : κ) : Prop :=
  ∀ later u, s.follow kind later = some u → (∀ op ∈ later, ¬ op.Opens k) →
    ∀ t pinned, ∃ u', u.step kind (.read k t pinned) = some (u', .computing)

/-- Whoever reads a key or peeks at it, at the kind of a value, gets that value, until it is replaced. -/
def Serves (s : Nest κ ν τ) (k : κ) (x : Made ν) : Prop :=
  ∀ later u, s.follow kind later = some u → (∀ op ∈ later, ¬ op.Replaces k (kind x.value)) →
    (∀ pinned, u.step kind (.read k (kind x.value) pinned) = some (u, .value x)) ∧
      u.step kind (.ask (.peek k (kind x.value))) = some (u, .peeked (some x))

variable {kind} {k : κ} {x : Made ν}

theorem Unseen.forgets (h : s.Unseen x) (hsound : s.Sound) : s.Forgets kind x := by
  intro later u hrun op u' answer hstep
  have hpath := path_of_follow hrun
  have hunseen : u.Unseen x :=
    hpath.keeps (Q := fun _ => True) (fun hstep hsound _ h => hstep.unseen hsound h) hsound
      (fun _ _ => trivial) h
  exact (step_of_eq_some hstep).not_shown (hpath.sound hsound) hunseen

theorem lacks_of_slot? (h : s.memo.slot? k = none) (hsound : s.Sound) : s.Lacks kind k := by
  intro later u hrun hops t pinned
  have hnone : u.memo.slot? k = none := Option.eq_none_iff_forall_ne_some.mpr <|
    (path_of_follow hrun).keeps (P := AtMost k ∅) (fun hstep hsound hop h => hstep.atMost hsound hop h) hsound hops
      fun sl hs => by cases h.symm.trans hs
  have hidle : u.memo.isBusy k = false := by simp [isBusy, hnone]
  have hpeek : u.memo.peek? k (fun x => decide (kind x.value = t)) = none := by simp [peek?, hnone]
  exact ⟨_, by rw [step, if_neg (by simp [hidle]), start_of_peek?_eq_none hpeek]⟩

theorem Holds.serves (h : s.Holds k x) (hsound : s.Sound) : s.Serves kind k x := by
  intro later u hrun hops
  obtain ⟨sl, hs, hx, hidle⟩ : u.Holds k x :=
    (path_of_follow hrun).keeps (fun hstep hsound hop h => hstep.holds hsound hop h) hsound hops h
  have hidle : u.memo.isBusy k = false := by simp [isBusy, hs, hidle]
  have hpeek : u.memo.peek? k (fun y => decide (kind y.value = kind x.value)) = some x := by simp [peek?, hs, hx]
  constructor
  · intro pinned
    rw [step, if_neg (by simp [hidle]), start_of_peek? hpeek]
  · rw [step, query, if_neg (by simp [hidle]), hpeek]

omit [DecidableEq τ] in
theorem finish_of_gone {serial : Nat} (h : s.Gone serial) (hsound : s.Sound) (x : Made ν) (pinned : Bool) :
    s.memo.finish serial x pinned = s.memo := by
  have hsame : ∀ e ∈ s.memo.entries, e.2.serial ≠ serial :=
    fun e he => h.2 e.1 e.2 ((slot?_eq_some_iff hsound.keyed).mpr he)
  rw [finish, Memo.modify, List.map_congr_left fun e he => if_neg (hsame e he), List.map_id']

/-- If the entry of a key goes while its value is computed, so does the slot that the computation was started for. -/
theorem Path.gone (hrun : Path kind base s ops u) (hsound : s.Sound) {c : Computation κ τ} (hc : c ∈ base)
    (hop : op ∈ ops) (hremoves : op.Removes c.key) : u.Gone c.serial := by
  obtain ⟨before, after, rfl⟩ := List.append_of_mem hop
  obtain ⟨a, answer, b, ha, hstep, hb⟩ := hrun.split
  have hgone : b.Gone c.serial := hstep.gone_of_removes (ha.sound hsound) (ha.base_end.mem hc) hremoves
  exact hb.keeps (Q := fun _ => True) (fun hstep hsound _ h => hstep.gone hsound h)
    (hstep.sound (ha.sound hsound)) (fun _ _ => trivial) hgone

/-- A value that was put under a key is held from then on. -/
theorem Path.holds_put {before after : List (Op κ ν τ)} {w : ν}
    (hrun : Path kind base s (before ++ .ask (.put k w) :: after) u) (hsound : s.Sound)
    (hafter : ∀ op ∈ after, ¬ op.Replaces k (kind w)) : ∃ y, y.value = w ∧ u.Holds k y := by
  obtain ⟨a, answer, b, ha, hstep, hb⟩ := hrun.split
  have hsounda := ha.sound hsound
  have hput : b.Holds k ⟨a.made, w⟩ := by
    cases hstep with
    | look hq _ => exact hq.elim
    | put hidle =>
      exact ⟨_, (hsounda.slot?_write k k).trans (if_pos rfl), rfl, busy_slot_snd hidle⟩
  exact ⟨⟨a.made, w⟩, rfl,
    hb.keeps (fun hstep hsound hop h => hstep.holds hsound hop h) (hstep.sound hsounda) hafter hput⟩

/-- A read that finds nothing opens an entry, which holds nothing of the kind that was asked for. -/
theorem started {t : τ} {pinned : Bool} (hsound : s.Sound)
    (hread : s.step kind (.read k t pinned) = some (s', .computing)) :
    ∃ serial, s'.stack = ⟨k, t, pinned, serial⟩ :: s.stack ∧ s'.Present k serial := by
  cases step_of_eq_some hread with
  | start hidle hnone =>
    exact ⟨_, rfl, _, (hsound.slot?_write k k).trans (if_pos rfl), rfl⟩

/-- A key is read whose value has to be computed, by a program that may do anything with the memo meanwhile. The
computation changes nothing under other keys. If the entry of the key was removed meanwhile, the computation changes
nothing at all: only its own caller ever sees its value, the key is computed again, and a value that was put there
since stays. If the entry was not removed, readers get the value until it is replaced. -/
theorem computation_undoes_no_removal {s₁ s₂ : Nest κ ν τ} {t : τ} {pinned : Bool} {init : Program κ ν τ}
    {during : List (Op κ ν τ)} {v : ν} (hs : s.Reached kind)
    (hread : s.step kind (.read k t pinned) = some (s₁, .computing))
    (hinit : init.run kind s₁ = some (s₂, during, v)) (hv : kind v = t) :
    ∃ x s₃, x.value = v ∧ s₂.step kind (.give v) = some (s₃, .value x) ∧
      (∀ k', k' ≠ k → s₃.memo.slot? k' = s₂.memo.slot? k') ∧
      ((∃ op ∈ during, op.Removes k) →
        s₃.memo = s₂.memo ∧ s₃.Forgets kind x ∧ ((∀ op ∈ during, ¬ op.Opens k) → s₃.Lacks kind k) ∧
          ∀ before w after, during = before ++ .ask (.put k w) :: after →
            (∀ op ∈ after, ¬ op.Replaces k (kind w)) → ∃ y, y.value = w ∧ y ≠ x ∧ s₃.Serves kind k y) ∧
      ((∀ op ∈ during, ¬ op.Removes k) → s₃.Serves kind k x) := by
  have hsound := hs.sound
  obtain ⟨serial, hstack, hpresent⟩ := started hsound hread
  have hsound₁ := (step_of_eq_some hread).sound hsound
  obtain ⟨hstack₂, hpath⟩ := path_of_run hinit
  rw [hstack] at hstack₂ hpath
  have hsound₂ := hpath.sound hsound₁
  let x : Made ν := ⟨s₂.made, v⟩
  let s₃ : Nest κ ν τ := { memo := s₂.memo.finish serial x pinned, made := s₂.made + 1, stack := s.stack }
  have hgive : s₂.step kind (.give v) = some (s₃, .value x) := by
    rw [step, hstack₂]
    exact if_pos hv
  have hsound₃ : s₃.Sound := (step_of_eq_some hgive).sound hsound₂
  have hslot (k' : κ) : s₃.memo.slot? k' = _ := slot?_modify
  refine ⟨x, s₃, rfl, hgive, fun k' hne => ?_, fun hremoved => ?_, fun hkept => ?_⟩
  · rw [hslot]
    cases hs' : s₂.memo.slot? k' with
    | none => rfl
    | some sl =>
      have hother : sl.serial ≠ serial := fun heq =>
        hne (hsound₂.owned _ (hstack₂ ▸ List.mem_cons_self) k' sl hs' heq)
      rw [Option.map_some, if_neg hother]
  · obtain ⟨op, hop, hremoves⟩ := hremoved
    have hgone : s₂.Gone serial := hpath.gone hsound₁ List.mem_cons_self hop hremoves
    have hsame : s₃.memo = s₂.memo := finish_of_gone hgone hsound₂ x pinned
    have hold {k : κ} {sl : Slot (Made ν)} {y : Made ν} (hs : s₃.memo.slot? k = some sl) (hy : sl.value = some y) :
        y ≠ x := fun heq => Nat.ne_of_lt (hsound₂.made k sl y (hsame ▸ hs) hy) (congrArg Made.nth heq)
    have hunseen : s₃.Unseen x := ⟨Nat.lt_succ_self _, fun k sl hs hx => hold hs hx rfl⟩
    refine ⟨hsame, hunseen.forgets hsound₃, fun hops => ?_, fun before w after heq hafter => ?_⟩
    · refine lacks_of_slot? (Option.eq_none_iff_forall_ne_some.mpr fun sl hs => ?_) hsound₃
      obtain ⟨sl₁, hs₁, hserial₁⟩ := hpresent
      have honly : s₂.AtMost k {serial} :=
        hpath.keeps (fun hstep hsound hop h => hstep.atMost hsound hop h) hsound₁ hops fun sl hs => by
          rwa [Option.some.inj (hs.symm.trans hs₁)]
      rw [hsame] at hs
      exact hgone.2 k sl hs (honly sl hs)
    · subst heq
      obtain ⟨y, hy, sl, hs, hvalue, hidle⟩ := hpath.holds_put hsound₁ hafter
      rw [← hsame] at hs
      exact ⟨y, hy, hold hs hvalue, Holds.serves ⟨sl, hs, hvalue, hidle⟩ hsound₃⟩
  · obtain ⟨sl, hs, hserial⟩ : s₂.Present k serial :=
      hpath.keeps (fun hstep hsound hop h => hstep.present hsound hop h) hsound₁ hkept hpresent
    have hheld : s₃.Holds k x := by
      have hs' := hslot k
      rw [hs, Option.map_some, if_pos hserial] at hs'
      exact ⟨_, hs', rfl, rfl⟩
    exact hheld.serves hsound₃

/-- Key 0 is computed; meanwhile the memo is cleared, and the computation of key 1 puts a value under key 0. -/
theorem computation_undoes_no_removal_crossed :
    let kind : Nat → Bool := fun n => decide (n < 10)
    let inner : Program Nat Nat Bool := .ask (.put 0 5) fun _ => .ask (.peek 0 true) fun _ => .done 60
    let init : Program Nat Nat Bool := .ask .clear fun _ => .read 1 false true inner fun _ => .done 7
    let during : List (Op Nat Nat Bool) :=
      [.ask .clear, .read 1 false true, .ask (.put 0 5), .ask (.peek 0 true), .give 60]
    let s₁ : Nest Nat Nat Bool := { memo := ⟨[(0, { serial := 0, busy := true })], 1⟩, stack := [⟨0, true, true, 0⟩] }
    let s₂ : Nest Nat Nat Bool :=
      { memo := ⟨[(1, { serial := 1, value := some ⟨1, 60⟩, pinned := true }),
          (0, { serial := 2, value := some ⟨0, 5⟩ })], 3⟩
        made := 2
        stack := [⟨0, true, true, 0⟩] }
    ({} : Nest Nat Nat Bool).Reached kind ∧
      ({} : Nest Nat Nat Bool).step kind (.read 0 true true) = some (s₁, .computing) ∧
      init.run kind s₁ = some (s₂, during, 7) ∧ kind 7 = true ∧
      ∃ x s₃, x.value = 7 ∧ s₂.step kind (.give 7) = some (s₃, .value x) ∧ s₃.memo = s₂.memo ∧ s₃.Forgets kind x ∧
        ∃ y, y.value = 5 ∧ y ≠ x ∧ s₃.Serves kind 0 y := by
  intro kind inner init during s₁ s₂
  have hreached : ({} : Nest Nat Nat Bool).Reached kind := ⟨[], rfl⟩
  have hread : ({} : Nest Nat Nat Bool).step kind (.read 0 true true) = some (s₁, .computing) := rfl
  have hinit : init.run kind s₁ = some (s₂, during, 7) := by cbv
  obtain ⟨x, s₃, hx, hgive, -, hremoved, -⟩ := computation_undoes_no_removal hreached hread hinit rfl
  obtain ⟨hsame, hforgets, -, hputs⟩ := hremoved ⟨.ask .clear, List.mem_cons_self, trivial⟩
  have hstays := hputs [.ask .clear, .read 1 false true] 5 [.ask (.peek 0 true), .give 60] rfl (by simp [Op.Replaces])
  exact ⟨hreached, hread, hinit, rfl, x, s₃, hx, hgive, hsame, hforgets, hstays⟩

end EditorAgent.Memo.Nest

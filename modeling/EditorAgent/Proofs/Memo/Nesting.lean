import EditorAgent.Proofs.Memo.Clearing

/-!
# Computations that use their own memo

While the value of a key is computed, the computation may itself call the memo, and so on to any depth. What is done is
a tree; its steps, in the order in which they happen, form a line. Every step keeps the memo and the computations under
way sound: each of them has a slot of its own, which is busy as long as it is in the memo. Main statement:
`Step.change`, which says what a step can do to the slot of a key.
-/

namespace EditorAgent.Memo

/-- A value as it was made once: equal values that were made at different times are told apart. -/
structure Made (ν : Type) where
  /-- How many values were made before. -/
  nth : Nat
  value : ν
deriving DecidableEq, Repr

/-- A computation under way. -/
structure Computation (κ τ : Type) where
  key : κ
  /-- The kind of value that was asked for. -/
  kind : τ
  pinned : Bool
  /-- The slot that it was started for. -/
  serial : Nat
deriving DecidableEq, Repr

/-- A memo in use, with the computations under way, the innermost first. -/
structure Nest (κ ν τ : Type) where
  memo : Memo κ (Made ν) := {}
  /-- How many values have been made. -/
  made : Nat := 0
  stack : List (Computation κ τ) := []

/-- What ends as soon as it is asked for. -/
inductive Query (κ ν τ : Type) where
  | put (k : κ) (v : ν)
  | erase (k : κ)
  | clear
  | peek (k : κ) (t : τ)
  | size
  | values

/-- One step. A `read` that finds nothing starts a computation, which lasts until it gives a value or fails. -/
inductive Op (κ ν τ : Type) where
  | ask (q : Query κ ν τ)
  | read (k : κ) (t : τ) (pinned : Bool)
  | give (v : ν)
  | fail

inductive Answer (ν : Type) where
  | value (x : Made ν)
  /-- The value has to be computed. -/
  | computing
  | done
  | peeked (x : Option (Made ν))
  | size (n : Nat)
  | values (xs : List (Made ν))

/-- The values that an answer hands out. -/
def Answer.shown {ν : Type} : Answer ν → List (Made ν)
  | value x => [x]
  | peeked x => x.toList
  | values xs => xs
  | computing | done | size _ => []

/-- What is done with a memo, by a computation that gives a value in the end. It may depend on all answers. -/
inductive Program (κ ν τ : Type) where
  | done (v : ν)
  | ask (q : Query κ ν τ) (next : Answer ν → Program κ ν τ)
  | read (k : κ) (t : τ) (pinned : Bool) (init : Program κ ν τ) (next : Answer ν → Program κ ν τ)

variable {κ ν τ : Type} [DecidableEq κ]

/-- Whether the value of a key is being computed. Who asks for the slot then waits for the computation. -/
def isBusy (m : Memo κ ν) (k : κ) : Bool := (m.slot? k).any (·.busy)

/-- Nothing is changed. -/
def Query.Looks : Query κ ν τ → Prop
  | peek _ _ | size | values => True
  | put _ _ | erase _ | clear => False

namespace Op

/-- The entry of a key is removed. -/
def Removes (k : κ) : Op κ ν τ → Prop
  | ask (.erase k') => k' = k
  | ask .clear => True
  | _ => False

/-- The entry of a key is made, if it is missing. -/
def Opens (k : κ) : Op κ ν τ → Prop
  | ask (.put k' _) => k' = k
  | read k' _ _ => k' = k
  | _ => False

/-- What is kept under a key as a value of one kind is replaced or removed. -/
def Replaces (k : κ) (t : τ) : Op κ ν τ → Prop
  | ask (.put k' _) => k' = k
  | ask (.erase k') => k' = k
  | ask .clear => True
  | read k' t' _ => k' = k ∧ t' ≠ t
  | _ => False

omit [DecidableEq κ] in
theorem not_removes_of_looks {q : Query κ ν τ} (h : q.Looks) (k : κ) : ¬ (ask q).Removes k := by
  cases q <;> simp_all [Query.Looks, Removes]

omit [DecidableEq κ] in
theorem Removes.replaces {k : κ} {op : Op κ ν τ} (h : op.Removes k) (t : τ) : op.Replaces k t := by
  match op, h with
  | ask (.erase _), h => exact h
  | ask .clear, _ => trivial

end Op

section Running

variable [DecidableEq τ] (kind : ν → τ)

namespace Nest

/-- The answer to a query; none if it waits for a computation that waits for the query. -/
def query (s : Nest κ ν τ) : Query κ ν τ → Option (Nest κ ν τ × Answer ν)
  | .put k v =>
    if s.memo.isBusy k then none
    else some ({ s with memo := s.memo.put k ⟨s.made, v⟩, made := s.made + 1 }, .value ⟨s.made, v⟩)
  | .erase k => some ({ s with memo := s.memo.erase k }, .done)
  | .clear => some ({ s with memo := s.memo.clear.1 }, .done)
  | .peek k t =>
    if s.memo.isBusy k then none
    else some (s, .peeked (s.memo.peek? k fun x => decide (kind x.value = t)))
  | .size => some (s, .size s.memo.size)
  | .values => if s.memo.entries.any (·.2.busy) then none else some (s, .values s.memo.values)

/-- One step, if it is possible. -/
def step (s : Nest κ ν τ) : Op κ ν τ → Option (Nest κ ν τ × Answer ν)
  | .ask q => s.query kind q
  | .read k t pinned =>
    if s.memo.isBusy k then none
    else match s.memo.start k fun x => decide (kind x.value = t) with
      | (m, .found x) => some ({ s with memo := m }, .value x)
      | (m, .missing serial) => some ({ s with memo := m, stack := ⟨k, t, pinned, serial⟩ :: s.stack }, .computing)
  | .give v => match s.stack with
    | [] => none
    | c :: stack =>
      if kind v = c.kind then
        some ({ memo := s.memo.finish c.serial ⟨s.made, v⟩ c.pinned, made := s.made + 1, stack },
          .value ⟨s.made, v⟩)
      else none
  | .fail => match s.stack with
    | [] => none
    | c :: stack => some ({ s with memo := s.memo.fail c.serial, stack }, .done)

/-- One step after another. -/
def follow (s : Nest κ ν τ) (ops : List (Op κ ν τ)) : Option (Nest κ ν τ) :=
  ops.foldlM (fun s op => (s.step kind op).map (·.1)) s

/-- What can become of a memo. -/
def Reached (s : Nest κ ν τ) : Prop := ∃ ops, ({} : Nest κ ν τ).follow kind ops = some s

end Nest

/-- What a program makes of a memo, with its steps and with the value that it gives. -/
def Program.run : Program κ ν τ → Nest κ ν τ → Option (Nest κ ν τ × List (Op κ ν τ) × ν)
  | done v, s => some (s, [], v)
  | ask q next, s => do
    let (s, answer) ← s.step kind (.ask q)
    let (s, ops, v) ← (next answer).run s
    return (s, .ask q :: ops, v)
  | read k t pinned init next, s => do
    let (s, answer) ← s.step kind (.read k t pinned)
    match answer with
    | .computing =>
      let (s, during, v) ← init.run s
      let (s, answer) ← s.step kind (.give v)
      let (s, ops, w) ← (next answer).run s
      return (s, .read k t pinned :: during ++ .give v :: ops, w)
    | answer =>
      let (s, ops, w) ← (next answer).run s
      return (s, .read k t pinned :: ops, w)

end Running

/-! ## Slots -/

theorem isBusy_eq_false {m : Memo κ ν} {k : κ} :
    m.isBusy k = false ↔ ∀ sl, m.slot? k = some sl → sl.busy = false := by
  cases h : m.slot? k <;> simp [isBusy, h]

theorem slot_snd (m : Memo κ ν) (k : κ) :
    m.slot? k = some (m.slot k).2 ∨ m.slot? k = none ∧ (m.slot k).2 = { serial := m.next } := by
  unfold Memo.slot
  split
  · next h => exact .inl h
  · next h => exact .inr ⟨h, rfl⟩

theorem busy_slot_snd {m : Memo κ ν} {k : κ} (hidle : m.isBusy k = false) : (m.slot k).2.busy = false := by
  rcases slot_snd m k with hs | ⟨-, hs⟩
  · exact isBusy_eq_false.mp hidle _ hs
  · rw [hs]

/-- A value that is wanted is found without a change. -/
theorem start_of_peek? {m : Memo κ ν} {k : κ} {wanted : ν → Bool} {x : ν} (h : m.peek? k wanted = some x) :
    m.start k wanted = (m, .found x) := by
  cases hs : m.slot? k with
  | none => simp [peek?, hs] at h
  | some sl =>
    have hslot : m.slot k = (m, sl) := by rw [Memo.slot, hs]
    rw [start_eq, hslot]
    rw [peek?, hs, Option.bind_some] at h
    simp only [h]

theorem start_of_peek?_eq_none {m : Memo κ ν} {k : κ} {wanted : ν → Bool} (h : m.peek? k wanted = none) :
    m.start k wanted = ((m.slot k).1.modify (m.slot k).2.serial fun s => { s with busy := true },
      .missing (m.slot k).2.serial) := by
  have hnone : (m.slot k).2.value.filter wanted = none := by
    rcases slot_snd m k with hs | ⟨-, hs⟩
    · rw [peek?, hs] at h
      exact h
    · rw [hs]
      rfl
  rw [start_eq, hnone]

namespace Nest

variable {s s' : Nest κ ν τ}

/-- The computations under way have slots of their own, which are the busy ones as far as they are still there. -/
structure Sound (s : Nest κ ν τ) : Prop where
  numbered : s.memo.Numbered
  keyed : s.memo.Keyed
  opened : ∀ c ∈ s.stack, c.serial < s.memo.next
  apart : (s.stack.map (·.serial)).Nodup
  owned : ∀ c ∈ s.stack, ∀ k sl, s.memo.slot? k = some sl → sl.serial = c.serial → k = c.key
  busy : ∀ k sl, s.memo.slot? k = some sl → (sl.busy = true ↔ ∃ c ∈ s.stack, c.serial = sl.serial)
  made : ∀ k sl x, s.memo.slot? k = some sl → sl.value = some x → x.nth < s.made

theorem sound_empty : ({} : Nest κ ν τ).Sound where
  numbered := numbered_empty
  keyed := List.nodup_nil
  opened c hc := by cases hc
  apart := List.nodup_nil
  owned c hc := by cases hc
  busy k sl hs := by cases hs
  made k sl x hs := by cases hs

/-- Nobody works for a slot that is about to be opened. -/
theorem Sound.serial_ne (h : s.Sound) {k : κ} (hidle : s.memo.isBusy k = false) {c : Computation κ τ}
    (hc : c ∈ s.stack) : c.serial ≠ (s.memo.slot k).2.serial := by
  intro heq
  rcases slot_snd s.memo k with hs | ⟨-, hs⟩
  · have hbusy := (h.busy k _ hs).mpr ⟨c, hc, heq⟩
    rw [isBusy_eq_false.mp hidle _ hs] at hbusy
    cases hbusy
  · rw [hs] at heq
    exact absurd (h.opened c hc) (heq ▸ Nat.lt_irrefl _)

/-- A slot that was written, or opened and written. -/
theorem Sound.slot?_write (h : s.Sound) {f : Slot (Made ν) → Slot (Made ν)} (k k' : κ) :
    ((s.memo.slot k).1.modify (s.memo.slot k).2.serial f).slot? k' =
      if k' = k then some (f (s.memo.slot k).2) else s.memo.slot? k' :=
  slot?_modify_slot h.numbered h.keyed k'

/-- Other keys have other slots than the one that is opened. -/
theorem Sound.serial_ne_of_ne (h : s.Sound) {k k' : κ} (hne : k' ≠ k) {sl : Slot (Made ν)}
    (hs : s.memo.slot? k' = some sl) : sl.serial ≠ (s.memo.slot k).2.serial := by
  intro heq
  have hmem : (k', sl) ∈ (s.memo.slot k).1.entries :=
    (slot?_eq_some_iff h.keyed.slot).mp (by rw [slot?_slot, if_neg hne, hs])
  exact hne (congrArg Prod.fst (h.numbered.slot.eq_of_serial hmem mem_slot heq))

theorem Sound.put (h : s.Sound) {k : κ} {v : ν} (hidle : s.memo.isBusy k = false) :
    Sound { s with memo := s.memo.put k ⟨s.made, v⟩, made := s.made + 1 } where
  numbered := h.numbered.put _
  keyed := h.keyed.slot.modify
  opened c hc := Nat.lt_of_lt_of_le (h.opened c hc) (grows_put _).next_le
  apart := h.apart
  owned c hc k' sl hs hserial := by
    rw [put_eq, h.slot?_write] at hs
    split at hs
    · cases hs
      exact absurd hserial.symm (h.serial_ne hidle hc)
    · exact h.owned c hc k' sl hs hserial
  busy k' sl hs := by
    rw [put_eq, h.slot?_write] at hs
    split at hs
    · cases hs
      have hno : ¬ ∃ c ∈ s.stack, c.serial = (s.memo.slot k).2.serial := by
        rintro ⟨c, hc, heq⟩
        exact h.serial_ne hidle hc heq
      exact iff_of_false (Bool.eq_false_iff.mp (busy_slot_snd hidle)) hno
    · exact h.busy k' sl hs
  made k' sl x hs hx := by
    rw [put_eq, h.slot?_write] at hs
    split at hs
    · cases hs
      cases hx
      exact Nat.lt_succ_self _
    · exact Nat.lt_succ_of_lt (h.made k' sl x hs hx)

theorem Sound.start (h : s.Sound) {k : κ} {t : τ} {pinned : Bool} (hidle : s.memo.isBusy k = false) :
    Sound { s with
      memo := (s.memo.slot k).1.modify (s.memo.slot k).2.serial fun sl => { sl with busy := true }
      stack := ⟨k, t, pinned, (s.memo.slot k).2.serial⟩ :: s.stack } where
  numbered := h.numbered.slot.modify (f := fun sl => { sl with busy := true }) fun _ => rfl
  keyed := h.keyed.slot.modify
  opened c hc := by
    rcases List.mem_cons.mp hc with rfl | hc
    · exact h.numbered.slot.lt _ mem_slot
    · exact Nat.lt_of_lt_of_le (h.opened c hc) grows_slot.next_le
  apart := by
    refine List.nodup_cons.mpr ⟨fun hmem => ?_, h.apart⟩
    obtain ⟨c, hc, heq⟩ := List.mem_map.mp hmem
    exact h.serial_ne hidle hc heq
  owned c hc k' sl hs hserial := by
    rw [h.slot?_write] at hs
    rcases List.mem_cons.mp hc with rfl | hc
    · by_contra hne
      rw [if_neg hne] at hs
      exact h.serial_ne_of_ne hne hs hserial
    · split at hs
      · cases hs
        exact absurd hserial.symm (h.serial_ne hidle hc)
      · exact h.owned c hc k' sl hs hserial
  busy k' sl hs := by
    rw [h.slot?_write] at hs
    split at hs
    · cases hs
      exact iff_of_true rfl ⟨_, List.mem_cons_self, rfl⟩
    · next hne =>
      rw [h.busy k' sl hs]
      constructor
      · rintro ⟨c, hc, heq⟩
        exact ⟨c, List.mem_cons_of_mem _ hc, heq⟩
      · rintro ⟨c, hc, heq⟩
        rcases List.mem_cons.mp hc with rfl | hc
        · exact absurd heq.symm (h.serial_ne_of_ne hne hs)
        · exact ⟨c, hc, heq⟩
  made k' sl x hs hx := by
    rw [h.slot?_write] at hs
    split at hs
    · cases hs
      rcases slot_snd s.memo k with hs | ⟨-, hs⟩
      · exact h.made k _ x hs hx
      · simp [hs] at hx
    · exact h.made k' sl x hs hx

/-- Some entries were dropped. -/
theorem Sound.filter (h : s.Sound) (p : κ × Slot (Made ν) → Bool) :
    Sound { s with memo := { s.memo with entries := s.memo.entries.filter p } } := by
  have hold {k : κ} {sl : Slot (Made ν)}
      (hs : slot? { s.memo with entries := s.memo.entries.filter p } k = some sl) : s.memo.slot? k = some sl :=
    (slot?_eq_some_iff h.keyed).mpr (List.mem_of_mem_filter ((slot?_eq_some_iff h.keyed.of_filter).mp hs))
  exact {
    numbered := h.numbered.of_filter
    keyed := h.keyed.of_filter
    opened := h.opened
    apart := h.apart
    owned := fun c hc k sl hs => h.owned c hc k sl (hold hs)
    busy := fun k sl hs => h.busy k sl (hold hs)
    made := fun k sl x hs => h.made k sl x (hold hs) }

/-- The innermost computation has ended. -/
theorem Sound.stop (h : s.Sound) {c : Computation κ τ} {stack : List (Computation κ τ)} (hstack : s.stack = c :: stack)
    {f : Slot (Made ν) → Slot (Made ν)} {made : Nat} (hserial : ∀ sl, (f sl).serial = sl.serial)
    (hbusy : ∀ sl, (f sl).busy = false) (hmade : s.made ≤ made)
    (hvalue : ∀ sl x, (f sl).value = some x → sl.value = some x ∨ x.nth < made) :
    Sound { memo := s.memo.modify c.serial f, made, stack } := by
  have hapart := h.apart
  rw [hstack] at hapart
  obtain ⟨hnew, hrest⟩ := List.nodup_cons.mp hapart
  have hmem {c' : Computation κ τ} (hc : c' ∈ stack) : c' ∈ s.stack := hstack ▸ List.mem_cons_of_mem c hc
  have hne {c' : Computation κ τ} (hc : c' ∈ stack) : c'.serial ≠ c.serial :=
    fun heq => hnew (List.mem_map.mpr ⟨c', hc, heq⟩)
  have hold {k : κ} {sl' : Slot (Made ν)} (hs : (s.memo.modify c.serial f).slot? k = some sl') :
      ∃ sl, s.memo.slot? k = some sl ∧ sl'.serial = sl.serial ∧
        sl' = if sl.serial = c.serial then f sl else sl := by
    rw [slot?_modify] at hs
    obtain ⟨sl, hsl, rfl⟩ := Option.map_eq_some_iff.mp hs
    refine ⟨sl, hsl, ?_, rfl⟩
    split
    · exact hserial sl
    · rfl
  constructor
  · exact h.numbered.modify hserial
  · exact h.keyed.modify
  · exact fun c' hc => h.opened c' (hmem hc)
  · exact hrest
  · intro c' hc k sl' hs heq
    obtain ⟨sl, hsl, hsame, -⟩ := hold hs
    exact h.owned c' (hmem hc) k sl hsl (hsame ▸ heq)
  · intro k sl' hs
    obtain ⟨sl, hsl, hsame, rfl⟩ := hold hs
    rw [hsame]
    split
    · next heq => exact iff_of_false (by simp [hbusy]) fun ⟨c', hc, heq'⟩ => hne hc (heq'.trans heq)
    · next hother =>
      rw [h.busy k sl hsl]
      refine ⟨fun ⟨c', hc, heq⟩ => ?_, fun ⟨c', hc, heq⟩ => ⟨c', hmem hc, heq⟩⟩
      rcases List.mem_cons.mp (hstack ▸ hc) with rfl | hc
      · exact absurd heq.symm hother
      · exact ⟨c', hc, heq⟩
  · intro k sl' x hs hx
    obtain ⟨sl, hsl, -, rfl⟩ := hold hs
    split at hx
    · rcases hvalue sl x hx with hx | hlt
      · exact Nat.lt_of_lt_of_le (h.made k sl x hsl hx) hmade
      · exact hlt
    · exact Nat.lt_of_lt_of_le (h.made k sl x hsl hx) hmade

/-! ## Steps -/

variable [DecidableEq τ] {kind : ν → τ} {op : Op κ ν τ} {answer : Answer ν}

/-- Everything that a step can do. -/
inductive Step (kind : ν → τ) (s : Nest κ ν τ) : Op κ ν τ → Answer ν → Nest κ ν τ → Prop
  /-- What is shown is kept. -/
  | look {q : Query κ ν τ} {answer : Answer ν} (hq : q.Looks) (hshown : ∀ x ∈ answer.shown, ∃ k, s.memo.Kept k x) :
    Step kind s (.ask q) answer s
  | found {k : κ} {t : τ} {pinned : Bool} {x : Made ν} (hkept : s.memo.Kept k x) :
    Step kind s (.read k t pinned) (.value x) s
  | put {k : κ} {v : ν} (hidle : s.memo.isBusy k = false) :
    Step kind s (.ask (.put k v)) (.value ⟨s.made, v⟩)
      { s with memo := s.memo.put k ⟨s.made, v⟩, made := s.made + 1 }
  | erase {k : κ} : Step kind s (.ask (.erase k)) .done { s with memo := s.memo.erase k }
  | clear : Step kind s (.ask .clear) .done { s with memo := s.memo.clear.1 }
  | start {k : κ} {t : τ} {pinned : Bool} (hidle : s.memo.isBusy k = false)
      (hnone : s.memo.peek? k (fun x => decide (kind x.value = t)) = none) :
    Step kind s (.read k t pinned) .computing
      { s with
        memo := (s.memo.slot k).1.modify (s.memo.slot k).2.serial fun sl => { sl with busy := true }
        stack := ⟨k, t, pinned, (s.memo.slot k).2.serial⟩ :: s.stack }
  | give {v : ν} {c : Computation κ τ} {stack : List (Computation κ τ)} (hstack : s.stack = c :: stack)
      (hkind : kind v = c.kind) :
    Step kind s (.give v) (.value ⟨s.made, v⟩)
      { memo := s.memo.finish c.serial ⟨s.made, v⟩ c.pinned, made := s.made + 1, stack }
  | fail {c : Computation κ τ} {stack : List (Computation κ τ)} (hstack : s.stack = c :: stack) :
    Step kind s .fail .done { s with memo := s.memo.fail c.serial, stack }

theorem step_of_query {q : Query κ ν τ} (h : s.query kind q = some (s', answer)) :
    Step kind s (.ask q) answer s' := by
  cases q with
  | put k v =>
    obtain ⟨hidle, h⟩ := Option.ite_none_left_eq_some.mp h
    cases h
    exact .put (by simpa using hidle)
  | erase k => cases h; exact .erase
  | clear => cases h; exact .clear
  | peek k t =>
    obtain ⟨-, h⟩ := Option.ite_none_left_eq_some.mp h
    cases h
    exact .look trivial fun x hx => ⟨k, kept_of_peek? (Option.mem_toList.mp hx)⟩
  | size => cases h; exact .look trivial fun x hx => by cases hx
  | values =>
    obtain ⟨-, h⟩ := Option.ite_none_left_eq_some.mp h
    cases h
    refine .look trivial fun x hx => ?_
    obtain ⟨e, he, hv⟩ := List.mem_filterMap.mp hx
    exact ⟨e.1, e, he, rfl, hv⟩

theorem step_of_eq_some (h : s.step kind op = some (s', answer)) : Step kind s op answer s' := by
  cases op with
  | ask q => exact step_of_query h
  | read k t pinned =>
    obtain ⟨hidle, h⟩ := Option.ite_none_left_eq_some.mp h
    cases hpeek : s.memo.peek? k fun x => decide (kind x.value = t) with
    | some x =>
      rw [start_of_peek? hpeek] at h
      cases h
      exact .found (kept_of_peek? hpeek)
    | none =>
      rw [start_of_peek?_eq_none hpeek] at h
      cases h
      exact .start (by simpa using hidle) hpeek
  | give v =>
    rw [step] at h
    split at h
    · cases h
    · next c stack hstack =>
      obtain ⟨hkind, h⟩ := Option.ite_none_right_eq_some.mp h
      cases h
      exact .give hstack hkind
  | fail =>
    rw [step] at h
    split at h
    · cases h
    · next c stack hstack =>
      cases h
      exact .fail hstack

theorem Step.sound (hstep : Step kind s op answer s') (h : s.Sound) : s'.Sound := by
  cases hstep with
  | look _ _ | found _ => exact h
  | put hidle => exact h.put hidle
  | erase => exact h.filter _
  | clear => exact h.filter _
  | start hidle _ => exact h.start hidle
  | give hstack _ =>
    refine h.stop hstack (fun _ => rfl) (fun _ => rfl) (Nat.le_succ _) fun sl x hx => .inr ?_
    cases hx
    exact Nat.lt_succ_self _
  | fail hstack => exact h.stop hstack (fun _ => rfl) (fun _ => rfl) (Nat.le_refl _) fun _ _ hx => .inl hx

/-- The slot of a key before a step and after it. -/
inductive Change (kind : ν → τ) (s : Nest κ ν τ) (op : Op κ ν τ) (s' : Nest κ ν τ) (k : κ) : Prop
  | same (h : s'.memo.slot? k = s.memo.slot? k)
  | removed (hop : op.Removes k) (h : s'.memo.slot? k = none)
  | put {v : ν} (hop : op = .ask (.put k v))
      (h : s'.memo.slot? k = some { (s.memo.slot k).2 with value := some ⟨s.made, v⟩, pinned := false })
  | started {t : τ} {pinned : Bool} (hop : op = .read k t pinned)
      (hnone : s.memo.peek? k (fun x => decide (kind x.value = t)) = none)
      (h : s'.memo.slot? k = some { (s.memo.slot k).2 with busy := true })
  /-- The computation for the slot has ended. -/
  | ended {c : Computation κ τ} {sl sl' : Slot (Made ν)} (hc : c ∈ s.stack) (hs : s.memo.slot? k = some sl)
      (hserial : sl.serial = c.serial) (hs' : s'.memo.slot? k = some sl') (hsame : sl'.serial = sl.serial)
      (hvalue : ∀ x, sl'.value = some x → sl.value = some x ∨ x.nth = s.made)

omit [DecidableEq τ] in
theorem Sound.change_write (h : s.Sound) {k : κ} {f : Slot (Made ν) → Slot (Made ν)} {memo : Memo κ (Made ν)}
    (hmemo : memo = (s.memo.slot k).1.modify (s.memo.slot k).2.serial f) (k' : κ) :
    memo.slot? k' = s.memo.slot? k' ∨ k' = k ∧ memo.slot? k' = some (f (s.memo.slot k).2) := by
  rw [hmemo, h.slot?_write]
  split
  · next heq => exact .inr ⟨heq, rfl⟩
  · exact .inl rfl

theorem change_stop {c : Computation κ τ} {stack : List (Computation κ τ)} (hstack : s.stack = c :: stack)
    {f : Slot (Made ν) → Slot (Made ν)} (hserial : ∀ sl, (f sl).serial = sl.serial)
    (hvalue : ∀ sl x, (f sl).value = some x → sl.value = some x ∨ x.nth = s.made)
    (hmemo : s'.memo = s.memo.modify c.serial f) (k : κ) : Change kind s op s' k := by
  have hslot : s'.memo.slot? k = (s.memo.slot? k).map fun sl => if sl.serial = c.serial then f sl else sl := by
    rw [hmemo, slot?_modify]
  cases hs : s.memo.slot? k with
  | none => exact .same (by rw [hslot, hs]; rfl)
  | some sl =>
    rw [hs, Option.map_some] at hslot
    by_cases heq : sl.serial = c.serial
    · rw [if_pos heq] at hslot
      exact .ended (hstack ▸ List.mem_cons_self) hs heq hslot (hserial sl) (hvalue sl)
    · exact .same (by rw [hslot, if_neg heq, hs])

theorem Step.change (hstep : Step kind s op answer s') (h : s.Sound) (k : κ) : Change kind s op s' k := by
  cases hstep with
  | look _ _ | found _ => exact .same rfl
  | @put k' v _ =>
    rcases h.change_write (put_eq s.memo k' ⟨s.made, v⟩) k with hsame | ⟨rfl, hput⟩
    · exact .same hsame
    · exact .put rfl hput
  | @erase k' =>
    have hslot : (s.memo.erase k').slot? k = _ := slot?_erase h.keyed
    split at hslot
    · next heq => exact .removed heq.symm hslot
    · exact .same hslot
  | clear =>
    have hslot : s.memo.clear.1.slot? k = _ := slot?_clear h.keyed
    cases hs : s.memo.slot? k with
    | none => exact .same (by rw [hslot, hs]; rfl)
    | some sl =>
      rw [hs, Option.filter_some] at hslot
      split at hslot
      · exact .same (hslot.trans hs.symm)
      · exact .removed trivial hslot
  | @start k' t pinned _ hnone =>
    rcases h.change_write (k := k') (f := fun sl => { sl with busy := true }) rfl k with hsame | ⟨rfl, hstart⟩
    · exact .same hsame
    · exact .started rfl hnone hstart
  | @give v c stack hstack _ =>
    refine change_stop hstack
      (f := fun sl => { sl with value := some ⟨s.made, v⟩, pinned := c.pinned, busy := false }) (fun _ => rfl)
      (fun sl x hx => .inr ?_) rfl k
    cases hx
    rfl
  | fail hstack =>
    exact change_stop hstack (f := fun sl => { sl with busy := false, broken := true }) (fun _ => rfl)
      (fun _ _ hx => .inl hx) rfl k

theorem Step.next_le (hstep : Step kind s op answer s') : s.memo.next ≤ s'.memo.next := by
  cases hstep with
  | put _ => exact (grows_put _).next_le
  | start _ _ => exact (grows_slot (m := s.memo)).next_le
  | _ => exact Nat.le_refl _

theorem Step.made_le (hstep : Step kind s op answer s') : s.made ≤ s'.made := by
  cases hstep with
  | put _ | give _ _ => exact Nat.le_succ _
  | _ => exact Nat.le_refl _

end Nest

end EditorAgent.Memo

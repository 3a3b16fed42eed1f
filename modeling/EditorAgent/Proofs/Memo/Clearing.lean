import EditorAgent.Proofs.Memo.Slots

/-!
# What a clear leaves

A memo is called time after time, and a computation that it asks for may fail. A clear leaves the entries whose last
store was pinned, as far as no computation has failed in them: a failure spoils an entry, whatever it holds, until the
next clear or the next erasure drops it.
-/

namespace EditorAgent.Memo

variable {κ ν : Type} [DecidableEq κ]

/-! ## Slots by key -/

section Lookup

variable {m : Memo κ ν} {k k' : κ} {s : Slot ν} {serial : Nat} {f : Slot ν → Slot ν}

/-- No two entries have one key. -/
def Keyed (m : Memo κ ν) : Prop := (m.entries.map (·.1)).Nodup

theorem slot?_eq_some_iff (h : m.Keyed) : m.slot? k = some s ↔ (k, s) ∈ m.entries := by
  constructor
  · intro hs
    obtain ⟨e, he, rfl⟩ := Option.map_eq_some_iff.mp hs
    obtain rfl : e.1 = k := by simpa using List.find?_some he
    exact List.mem_of_find?_eq_some he
  · intro hmem
    have hfound : (m.entries.find? (·.1 = k)).isSome := List.find?_isSome.mpr ⟨(k, s), hmem, by simp⟩
    obtain ⟨e, he⟩ := Option.isSome_iff_exists.mp hfound
    have hk : e.1 = k := by simpa using List.find?_some he
    obtain rfl : e = (k, s) := List.inj_on_of_nodup_map h (List.mem_of_find?_eq_some he) hmem hk
    rw [slot?, he, Option.map_some]

theorem kept_iff (h : m.Keyed) {v : ν} : m.Kept k v ↔ ∃ s, m.slot? k = some s ∧ s.value = some v := by
  simp only [slot?_eq_some_iff h]
  constructor
  · rintro ⟨e, he, rfl, hv⟩
    exact ⟨e.2, he, hv⟩
  · rintro ⟨s, hs, hv⟩
    exact ⟨(k, s), hs, rfl, hv⟩

omit [DecidableEq κ] in
theorem Keyed.modify (h : m.Keyed) : (m.modify serial f).Keyed := by
  have hkeys : (m.modify serial f).entries.map (·.1) = m.entries.map (·.1) := by
    rw [Memo.modify, List.map_map]
    exact List.map_congr_left fun e _ => by simp only [Function.comp_apply]; split <;> rfl
  rwa [Keyed, hkeys]

theorem Keyed.slot (h : m.Keyed) : (m.slot k).1.Keyed := by
  unfold Memo.slot
  split
  · exact h
  · next hnone =>
    have hnew : k ∉ m.entries.map (·.1) := by
      intro hmem
      obtain ⟨e, he, rfl⟩ := List.mem_map.mp hmem
      cases hnone.symm.trans ((slot?_eq_some_iff h).mpr he)
    simpa [Keyed, List.nodup_append] using ⟨h, fun k' s hs heq => hnew (heq ▸ List.mem_map_of_mem hs)⟩

theorem slot?_modify : (m.modify serial f).slot? k = (m.slot? k).map fun s => if s.serial = serial then f s else s := by
  rw [slot?, slot?, Memo.modify, List.find?_map, Option.map_map, Option.map_map]
  have hkey : (fun e : κ × Slot ν => decide (e.1 = k)) ∘ (fun e => if e.2.serial = serial then (e.1, f e.2) else e) =
      fun e => decide (e.1 = k) := by
    funext e
    simp only [Function.comp_apply]
    split <;> rfl
  rw [hkey]
  congr 1
  funext e
  simp only [Function.comp_apply]
  split <;> rfl

omit [DecidableEq κ] in
theorem modify_modify {g : Slot ν → Slot ν} (hf : ∀ s, (f s).serial = s.serial) :
    (m.modify serial f).modify serial g = m.modify serial fun s => g (f s) := by
  rw [Memo.modify, Memo.modify, Memo.modify, List.map_map]
  congr 1
  refine List.map_congr_left fun e _ => ?_
  by_cases hs : e.2.serial = serial
  · simp [hs, hf]
  · simp [hs]

theorem slot?_slot : (m.slot k).1.slot? k' = if k' = k then some (m.slot k).2 else m.slot? k' := by
  unfold Memo.slot
  split
  · next s hs =>
    split
    · next heq => rw [heq, hs]
    · rfl
  · next hnone =>
    have hnew : m.entries.find? (·.1 = k) = none := Option.map_eq_none_iff.mp hnone
    split
    · next heq =>
      subst heq
      simp [slot?, List.find?_append, hnew]
    · next hne => simp [slot?, List.find?_append, Ne.symm hne]

/-- Writing into the slot of a key leaves the slots of the other keys alone. -/
theorem slot?_modify_slot (h : m.Numbered) (hkeyed : m.Keyed) (k' : κ) :
    ((m.slot k).1.modify (m.slot k).2.serial f).slot? k' = if k' = k then some (f (m.slot k).2) else m.slot? k' := by
  rw [slot?_modify, slot?_slot]
  split
  · rw [Option.map_some, if_pos rfl]
  · next hne =>
    cases hs : m.slot? k' with
    | none => rfl
    | some s =>
      have hother : s.serial ≠ (m.slot k).2.serial := by
        intro heq
        have hmem : (k', s) ∈ (m.slot k).1.entries :=
          (slot?_eq_some_iff hkeyed.slot).mp (by rw [slot?_slot, if_neg hne, hs])
        exact hne (congrArg Prod.fst (h.slot.eq_of_serial hmem mem_slot heq))
      rw [Option.map_some, if_neg hother]

omit [DecidableEq κ] in
theorem Numbered.of_filter (h : m.Numbered) {p : κ × Slot ν → Bool} :
    Numbered { m with entries := m.entries.filter p } where
  nodup := (List.filter_sublist.map _).nodup h.nodup
  lt e he := h.lt e (List.mem_of_mem_filter he)

omit [DecidableEq κ] in
theorem Keyed.of_filter (h : m.Keyed) {p : κ × Slot ν → Bool} : Keyed { m with entries := m.entries.filter p } :=
  (List.filter_sublist.map _).nodup h

theorem slot?_erase (h : m.Keyed) : (m.erase k).slot? k' = if k' = k then none else m.slot? k' := by
  ext s
  have herase : (m.erase k).Keyed := h.of_filter
  rw [slot?_eq_some_iff herase, erase, List.mem_filter, ← slot?_eq_some_iff h]
  split <;> simp_all

theorem slot?_clear (h : m.Keyed) : m.clear.1.slot? k = (m.slot? k).filter outlives := by
  have hclear : m.clear.1.Keyed := h.of_filter
  ext s
  rw [Option.filter_eq_some_iff, slot?_eq_some_iff hclear, slot?_eq_some_iff h]
  exact List.mem_filter

end Lookup

/-! ## Histories -/

/-- What a memo is asked to do. Meanwhile others may take stamps. -/
inductive Call (κ ν : Type) where
  /-- The value of a key is asked for, which `init` gives unless its computation fails. -/
  | read (k : κ) (wanted : ν → Bool) (pinned : Bool) (init : Option ν)
  | put (k : κ) (v : ν)
  | erase (k : κ)
  | clear
  | tick

/-- What a call came to. -/
inductive Deed (κ ν : Type) where
  | stored (k : κ) (v : ν) (pinned : Bool)
  | failed (k : κ)
  | erased (k : κ)
  | cleared

/-- A memo with what was done to it, the latest first, and with what its values were told, and at which stamps. -/
structure Diary (κ ν : Type) where
  memo : Memo κ ν := {}
  deeds : List (Deed κ ν) := []
  /-- The last stamp given out. -/
  stamp : Nat := 0
  notices : List (Nat × ν) := []

namespace Diary

def call (d : Diary κ ν) : Call κ ν → Diary κ ν
  | .read k wanted pinned init =>
    match d.memo.start k wanted, init with
    | (m, .found _), _ => { d with memo := m }
    | (m, .missing serial), some v =>
      { d with memo := m.finish serial v pinned, deeds := .stored k v pinned :: d.deeds }
    | (m, .missing serial), none => { d with memo := m.fail serial, deeds := .failed k :: d.deeds }
  | .put k v => { d with memo := d.memo.put k v, deeds := .stored k v false :: d.deeds }
  | .erase k => { d with memo := d.memo.erase k, deeds := .erased k :: d.deeds }
  | .clear =>
    let (m, told) := d.memo.clear
    { memo := m, deeds := .cleared :: d.deeds, stamp := d.stamp + 1,
      notices := d.notices ++ told.map (d.stamp + 1, ·) }
  | .tick => { d with stamp := d.stamp + 1 }

def run (calls : List (Call κ ν)) : Diary κ ν := calls.foldl call {}

/-- A computation that does not fail makes of the call a plain read. -/
theorem memo_call_read (d : Diary κ ν) (k : κ) (wanted : ν → Bool) (pinned : Bool) (v : ν) :
    (d.call (.read k wanted pinned (some v))).memo = (d.memo.read k wanted pinned fun _ => v).1 := by
  rcases hstart : d.memo.start k wanted with ⟨m, _ | _⟩ <;> simp only [call, Memo.read, hstart]

end Diary

/-- The value that was last stored under a key, and whether it was pinned. -/
def lastStore? (k : κ) : List (Deed κ ν) → Option (ν × Bool)
  | [] => none
  | .stored k' v pinned :: deeds => if k = k' then some (v, pinned) else lastStore? k deeds
  | _ :: deeds => lastStore? k deeds

/-- Whether a computation has failed for a key since the last clear, or since the key was erased. -/
def failedLately (k : κ) : List (Deed κ ν) → Bool
  | [] => false
  | .failed k' :: deeds => decide (k = k') || failedLately k deeds
  | .erased k' :: deeds => !decide (k = k') && failedLately k deeds
  | .stored _ _ _ :: deeds => failedLately k deeds
  | .cleared :: _ => false

/-- The slot of a key agrees with what was done: it holds what was last stored, and is broken if a computation has
failed in it. None is at work. -/
structure Accords (m : Memo κ ν) (deeds : List (Deed κ ν)) (k : κ) : Prop where
  stored : ∀ s, m.slot? k = some s → ∀ v, s.value = some v → lastStore? k deeds = some (v, s.pinned)
  filled : ∀ s, m.slot? k = some s → s.pinned = true → s.value.isSome
  idle : ∀ s, m.slot? k = some s → s.busy = false
  failed : failedLately k deeds = (m.slot? k).any (·.broken)

variable {m : Memo κ ν} {deeds : List (Deed κ ν)} {k k' : κ} {v : ν} {pinned : Bool}

namespace Accords

/-- What a slot that is as it was agrees with does not depend on what was done to other keys. -/
theorem of_eq {m' : Memo κ ν} {deeds' : List (Deed κ ν)} (h : Accords m deeds k) (hslot : m'.slot? k = m.slot? k)
    (hlast : lastStore? k deeds' = lastStore? k deeds) (hfailed : failedLately k deeds' = failedLately k deeds) :
    Accords m' deeds' k where
  stored s hs := hlast ▸ h.stored s (hslot ▸ hs)
  filled s hs := h.filled s (hslot ▸ hs)
  idle s hs := h.idle s (hslot ▸ hs)
  failed := by rw [hfailed, hslot, h.failed]

/-- Without a slot there is nothing to agree with. -/
theorem of_none (hslot : m.slot? k = none) (hfailed : failedLately k deeds = false) : Accords m deeds k where
  stored s hs := by cases hslot.symm.trans hs
  filled s hs := by cases hslot.symm.trans hs
  idle s hs := by cases hslot.symm.trans hs
  failed := by rw [hfailed, hslot]; rfl

theorem slot (h : Accords m deeds k') : Accords (m.slot k).1 deeds k' := by
  by_cases hnone : k' = k ∧ m.slot? k = none
  · obtain ⟨rfl, hnone⟩ := hnone
    have hfresh : (m.slot k').1.slot? k' = some { serial := m.next } := by
      rw [slot?_slot, if_pos rfl, Memo.slot, hnone]
    have hfailed : failedLately k' deeds = false := by rw [h.failed, hnone]; rfl
    constructor <;> simp [hfresh, hfailed]
  · refine h.of_eq ?_ rfl rfl
    rw [slot?_slot]
    split
    · next heq =>
      obtain ⟨s, hs⟩ := Option.ne_none_iff_exists'.mp fun hnot => hnone ⟨heq, hnot⟩
      rw [heq, Memo.slot, hs]
    · rfl

/-- A value was stored. -/
theorem store {m' : Memo κ ν} {s : Slot ν} (h : Accords m deeds k) (hs : m.slot? k = some s)
    (hs' : m'.slot? k = some { s with value := some v, pinned, busy := false }) :
    Accords m' (.stored k v pinned :: deeds) k := by
  have hbroken : failedLately k deeds = s.broken := by rw [h.failed, hs]; rfl
  constructor <;> simp [hs', lastStore?, failedLately, hbroken]

/-- A computation has failed. -/
theorem fail {m' : Memo κ ν} {s : Slot ν} (h : Accords m deeds k) (hs : m.slot? k = some s)
    (hs' : m'.slot? k = some { s with busy := false, broken := true }) : Accords m' (.failed k :: deeds) k := by
  have hstored := h.stored s hs
  have hfilled := h.filled s hs
  constructor <;> simp [hs', lastStore?, failedLately] <;> assumption

end Accords

theorem outlives_iff {s : Slot ν} (hidle : s.busy = false) :
    outlives s = true ↔ s.pinned = true ∧ s.broken = false := by
  simp [outlives, hidle]

theorem Accords.clear (h : Accords m deeds k) (hkeyed : m.Keyed) : Accords m.clear.1 (.cleared :: deeds) k := by
  have hslot := slot?_clear (k := k) hkeyed
  cases hs : m.slot? k with
  | none => exact .of_none (by rw [hslot, hs]; rfl) rfl
  | some s =>
    by_cases hout : outlives s = true
    · have hbroken : s.broken = false := ((outlives_iff (h.idle s hs)).mp hout).2
      have hkept : m.clear.1.slot? k = m.slot? k := by rw [hslot, hs, Option.filter_some, if_pos hout]
      refine h.of_eq hkept rfl ?_
      rw [h.failed, hs, Option.any_some, hbroken, failedLately]
    · exact .of_none (by rw [hslot, hs, Option.filter_some, if_neg hout]) rfl

namespace Diary

/-- What an account of a memo holds to. -/
structure Sound (d : Diary κ ν) : Prop where
  numbered : d.memo.Numbered
  keyed : d.memo.Keyed
  accords : ∀ k, Accords d.memo d.deeds k
  stamped : ∀ n ∈ d.notices, n.1 ≤ d.stamp

variable {d : Diary κ ν} {wanted : ν → Bool} {init : Option ν}

/-- The slot of a key is opened, and a value that was missing is stored there, unless its computation fails. -/
theorem call_read_cases (d : Diary κ ν) (k : κ) (wanted : ν → Bool) (pinned : Bool) (init : Option ν) :
    d.call (.read k wanted pinned init) = { d with memo := (d.memo.slot k).1 } ∨
      (∃ v, init = some v ∧ d.call (.read k wanted pinned init) =
        { d with
          memo := (d.memo.slot k).1.modify (d.memo.slot k).2.serial fun s =>
            { s with value := some v, pinned, busy := false }
          deeds := .stored k v pinned :: d.deeds }) ∨
      (init = none ∧ d.call (.read k wanted pinned init) =
        { d with
          memo := (d.memo.slot k).1.modify (d.memo.slot k).2.serial fun s => { s with busy := false, broken := true }
          deeds := .failed k :: d.deeds }) := by
  have hstart := start_eq d.memo k wanted
  cases hv : (d.memo.slot k).2.value.filter wanted with
  | some v =>
    rw [hv] at hstart
    exact .inl (by simp only [call, hstart])
  | none =>
    rw [hv] at hstart
    cases init with
    | some v =>
      refine .inr (.inl ⟨v, rfl, ?_⟩)
      simp only [call, hstart, finish]
      rw [modify_modify (f := fun s => { s with busy := true }) fun _ => rfl]
    | none =>
      refine .inr (.inr ⟨rfl, ?_⟩)
      simp only [call, hstart, Memo.fail]
      rw [modify_modify (f := fun s => { s with busy := true }) fun _ => rfl]

/-- Something was written into the slot of a key. -/
theorem Sound.write (h : d.Sound) {f : Slot ν → Slot ν} (hf : ∀ s, (f s).serial = s.serial)
    {deeds : List (Deed κ ν)} (hlast : ∀ k', k' ≠ k → lastStore? k' deeds = lastStore? k' d.deeds)
    (hfailed : ∀ k', k' ≠ k → failedLately k' deeds = failedLately k' d.deeds)
    (hk : ∀ m' : Memo κ ν, m'.slot? k = some (f (d.memo.slot k).2) → Accords m' deeds k) :
    Sound { d with memo := (d.memo.slot k).1.modify (d.memo.slot k).2.serial f, deeds } where
  numbered := h.numbered.slot.modify hf
  keyed := h.keyed.slot.modify
  accords k' := by
    have hslot := slot?_modify_slot (k := k) (f := f) h.numbered h.keyed k'
    by_cases heq : k' = k
    · subst heq
      exact hk _ (by rw [hslot, if_pos rfl])
    · exact (h.accords k').of_eq (by rw [hslot, if_neg heq]) (hlast k' heq) (hfailed k' heq)
  stamped := h.stamped

theorem Sound.opened (h : d.Sound) (k : κ) :
    Accords (d.memo.slot k).1 d.deeds k ∧ (d.memo.slot k).1.slot? k = some (d.memo.slot k).2 :=
  ⟨(h.accords k).slot, by rw [slot?_slot, if_pos rfl]⟩

theorem sound_start : (({} : Diary κ ν)).Sound where
  numbered := numbered_empty
  keyed := List.nodup_nil
  accords k := .of_none rfl rfl
  stamped n hn := by cases hn

theorem Sound.read (h : d.Sound) : (d.call (.read k wanted pinned init)).Sound := by
  obtain ⟨haccords, hslot⟩ := h.opened k
  rcases call_read_cases d k wanted pinned init with heq | ⟨v, -, heq⟩ | ⟨-, heq⟩ <;> rw [heq]
  · exact ⟨h.numbered.slot, h.keyed.slot, fun k' => (h.accords k').slot, h.stamped⟩
  · refine h.write (f := fun s => { s with value := some v, pinned, busy := false }) (fun _ => rfl)
      (fun k' hne => ?_) (fun k' _ => ?_) fun m' hs' => haccords.store hslot hs'
    · rw [lastStore?, if_neg hne]
    · rfl
  · refine h.write (f := fun s => { s with busy := false, broken := true }) (fun _ => rfl)
      (fun k' _ => ?_) (fun k' hne => ?_) fun m' hs' => haccords.fail hslot hs'
    · rfl
    · rw [failedLately, decide_eq_false hne, Bool.false_or]

theorem Sound.put (h : d.Sound) : (d.call (.put k v)).Sound := by
  obtain ⟨haccords, hslot⟩ := h.opened k
  have hidle := haccords.idle _ hslot
  refine h.write (f := fun s => { s with value := some v, pinned := false }) (fun _ => rfl)
    (fun k' hne => ?_) (fun k' _ => ?_) fun m' hs' => haccords.store hslot ?_
  · rw [lastStore?, if_neg hne]
  · rfl
  · simpa [← hidle] using hs'

theorem Sound.erase (h : d.Sound) : (d.call (.erase k)).Sound where
  numbered := h.numbered.of_filter
  keyed := h.keyed.of_filter
  accords k' := by
    have hslot : (d.memo.erase k).slot? k' = _ := slot?_erase h.keyed
    by_cases heq : k' = k
    · exact .of_none (hslot.trans (if_pos heq)) (by simp [call, failedLately, heq])
    · exact (h.accords k').of_eq (hslot.trans (if_neg heq)) rfl (by simp [call, failedLately, heq])
  stamped := h.stamped

theorem Sound.clear (h : d.Sound) : (d.call .clear).Sound where
  numbered := h.numbered.of_filter
  keyed := h.keyed.of_filter
  accords k := (h.accords k).clear h.keyed
  stamped n hn := by
    rcases List.mem_append.mp hn with hold | hnew
    · exact Nat.le_succ_of_le (h.stamped n hold)
    · obtain ⟨v, -, rfl⟩ := List.mem_map.mp hnew
      exact Nat.le_refl _

/-- Whatever is called, the account stays sound. -/
theorem Sound.call (h : d.Sound) : (c : Call κ ν) → (d.call c).Sound
  | .read _ _ _ _ => h.read
  | .put _ _ => h.put
  | .erase _ => h.erase
  | .clear => h.clear
  | .tick => ⟨h.numbered, h.keyed, h.accords, fun n hn => Nat.le_succ_of_le (h.stamped n hn)⟩

theorem Sound.foldl (h : d.Sound) (calls : List (Call κ ν)) : (calls.foldl Diary.call d).Sound := by
  induction calls generalizing d with
  | nil => exact h
  | cons c calls ih => exact ih (h.call c)

theorem sound_run (calls : List (Call κ ν)) : (run calls).Sound := sound_start.foldl calls

/-! ## Clearing -/

/-- A value that is kept is the one that was last stored, and a clear leaves it if it is pinned and no computation has
failed in its slot. -/
theorem Sound.kept_clear (h : d.Sound) (hkept : d.memo.Kept k v) :
    ∃ pinned, lastStore? k d.deeds = some (v, pinned) ∧
      ((d.call .clear).memo.Kept k v ↔ pinned = true ∧ failedLately k d.deeds = false) := by
  obtain ⟨s, hs, hv⟩ := (kept_iff h.keyed).mp hkept
  have haccords := h.accords k
  have hbroken : failedLately k d.deeds = s.broken := by rw [haccords.failed, hs, Option.any_some]
  refine ⟨s.pinned, haccords.stored s hs v hv, ?_⟩
  have hslot : (d.call .clear).memo.slot? k = if outlives s then some s else none := by
    rw [← Option.filter_some, ← hs]
    exact slot?_clear h.keyed
  rw [kept_iff h.clear.keyed, hslot, hbroken, ← outlives_iff (haccords.idle s hs)]
  by_cases hout : outlives s = true
  · rw [if_pos hout]
    exact ⟨fun _ => hout, fun _ => ⟨s, rfl, hv⟩⟩
  · rw [if_neg hout]
    exact ⟨fun ⟨_, hnone, _⟩ => (Option.some_ne_none _ hnone.symm).elim, fun hyes => absurd hyes hout⟩

/-- What a clear leaves holds a value, and did so before. -/
theorem Sound.value_of_clear (h : d.Sound) {e : κ × Slot ν} (he : e ∈ (d.call .clear).memo.entries) :
    ∃ v, e.2.value = some v ∧ d.memo.Kept e.1 v := by
  obtain ⟨hold, hout⟩ := List.mem_filter.mp he
  have hs : d.memo.slot? e.1 = some e.2 := (slot?_eq_some_iff h.keyed).mpr hold
  have haccords := h.accords e.1
  have hpinned : e.2.pinned = true := ((outlives_iff (haccords.idle _ hs)).mp hout).1
  obtain ⟨v, hv⟩ := Option.isSome_iff_exists.mp (haccords.filled _ hs hpinned)
  exact ⟨v, hv, e, hold, rfl, hv⟩

/-- After whichever calls, a clear leaves an entry, with its value, if that was pinned when it was last stored and no
computation has failed for its key since the last clear or erasure; the others are gone. Each value that is left is told
once, with a stamp above all earlier ones. -/
theorem clear_keeps_pinned (calls : List (Call κ ν)) :
    let d := run calls
    let d' := d.call .clear
    (∀ k v, d.memo.Kept k v → ∃ pinned, lastStore? k d.deeds = some (v, pinned) ∧
        (d'.memo.Kept k v ↔ pinned = true ∧ failedLately k d.deeds = false)) ∧
      (∀ e ∈ d'.memo.entries, ∃ v, e.2.value = some v ∧ d.memo.Kept e.1 v) ∧
      (d'.memo.entries.map (·.1)).Nodup ∧
      d'.notices = d.notices ++ d'.memo.values.map (d'.stamp, ·) ∧
      d.stamp < d'.stamp ∧ ∀ n ∈ d.notices, n.1 < d'.stamp := by
  have hsound : (run calls).Sound := sound_run calls
  exact ⟨fun k v hkept => hsound.kept_clear hkept, fun e he => hsound.value_of_clear he, hsound.clear.keyed, rfl,
    Nat.lt_succ_self _, fun n hn => Nat.lt_succ_of_le (hsound.stamped n hn)⟩

-- A failure costs a pinned value its place, although readers go on to find it until the clear.
example :
    let d : Diary Nat Nat := run [.read 0 (fun _ => true) true (some 7), .read 0 (fun _ => false) false none]
    d.memo.values = [7] ∧ (d.call .clear).memo.values = [] := by
  decide

end Diary

end EditorAgent.Memo

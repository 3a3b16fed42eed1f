import EditorAgent.Memo.Basic
import Mathlib.Data.List.Nodup

/-!
# The slots of a memo

Serial numbers tell slots apart, so what is finished for a slot is kept under the key it was started for,
whatever happened to the memo in between. `Kept` is what a memo says; every operation is described by what
it does to it.
-/

namespace EditorAgent.Memo

variable {κ ν : Type} {m m' m'' : Memo κ ν} {k : κ} {x v : ν} {serial : Nat}

/-- A value is kept under a key. -/
def Kept (m : Memo κ ν) (k : κ) (x : ν) : Prop := ∃ e ∈ m.entries, e.1 = k ∧ e.2.value = some x

/-- No two slots have one serial number, and the next one is new. -/
structure Numbered (m : Memo κ ν) : Prop where
  nodup : (m.entries.map fun e => e.2.serial).Nodup
  lt : ∀ e ∈ m.entries, e.2.serial < m.next

/-- A slot belongs to a key. -/
def Owns (m : Memo κ ν) (k : κ) (serial : Nat) : Prop := ∃ e ∈ m.entries, e.1 = k ∧ e.2.serial = serial

/-- Slots that were there before belong to the same keys. -/
structure Grows (m m' : Memo κ ν) : Prop where
  next_le : m.next ≤ m'.next
  owns : ∀ k serial, m'.Owns k serial → serial < m.next → m.Owns k serial

theorem Grows.refl (m : Memo κ ν) : m.Grows m := ⟨Nat.le_refl _, fun _ _ h _ => h⟩

theorem Grows.trans (h : m.Grows m') (h' : m'.Grows m'') : m.Grows m'' :=
  ⟨Nat.le_trans h.next_le h'.next_le,
    fun k s hs hlt => h.owns k s (h'.owns k s hs (Nat.lt_of_lt_of_le hlt h.next_le)) hlt⟩

theorem numbered_empty : (Memo.empty : Memo κ ν).Numbered := ⟨by simp [empty], by simp [empty]⟩

theorem not_kept_empty : ¬ (Memo.empty : Memo κ ν).Kept k x := by simp [Kept, empty]

theorem Numbered.eq_of_serial (h : m.Numbered) {e e' : κ × Slot ν} (he : e ∈ m.entries)
    (he' : e' ∈ m.entries) (hs : e.2.serial = e'.2.serial) : e = e' :=
  List.inj_on_of_nodup_map h.nodup he he' hs

theorem Numbered.owns_unique (h : m.Numbered) {k' : κ} (hk : m.Owns k serial) (hk' : m.Owns k' serial) :
    k = k' := by
  obtain ⟨e, he, rfl, hs⟩ := hk
  obtain ⟨e', he', rfl, hs'⟩ := hk'
  rw [h.eq_of_serial he he' (hs.trans hs'.symm)]

/-! ## Changing a slot -/

section Modify

variable {f : Slot ν → Slot ν}

theorem mem_modify {e' : κ × Slot ν} (h : e' ∈ (m.modify serial f).entries) :
    ∃ e ∈ m.entries, e' = if e.2.serial = serial then (e.1, f e.2) else e := by
  obtain ⟨e, he, rfl⟩ := List.mem_map.mp h
  exact ⟨e, he, rfl⟩

theorem Numbered.modify (h : m.Numbered) (hf : ∀ s, (f s).serial = s.serial) :
    (m.modify serial f).Numbered := by
  have hserial : ∀ e : κ × Slot ν, (if e.2.serial = serial then (e.1, f e.2) else e).2.serial = e.2.serial := by
    intro e
    split
    · exact hf e.2
    · rfl
  constructor
  · have : (m.modify serial f).entries.map (fun e => e.2.serial) = m.entries.map fun e => e.2.serial := by
      simp only [Memo.modify, List.map_map]
      exact List.map_congr_left fun e _ => hserial e
    rw [this]
    exact h.nodup
  · intro e' he'
    obtain ⟨e, he, rfl⟩ := mem_modify he'
    rw [hserial]
    exact h.lt e he

theorem owns_modify (hf : ∀ s, (f s).serial = s.serial) {σ : Nat} :
    (m.modify serial f).Owns k σ ↔ m.Owns k σ := by
  constructor
  · rintro ⟨e', he', rfl, rfl⟩
    obtain ⟨e, he, rfl⟩ := mem_modify he'
    refine ⟨e, he, ?_⟩
    split <;> simp [hf]
  · rintro ⟨e, he, rfl, rfl⟩
    refine ⟨_, List.mem_map_of_mem he, ?_⟩
    split <;> simp [hf]

theorem grows_modify (hf : ∀ s, (f s).serial = s.serial) : m.Grows (m.modify serial f) :=
  ⟨Nat.le_refl _, fun _ _ h _ => (owns_modify hf).mp h⟩

theorem kept_modify_of_value (hf : ∀ s, (f s).value = s.value) :
    (m.modify serial f).Kept k x ↔ m.Kept k x := by
  constructor
  · rintro ⟨e', he', hk, hv⟩
    obtain ⟨e, he, rfl⟩ := mem_modify he'
    refine ⟨e, he, ?_⟩
    split at hk <;> simp_all
  · rintro ⟨e, he, hk, hv⟩
    refine ⟨_, List.mem_map_of_mem he, ?_⟩
    split <;> simp_all

/-- A value written into a slot is kept under the slot's key; nothing else is new. -/
theorem Kept.of_write (hf : ∀ s, (f s).value = some v) {k' : κ} (ho : ∀ k', m.Owns k' serial → k' = k)
    (h : (m.modify serial f).Kept k' x) : (k' = k ∧ x = v) ∨ m.Kept k' x := by
  obtain ⟨e', he', hk, hv⟩ := h
  obtain ⟨e, he, rfl⟩ := mem_modify he'
  split at hk
  · next hs =>
    left
    have := ho _ ⟨e, he, rfl, hs⟩
    simp_all
  · next hs => exact .inr ⟨e, he, hk, by simpa [hs] using hv⟩

theorem Kept.write (h : m.Kept k x) (hne : ∀ e ∈ m.entries, e.2.serial = serial → e.2.value ≠ some x) :
    (m.modify serial f).Kept k x := by
  obtain ⟨e, he, hk, hv⟩ := h
  refine ⟨_, List.mem_map_of_mem he, ?_⟩
  split
  · next hs => exact absurd hv (hne e he hs)
  · exact ⟨hk, hv⟩

end Modify

/-! ## Finding a slot -/

variable [DecidableEq κ]

theorem Numbered.slot (h : m.Numbered) : (m.slot k).1.Numbered := by
  unfold Memo.slot
  split
  · exact h
  · constructor
    · simp only [List.map_append, List.map_cons, List.map_nil]
      refine List.nodup_append.mpr ⟨h.nodup, by simp, ?_⟩
      intro a ha b hb
      obtain ⟨e, he, rfl⟩ := List.mem_map.mp ha
      have := h.lt e he
      simp_all
      omega
    · intro e he
      rcases List.mem_append.mp he with he | he
      · exact Nat.lt_succ_of_lt (h.lt e he)
      · simp_all

theorem owns_slot : (m.slot k).1.Owns k (m.slot k).2.serial := by
  unfold Memo.slot
  split
  · next s hs =>
    obtain ⟨e, he, rfl⟩ := Option.map_eq_some_iff.mp hs
    exact ⟨e, List.mem_of_find?_eq_some he, by simpa using List.find?_some he, rfl⟩
  · exact ⟨_, List.mem_append_right _ List.mem_cons_self, rfl, rfl⟩

theorem mem_slot : (k, (m.slot k).2) ∈ (m.slot k).1.entries := by
  unfold Memo.slot
  split
  · next s hs =>
    obtain ⟨e, he, rfl⟩ := Option.map_eq_some_iff.mp hs
    have hk : e.1 = k := by simpa using List.find?_some he
    rw [← hk]
    exact List.mem_of_find?_eq_some he
  · simp

theorem kept_slot {k' : κ} : (m.slot k).1.Kept k' x ↔ m.Kept k' x := by
  unfold Memo.slot
  split
  · rfl
  · simp [Kept, or_and_right, exists_or]

theorem grows_slot : m.Grows (m.slot k).1 := by
  unfold Memo.slot
  split
  · exact .refl m
  · refine ⟨Nat.le_succ _, ?_⟩
    rintro k' σ ⟨e, he, rfl, rfl⟩ hlt
    rcases List.mem_append.mp he with he | he
    · exact ⟨e, he, rfl, rfl⟩
    · simp_all

/-! ## Starting, finishing and putting -/

theorem kept_of_peek? {wanted : ν → Bool} (h : m.peek? k wanted = some x) : m.Kept k x := by
  rw [peek?, Option.filter_eq_some_iff] at h
  obtain ⟨s, hs, hx⟩ := Option.bind_eq_some_iff.mp h.1
  obtain ⟨e, he, rfl⟩ := Option.map_eq_some_iff.mp hs
  exact ⟨e, List.mem_of_find?_eq_some he, by simpa using List.find?_some he, hx⟩

theorem start_eq (m : Memo κ ν) (k : κ) (wanted : ν → Bool) :
    m.start k wanted = match (m.slot k).2.value.filter wanted with
      | some v => ((m.slot k).1, .found v)
      | none => ((m.slot k).1.modify (m.slot k).2.serial fun s => { s with busy := true },
          .missing (m.slot k).2.serial) :=
  rfl

theorem put_eq (m : Memo κ ν) (k : κ) (v : ν) :
    m.put k v = (m.slot k).1.modify (m.slot k).2.serial fun s => { s with value := some v, pinned := false } :=
  rfl

/-- What is in a memo after a value was put there holds that value, or was there before. -/
theorem mem_put {e : κ × Slot ν} (h : e ∈ (m.put k v).entries) :
    e.2.value = some v ∧ e.2.pinned = false ∨ e ∈ m.entries := by
  rw [put_eq] at h
  obtain ⟨e', he', rfl⟩ := mem_modify h
  split
  · exact .inl ⟨rfl, rfl⟩
  · next hserial =>
    unfold Memo.slot at he' hserial
    split at he'
    · exact .inr he'
    · next hnone =>
      simp only [hnone] at hserial
      rcases List.mem_append.mp he' with hold | hnew
      · exact .inr hold
      · exact absurd (congrArg (·.2.serial) (List.mem_singleton.mp hnew)) hserial

theorem start_fst (m : Memo κ ν) (k : κ) (wanted : ν → Bool) :
    (m.start k wanted).1 = (m.slot k).1 ∨
      (m.start k wanted).1 = (m.slot k).1.modify (m.slot k).2.serial fun s => { s with busy := true } := by
  rw [start_eq]
  split
  · exact .inl rfl
  · exact .inr rfl

theorem Numbered.start (h : m.Numbered) (wanted : ν → Bool) : (m.start k wanted).1.Numbered := by
  rcases start_fst m k wanted with e | e <;> rw [e]
  · exact h.slot
  · exact h.slot.modify fun _ => rfl

theorem grows_start (wanted : ν → Bool) : m.Grows (m.start k wanted).1 := by
  rcases start_fst m k wanted with e | e <;> rw [e]
  · exact grows_slot
  · exact grows_slot.trans (grows_modify fun _ => rfl)

theorem kept_start {k' : κ} (wanted : ν → Bool) : (m.start k wanted).1.Kept k' x ↔ m.Kept k' x := by
  rcases start_fst m k wanted with e | e <;> rw [e]
  · exact kept_slot
  · exact (kept_modify_of_value (by simp)).trans kept_slot

theorem start_found {wanted : ν → Bool} (h : (m.start k wanted).2 = .found x) : m.Kept k x ∧ wanted x = true := by
  rw [start_eq] at h
  split at h
  · next v hv =>
    obtain ⟨hv, hw⟩ := Option.filter_eq_some_iff.mp hv
    cases h
    exact ⟨kept_slot.mp ⟨_, mem_slot, rfl, hv⟩, hw⟩
  · cases h

/-- The slot that is to be filled belongs to the key and holds nothing that is wanted. -/
theorem start_missing {wanted : ν → Bool} (hm : m.Numbered) (h : (m.start k wanted).2 = .missing serial) :
    (m.start k wanted).1.Owns k serial ∧
      ∀ e ∈ (m.start k wanted).1.entries, e.2.serial = serial → ∀ x, e.2.value = some x → wanted x = false := by
  rw [start_eq] at h ⊢
  split at h
  · cases h
  · next hv =>
    cases h
    simp only
    refine ⟨(owns_modify (by simp)).mpr owns_slot, ?_⟩
    intro e' he' hs x hx
    obtain ⟨e, he, rfl⟩ := mem_modify he'
    have hse : e.2.serial = (m.slot k).2.serial := by
      split at hs
      · next h => exact h
      · exact hs
    have heq := hm.slot.eq_of_serial he mem_slot hse
    have hx : (m.slot k).2.value = some x := by simpa [heq] using hx
    simpa [hx] using hv

omit [DecidableEq κ] in
theorem Numbered.finish (h : m.Numbered) (v : ν) (pinned : Bool) : (m.finish serial v pinned).Numbered :=
  h.modify fun _ => rfl

theorem Numbered.put (h : m.Numbered) (v : ν) : (m.put k v).Numbered := by
  rw [put_eq]
  exact h.slot.modify fun _ => rfl

theorem grows_put (v : ν) : m.Grows (m.put k v) := by
  rw [put_eq]
  exact grows_slot.trans (grows_modify fun _ => rfl)

theorem Kept.of_put {k' : κ} (hm : m.Numbered) (h : (m.put k v).Kept k' x) : (k' = k ∧ x = v) ∨ m.Kept k' x := by
  rw [put_eq] at h
  rcases Kept.of_write (fun _ => rfl) (fun _ ho => hm.slot.owns_unique ho owns_slot) h with h | h
  · exact .inl h
  · exact .inr (kept_slot.mp h)

theorem Kept.put {k' : κ} (hm : m.Numbered) (hk : k' ≠ k) (h : m.Kept k' x) : (m.put k v).Kept k' x := by
  obtain ⟨e, he, rfl, hv⟩ := (kept_slot (k := k)).mpr h
  have hs : e.2.serial ≠ (m.slot k).2.serial :=
    fun hs => hk (hm.slot.owns_unique ⟨e, he, rfl, hs⟩ owns_slot)
  rw [put_eq]
  refine ⟨_, List.mem_map_of_mem he, ?_⟩
  simp [hs, hv]

end EditorAgent.Memo

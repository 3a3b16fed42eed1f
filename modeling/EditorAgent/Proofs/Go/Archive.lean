import EditorAgent.Go.Archive
import Mathlib.Data.Finset.Card

/-!
# The search of an export archive

Each header either decides the search or tells where the next one is. The size that tells it may be negative, so a
search may be led back: it never ends just if it comes to a header for a second time. As long as no size leads back by
a whole header, each step leads on and the search ends.
-/

namespace EditorAgent.Go.Archive

variable {data : Bytes} {pos next fuel n : Nat} {size : Int}

/-! ## One header -/

def header (data : Bytes) (pos : Nat) : Bytes := (data.drop pos).take headerLength

/-- The size that the header at a position gives. -/
def memberSize? (data : Bytes) (pos : Nat) : Option Int := size? (((header data pos).drop 48).take 10)

/-- What the header at a position comes to: the outcome of the search, or the position of the next header. -/
def look (data : Bytes) (pos : Nat) : Except Fault Bool ⊕ Nat :=
  if (header data pos).length < headerLength then .inl (.ok false)
  else if isExportName ((header data pos).take 16) then .inl (.ok true)
  else match memberSize? data pos with
    | none => .inl (.error .badSize)
    | some size =>
      if (pos + headerLength + advance size : Int) < 0 then .inl (.error .badSeek)
      else .inr (pos + headerLength + advance size : Int).toNat

theorem findExport_succ (data : Bytes) (fuel pos : Nat) :
    findExport data (fuel + 1) pos = (look data pos).elim some (findExport data fuel) := by
  by_cases hshort : (header data pos).length < headerLength
  · rw [look, if_pos hshort]
    exact if_pos hshort
  · by_cases hname : isExportName ((header data pos).take 16)
    · rw [look, if_neg hshort, if_pos hname]
      exact (if_neg hshort).trans (if_pos hname)
    · rw [look, if_neg hshort, if_neg hname]
      refine (if_neg hshort).trans ((if_neg hname).trans ?_)
      unfold memberSize? header
      cases size? ((((data.drop pos).take headerLength).drop 48).take 10) with
      | none => rfl
      | some size =>
        simp only
        split <;> rfl

/-- A search that goes on has read a whole header, and the size in it. -/
theorem look_eq_next (h : look data pos = .inr next) :
    pos + headerLength ≤ data.length ∧
      ∃ size, memberSize? data pos = some size ∧ (next : Int) = pos + headerLength + advance size := by
  unfold look at h
  split at h
  · cases h
  · next hwhole =>
    split at h
    · cases h
    · split at h
      · cases h
      · next size hsize =>
        split at h
        · cases h
        · next hnonneg =>
          obtain rfl := Sum.inr.inj h
          refine ⟨?_, size, hsize, Int.toNat_of_nonneg (Int.not_lt.mp hnonneg)⟩
          simp only [header, headerLength, List.length_take, List.length_drop] at hwhole ⊢
          omega

/-- The padding makes no difference to whether a size leads back by a header. -/
theorem lt_advance_iff (size : Int) : -(headerLength : Int) < advance size ↔ -(headerLength : Int) < size := by
  simp only [headerLength, advance]
  omega

theorem lt_next_iff (h : look data pos = .inr next) (hsize : memberSize? data pos = some size) :
    pos < next ↔ -(headerLength : Int) < size := by
  obtain ⟨-, size', hsize', hnext⟩ := look_eq_next h
  obtain rfl : size = size' := Option.some.inj (hsize.symm.trans hsize')
  rw [← lt_advance_iff]
  omega

/-! ## Header after header -/

/-- Where a search is after some headers, if it is not decided by then. -/
def after (data : Bytes) : Nat → Nat → Option Nat
  | 0, pos => some pos
  | n + 1, pos => (look data pos).elim (fun _ => none) (after data n)

theorem findExport_eq_none_iff : findExport data fuel pos = none ↔ (after data fuel pos).isSome := by
  induction fuel generalizing pos with
  | zero => simp [findExport, after]
  | succ fuel ih =>
    rw [findExport_succ, after]
    cases look data pos with
    | inl answer => simp
    | inr next => exact ih

theorem after_add (m n pos : Nat) : after data (m + n) pos = (after data m pos).bind (after data n) := by
  induction m generalizing pos with
  | zero => rw [Nat.zero_add, after, Option.bind_some]
  | succ m ih =>
    rw [Nat.succ_add, after, after]
    cases look data pos with
    | inl answer => rfl
    | inr next => exact ih next

theorem isSome_after_of_le {m : Nat} (h : (after data n pos).isSome) (hle : m ≤ n) : (after data m pos).isSome := by
  obtain ⟨k, rfl⟩ := Nat.exists_eq_add_of_le hle
  rw [after_add] at h
  exact Option.isSome_of_isSome_bind h

/-- Once an outcome is found, looking at more headers does not change it. -/
theorem findExport_of_le {r : Except Fault Bool} {fuel' : Nat} (h : findExport data fuel pos = some r)
    (hle : fuel ≤ fuel') : findExport data fuel' pos = some r := by
  induction fuel generalizing pos fuel' with
  | zero => cases h
  | succ fuel ih =>
    obtain ⟨fuel', rfl⟩ := Nat.exists_eq_add_one_of_ne_zero (Nat.ne_zero_of_lt hle)
    rw [findExport_succ] at h ⊢
    cases hlook : look data pos with
    | inl answer => rwa [hlook] at h
    | inr next =>
      rw [hlook] at h
      exact ih h (Nat.le_of_succ_le_succ hle)

/-! ## Coming back -/

/-- The search comes to a header from which it comes back to it. -/
def Returns (data : Bytes) (pos : Nat) : Prop :=
  ∃ n q period, after data n pos = some q ∧ after data (period + 1) q = some q

theorem after_mul_of_return {period : Nat} (h : after data (period + 1) pos = some pos) (k : Nat) :
    after data (k * (period + 1)) pos = some pos := by
  induction k with
  | zero => rw [Nat.zero_mul, after]
  | succ k ih => rw [Nat.succ_mul, after_add, ih, Option.bind_some, h]

/-- A search that has come back once goes on for ever. -/
theorem Returns.isSome_after (h : Returns data pos) (k : Nat) : (after data k pos).isSome := by
  obtain ⟨n, q, period, hq, hreturn⟩ := h
  have hround : (after data (n + k * (period + 1)) pos).isSome := by
    rw [after_add, hq, Option.bind_some, after_mul_of_return hreturn]
    rfl
  exact isSome_after_of_le hround (Nat.le_add_left_of_le (Nat.le_mul_of_pos_right k (Nat.succ_pos period)))

/-- A search that goes on is at a byte of the archive. -/
theorem exists_after_lt (h : (after data (n + 1) pos).isSome) : ∃ q, after data n pos = some q ∧ q < data.length := by
  obtain ⟨q, hq⟩ := Option.isSome_iff_exists.mp (isSome_after_of_le h (Nat.le_succ n))
  refine ⟨q, hq, ?_⟩
  rw [after_add, hq, Option.bind_some, after] at h
  cases hlook : look data q with
  | inl answer => simp [hlook] at h
  | inr next =>
    have hwhole := (look_eq_next hlook).1
    rw [headerLength] at hwhole
    omega

/-- Of more headers than there are bytes, two are the same. -/
theorem returns_of_isSome_after (h : (after data (data.length + 1) pos).isSome) : Returns data pos := by
  have hbyte : ∀ i ∈ Finset.range (data.length + 1), (after data i pos).getD 0 ∈ Finset.range data.length := by
    intro i hi
    obtain ⟨q, hq, hlt⟩ := exists_after_lt (isSome_after_of_le h (Finset.mem_range.mp hi))
    rwa [hq, Option.getD_some, Finset.mem_range]
  obtain ⟨i, hi, j, hj, hne, heq⟩ := Finset.exists_ne_map_eq_of_card_lt_of_maps_to (by simp) hbyte
  wlog hlt : i < j generalizing i j
  · exact this j hj i hi hne.symm heq.symm (Nat.lt_of_le_of_ne (Nat.not_lt.mp hlt) hne.symm)
  obtain ⟨q, hq⟩ := Option.isSome_iff_exists.mp (isSome_after_of_le h (Nat.le_of_lt (Finset.mem_range.mp hi)))
  obtain ⟨q', hq'⟩ := Option.isSome_iff_exists.mp (isSome_after_of_le h (Nat.le_of_lt (Finset.mem_range.mp hj)))
  obtain rfl : q = q' := by simpa [hq, hq'] using heq
  obtain ⟨period, rfl⟩ := Nat.exists_eq_add_of_lt hlt
  refine ⟨i, q, period, hq, ?_⟩
  rwa [Nat.add_assoc, after_add, hq, Option.bind_some] at hq'

/-! ## Going on -/

/-- No size that the search meets leads back by a whole header. -/
def LeadsOn (data : Bytes) (pos : Nat) : Prop :=
  ∀ n q size, after data n pos = some q → memberSize? data q = some size → -(headerLength : Int) < size

theorem LeadsOn.after (h : LeadsOn data pos) {q : Nat} (hq : after data n pos = some q) : LeadsOn data q := by
  intro m q' size hq' hsize
  exact h (n + m) q' size (by rw [after_add, hq]; exact hq') hsize

theorem LeadsOn.lt_next (h : LeadsOn data pos) (hlook : look data pos = .inr next) : pos < next := by
  obtain ⟨-, size, hsize, -⟩ := look_eq_next hlook
  exact (lt_next_iff hlook hsize).mpr (h 0 pos size rfl hsize)

theorem LeadsOn.add_le_after (h : LeadsOn data pos) {q : Nat} (hq : Archive.after data n pos = some q) :
    pos + n ≤ q := by
  induction n generalizing pos with
  | zero => exact Nat.le_of_eq (Option.some.inj hq)
  | succ n ih =>
    rw [Archive.after] at hq
    cases hlook : look data pos with
    | inl answer => simp [hlook] at hq
    | inr next =>
      rw [hlook] at hq
      have hstep := h.lt_next hlook
      have hnext : Archive.after data 1 pos = some next := by rw [Archive.after, hlook]; rfl
      have hrest := ih (h.after hnext) hq
      omega

theorem LeadsOn.not_returns (h : LeadsOn data pos) : ¬ Returns data pos := by
  rintro ⟨n, q, period, hq, hreturn⟩
  have := (h.after hq).add_le_after hreturn
  omega

/-- A search is decided by as many headers as there are bytes, unless it comes back to a header, which it then does for
ever. A step leads on just if the size of the member does not lead back by a whole header, and where all steps lead on
the search has an outcome. -/
theorem hasExport_decided (data : Bytes) :
    (hasExport data = none ↔ Returns data magic.length) ∧
      (∀ fuel, data.length < fuel → findExport data fuel magic.length = hasExport data) ∧
      (∀ pos next size, look data pos = .inr next → memberSize? data pos = some size →
        (pos < next ↔ -(headerLength : Int) < size)) ∧
      (LeadsOn data magic.length → ∃ r, hasExport data = some r) := by
  have hreturns : hasExport data = none ↔ Returns data magic.length :=
    findExport_eq_none_iff.trans ⟨returns_of_isSome_after, fun h => h.isSome_after _⟩
  refine ⟨hreturns, fun fuel hfuel => ?_, fun pos next size => lt_next_iff, fun h => ?_⟩
  · cases hr : hasExport data with
    | some r => exact findExport_of_le hr hfuel
    | none => exact findExport_eq_none_iff.mpr ((hreturns.mp hr).isSome_after fuel)
  · exact Option.ne_none_iff_exists'.mp fun hnone => h.not_returns (hreturns.mp hnone)

-- A size of minus sixty leads back to its own header.
example :
    (hasExport (magic ++ Utf8.encode "a/              0           0     0     644     -60         ")).isNone := by
  decide +kernel

end EditorAgent.Go.Archive

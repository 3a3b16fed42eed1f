import EditorAgent.Agent.Broker
import Mathlib.Data.List.Basic

/-!
# Lines of a text

In UTF-8 a line feed stands for itself wherever it stands, so the lines of a text are texts.
-/

namespace EditorAgent

namespace Utf8

variable {s r x : Bytes} {c : Char}

theorem tail_ne_done (n : Nat) (lo hi : UInt8) (acc : Nat) (s : Bytes) : tail n lo hi acc s ≠ .done := by
  induction n generalizing lo hi acc s with
  | zero => simp [tail]
  | succ n ih =>
    cases s with
    | nil => simp [tail]
    | cons b s =>
      rw [tail]
      split
      · exact ih _ _ _ _
      · simp

theorem eq_nil_of_step (h : step s = .done) : s = [] := by
  cases s with
  | nil => rfl
  | cons b s =>
    rw [step] at h
    split at h
    · cases h
    · split at h
      · cases h
      · exact absurd h (tail_ne_done _ _ _ _ _)

/-- The bytes after a lead byte lie above all bytes that stand for themselves, and what follows them does not matter. -/
theorem exists_of_tail {n : Nat} {lo hi : UInt8} {acc : Nat} (hlo : 0x80 ≤ lo) (h : tail n lo hi acc s = .char c r) :
    ∃ p, s = p ++ r ∧ (∀ b ∈ p, 0x80 ≤ b) ∧ ∀ x, tail n lo hi acc (p ++ x) = .char c x := by
  induction n generalizing lo hi acc s with
  | zero =>
    rw [tail] at h
    cases h
    exact ⟨[], rfl, by simp, fun _ => rfl⟩
  | succ n ih =>
    cases s with
    | nil => cases h
    | cons b s =>
      rw [tail] at h
      split at h
      · next hb =>
        obtain ⟨p, rfl, hp, hx⟩ := ih (by decide) h
        refine ⟨b :: p, rfl, List.forall_mem_cons.mpr ⟨UInt8.le_trans hlo hb.1, hp⟩, fun x => ?_⟩
        rw [List.cons_append, tail, if_pos hb, hx]
      · cases h

theorem le_lo {b : UInt8} {l : Lead} (h : lead? b = some l) : 0x80 ≤ l.lo := by
  rw [lead?] at h
  split_ifs at h <;> cases h
  all_goals
    dsimp only
    decide

/-- A character is a line feed or has none in it, and what follows it does not matter. -/
theorem exists_of_step (h : step s = .char c r) :
    ∃ p, s = p ++ r ∧ (p = [0x0A] ∨ 0x0A ∉ p) ∧ ∀ x, step (p ++ x) = .char c x := by
  cases s with
  | nil => cases h
  | cons b s =>
    rw [step] at h
    split at h
    · next hb =>
      cases h
      refine ⟨[b], rfl, ?_, fun x => by rw [List.singleton_append, step, if_pos hb]⟩
      rw [List.mem_singleton, List.cons.injEq, and_iff_left rfl]
      exact (eq_or_ne b 0x0A).imp_right Ne.symm
    · next hb =>
      split at h
      · cases h
      · next l hl =>
        obtain ⟨p, rfl, hp, hx⟩ := exists_of_tail (le_lo hl) h
        refine ⟨b :: p, rfl, .inr fun hmem => ?_, fun x => ?_⟩
        · rcases List.mem_cons.mp hmem with rfl | hmem
          · exact hb (by decide)
          · exact absurd (hp _ hmem) (by decide)
        · rw [List.cons_append, step, if_neg hb, hl]
          exact hx x

/-- Byte strings that are made of characters. -/
inductive Whole : Bytes → Prop
  | nil : Whole []
  | char {s r : Bytes} {c : Char} (h : step s = .char c r) (hr : Whole r) : Whole s

theorem isSome_chars?_iff (acc : List Char) (s : Bytes) : (chars? acc s).isSome ↔ Whole s := by
  fun_induction chars? acc s with
  | case1 acc s h =>
    rw [eq_nil_of_step h]
    exact ⟨fun _ => .nil, fun _ => rfl⟩
  | case2 acc s r h =>
    refine ⟨fun hnone => ?_, fun hs => ?_⟩
    · cases hnone
    · cases hs with
      | nil => cases h
      | char h' => cases h.symm.trans h'
  | case3 acc s c r h ih =>
    refine ih.trans ⟨.char h, fun hs => ?_⟩
    cases hs with
    | nil => cases h
    | char h' hr =>
      cases h.symm.trans h'
      exact hr

theorem isSome_decode?_iff : (decode? s).isSome ↔ Whole s := by
  rw [decode?, Option.isSome_map, isSome_chars?_iff]

theorem Whole.append (hs : Whole s) (hx : Whole x) : Whole (s ++ x) := by
  induction hs with
  | nil => exact hx
  | char h _ ih =>
    obtain ⟨p, rfl, -, hstep⟩ := exists_of_step h
    rw [List.append_assoc]
    exact .char (hstep _) ih

end Utf8

namespace Input

open Utf8

theorem lines_go_append {i : Input} {p : Bytes} (hp : 0x0A ∉ p) (line rest : Bytes) :
    Input.lines.go i line (p ++ rest) = Input.lines.go i (p.reverse ++ line) rest := by
  induction p generalizing line with
  | nil => rfl
  | cons b p ih =>
    have hb : ¬ b = 0x0A := fun h => hp (h ▸ List.mem_cons_self)
    rw [List.cons_append, Input.lines.go, if_neg hb, ih fun h => hp (List.mem_cons_of_mem _ h)]
    simp

/-- The line that was begun is a text, and what is to come is one. -/
theorem whole_of_mem_lines_go {i : Input} {line s : Bytes} (hline : Whole line.reverse) (hs : Whole s) :
    ∀ l ∈ (Input.lines.go i line s).1, Whole l := by
  induction hs generalizing line with
  | nil =>
    intro l hl
    rw [Input.lines.go] at hl
    split at hl
    · cases hl
    · rwa [List.mem_singleton.mp hl]
  | char h hr ih =>
    obtain ⟨p, rfl, hfeed | hnone, hstep⟩ := exists_of_step h
    · subst hfeed
      have hfeed : Whole [0x0A] := .char (hstep []) .nil
      have hended : Whole (0x0A :: line).reverse := by
        rw [List.reverse_cons]
        exact hline.append hfeed
      intro l hl
      rw [List.singleton_append, Input.lines.go, if_pos rfl] at hl
      rcases List.mem_cons.mp hl with rfl | hl
      · exact hended
      · exact @ih [] .nil l hl
    · rw [lines_go_append hnone]
      refine ih ?_
      rw [List.reverse_append, List.reverse_reverse]
      exact hline.append (by simpa using Whole.char (hstep []) .nil)

/-- The lines of a text are texts. -/
theorem isSome_decode?_of_mem_lines {i : Input} (h : (decode? i.bytes).isSome) :
    ∀ l ∈ i.lines.1, (decode? l).isSome := fun l hl =>
  isSome_decode?_iff.mpr (@whole_of_mem_lines_go i [] _ .nil (isSome_decode?_iff.mp h) l hl)

theorem failure_lines_go (i : Input) (line s : Bytes) : (Input.lines.go i line s).2 = i.failure := by
  induction s generalizing line with
  | nil => rfl
  | cons b s ih =>
    rw [Input.lines.go]
    split
    · exact ih []
    · exact ih (b :: line)

theorem failure_lines (i : Input) : i.lines.2 = i.failure := failure_lines_go i [] i.bytes

end Input
end EditorAgent

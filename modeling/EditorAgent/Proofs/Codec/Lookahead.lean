import EditorAgent.Proofs.Codec.Progress
import Mathlib.Data.List.Basic

/-!
# Readers do not look ahead

What a reader takes off the front of a message does not depend on the bytes that follow: it takes the same from
any longer input. Only the end of a JSON number is seen from the byte after it, so a JSON reader is sure of what it
took if something is left. Here are the notions, and the strings and numbers of JSON.
-/

namespace EditorAgent

variable {α β σ : Type}

/-- A reading that takes the same from any longer input, if it leaves what is fit to follow. -/
def Local (ok : Bytes → Prop) (read : Bytes → Option (α × Bytes)) : Prop :=
  ∀ ⦃s a r⦄, read s = some (a, r) → ok r → ∀ q, read (s ++ q) = some (a, r ++ q)

/-- Something is left. -/
abbrev Followed (s : Bytes) : Prop := s ≠ []

abbrev Anything (_ : Bytes) : Prop := True

namespace Local

variable {ok : Bytes → Prop} {read : Bytes → Option (α × Bytes)}

theorem map (h : Local ok read) (f : α → β) : Local ok fun s => (read s).map fun x => (f x.1, x.2) := by
  intro s b r hb hr q
  obtain ⟨⟨a, r⟩, ha, ⟨⟩⟩ := Option.map_eq_some_iff.mp hb
  dsimp only
  rw [h ha hr]
  rfl

/-- What is sure whatever follows is sure if something does. -/
theorem weaken (h : Local Anything read) : Local ok read := fun _ _ _ ha _ q => h ha trivial q

end Local

/-- A reader that is local at every depth and only reads what opens a value. -/
structure Reader.Local (opens ok : Bytes → Prop) (read : Reader α) : Prop where
  opened : ∀ {depth s x}, read depth s = some x → opens s
  append : ∀ depth, EditorAgent.Local ok (read depth)

theorem Reader.Local.map {opens ok : Bytes → Prop} {read : Reader α} (h : read.Local opens ok) (f : α → β) :
    (read.map f).Local opens ok where
  opened hb := by
    unfold Reader.map at hb
    split at hb
    · next ha => exact h.opened ha
    · cases hb
  append := by
    intro depth s b r hb hr q
    unfold Reader.map at hb ⊢
    split at hb
    · next a r' ha =>
      cases hb
      rw [h.append depth ha hr]
    · cases hb

theorem Reader.Local.of_nil {ok : Bytes → Prop} {read : Reader α} (hnil : ∀ depth, read depth [] = none)
    (h : ∀ depth, EditorAgent.Local ok (read depth)) : read.Local Followed ok where
  opened {depth s x} hs := by
    rintro rfl
    cases (hnil depth).symm.trans hs
  append := h

theorem Reader.Local.nil {ok : Bytes → Prop} {read : Reader α} (h : read.Local Followed ok) (depth : Nat) :
    read depth [] = none := by
  cases hnil : read depth [] with
  | none => rfl
  | some x => exact absurd rfl (h.opened hnil)

theorem Reader.Local.weaken {opens ok : Bytes → Prop} {read : Reader α} (h : read.Local opens Anything) :
    read.Local opens ok :=
  ⟨h.opened, fun depth => (h.append depth).weaken⟩

/-- A dialect whose readers are local. Its tables and records show where they end. -/
structure Dialect.Local (opens ok : Bytes → Prop) (d : Dialect) : Prop where
  text : d.text.Local opens ok
  bool : d.bool.Local opens ok
  natural : d.natural.Local opens ok
  integer : d.integer.Local opens ok
  source : d.source.Local opens ok
  unit : d.unit.Local opens ok
  choice (names : List String) : (d.choice names).Local opens ok
  value : d.value.Local opens ok
  native : d.native.Local opens ok
  optional {α : Type} {read : Reader α} (h : read.Local opens ok) : (d.optional read).Local opens ok
  list {α : Type} {read : Reader α} (h : read.Local opens ok) : (d.list read).Local opens ok
  table {α : Type} {read : Reader α} (h : read.Local opens ok) : (d.table read).Local opens Anything
  record {σ : Type} {fields : List (Field σ)} (zero : σ) (h : ∀ f ∈ fields, f.read.Local opens ok) :
    (d.record fields zero).Local opens Anything

theorem Draft.enter_local {opens ok : Bytes → Prop} {f : Field σ} (hf : f.read.Local opens ok) (p : Draft σ)
    (depth : Nat) : Local ok (p.enter f depth) := by
  intro s p' r h hr q
  unfold Draft.enter at h ⊢
  split at h
  · cases h
  next hseen =>
  rw [if_neg hseen]
  split at h
  · next set r' hset =>
    cases h
    rw [hf.append depth hset hr]
  · cases h

theorem Draft.enter_opened {opens ok : Bytes → Prop} {f : Field σ} (hf : f.read.Local opens ok) {p : Draft σ}
    {depth : Nat} {s : Bytes} {x : Draft σ × Bytes} (h : p.enter f depth s = some x) : opens s := by
  unfold Draft.enter at h
  split at h
  · cases h
  split at h
  · next hset => exact hf.opened hset
  · cases h

namespace Json

variable {s r : Bytes}

/-! ## Strings -/

theorem stringBytes_escape {acc : Bytes} {b : UInt8} (hb : b ≠ 0x75) (s : Bytes) :
    stringBytes acc (0x5C :: b :: s) = match simpleEscape? b with
      | some c => stringBytes (c :: acc) s
      | none => none :=
  stringBytes.eq_4 acc b s fun _ _ _ _ _ hu => absurd hu hb

theorem stringBytes_plain {acc : Bytes} {b : UInt8} (hquote : b ≠ 0x22) (hslash : b ≠ 0x5C) (s : Bytes) :
    stringBytes acc (b :: s) = if b < 0x20 then none else stringBytes (b :: acc) s := by
  rw [stringBytes]
  · exact hquote
  · exact fun _ _ _ _ _ hb => absurd hb hslash
  · exact fun _ _ hb => absurd hb hslash

theorem ne_u_of_simpleEscape {b c : UInt8} (h : simpleEscape? b = some c) : b ≠ 0x75 := by
  rintro rfl
  cases h

theorem local_stringBytes (acc : Bytes) : Local Anything (stringBytes acc) := by
  intro s b r h _ q
  fun_induction stringBytes acc s
  all_goals try contradiction
  all_goals simp only [List.cons_append]
  case case10 hesc ih =>
    rw [stringBytes_escape (ne_u_of_simpleEscape hesc), hesc]
    exact ih h
  case case13 acc c s hquote _ hescape hlow ih =>
    -- A backslash at the end opens nothing.
    have hslash : c ≠ 0x5C := by
      cases s with
      | nil => cases h
      | cons x s => exact fun hc => hescape x s hc rfl
    rw [stringBytes_plain hquote hslash, if_neg hlow]
    exact ih h
  all_goals
    rw [stringBytes]
    simp_all

theorem local_string : Local Anything string := by
  intro s t r h _ q
  unfold string at h ⊢
  split at h
  · next b r' hb =>
    rw [local_stringBytes [] hb trivial]
    obtain ⟨t', ht, ⟨⟩⟩ := Option.map_eq_some_iff.mp h
    dsimp only
    rw [ht]
    rfl
  · cases h

theorem skipString_append (h : skipString s = some r) (q : Bytes) : skipString (s ++ q) = some (r ++ q) := by
  fun_induction skipString s
  all_goals try contradiction
  all_goals simp only [List.cons_append]
  case case5 b s _ hesc ih =>
    obtain ⟨c, hc⟩ := Option.isSome_iff_exists.mp hesc
    rw [skipString, if_pos hesc]
    · exact ih h
    · exact fun _ _ _ _ _ hu => absurd hu (ne_u_of_simpleEscape hc)
  case case8 c s hquote _ hescape hlow ih =>
    have hslash : c ≠ 0x5C := by
      cases s with
      | nil => cases h
      | cons x s => exact fun hc => hescape x s hc rfl
    rw [skipString, if_neg hlow]
    · exact ih h
    · exact hquote
    · exact fun _ _ _ _ _ hb => absurd hb hslash
    · exact fun _ _ hb => absurd hb hslash
  all_goals
    rw [skipString]
    simp_all

/-! ## Numbers -/

theorem startsDigit_append (h : s ≠ []) (q : Bytes) : startsDigit (s ++ q) = startsDigit s := by
  cases s with
  | nil => exact absurd rfl h
  | cons b s => rfl

theorem dropDigits_append (h : dropDigits s ≠ []) (q : Bytes) : dropDigits (s ++ q) = dropDigits s ++ q := by
  unfold dropDigits at h ⊢
  rw [List.dropWhile_append, if_neg (by simpa using h)]

theorem accumulate_append {sig n : Nat} (h : (accumulate sig n s).2.2 ≠ []) (q : Bytes) :
    accumulate sig n (s ++ q) =
      ((accumulate sig n s).1, (accumulate sig n s).2.1, (accumulate sig n s).2.2 ++ q) := by
  fun_induction accumulate sig n s with
  | case1 => exact absurd rfl h
  | case2 sig n c s hc ih =>
    rw [List.cons_append, accumulate, if_pos hc]
    exact ih h
  | case3 sig n c s hc => rw [List.cons_append, accumulate, if_neg hc]

theorem exponentDigits_append {e : Nat} (h : (exponentDigits e s).2 ≠ []) (q : Bytes) :
    exponentDigits e (s ++ q) = ((exponentDigits e s).1, (exponentDigits e s).2 ++ q) := by
  fun_induction exponentDigits e s with
  | case1 => exact absurd rfl h
  | case2 e c s hc hfits ih =>
    rw [List.cons_append, exponentDigits, if_pos hc, if_pos hfits]
    exact ih h
  | case3 e c s hc hfits =>
    rw [List.cons_append, exponentDigits, if_pos hc, if_neg hfits, dropDigits_append h]
  | case4 e c s hc => rw [List.cons_append, exponentDigits, if_neg hc]

/-- The digits of an exponent after its sign. -/
def unsignedExponent (x : Scientific) (neg : Bool) (s : Bytes) : Option (Nat × Bytes) :=
  if !startsDigit s then none
  else match exponentDigits 0 s with
    | (some e, r) => (Decimal.scaled x.sig (if neg then x.exp - e else x.exp + e)).map (·, r)
    | (none, r) => if x.sig ≠ 0 && !neg then none else some (0, r)

theorem exponent_cons (x : Scientific) (b : UInt8) (s : Bytes) : exponent x (b :: s) =
    if b = 0x2B then unsignedExponent x false s
    else if b = 0x2D then unsignedExponent x true s
    else unsignedExponent x false (b :: s) := by
  by_cases hplus : b = 0x2B
  · subst hplus
    rfl
  by_cases hminus : b = 0x2D
  · subst hminus
    rfl
  rw [if_neg hplus, if_neg hminus]
  unfold exponent
  split
  next neg r hsign =>
  split at hsign
  · next heq =>
    cases heq
    exact absurd rfl hplus
  · next heq =>
    cases heq
    exact absurd rfl hminus
  · cases hsign
    rfl

theorem afterDigits_cons (x : Scientific) (b : UInt8) (s : Bytes) : afterDigits x (b :: s) =
    if b = 0x65 ∨ b = 0x45 then exponent x s else (Decimal.scaled x.sig x.exp).map (·, b :: s) := by
  unfold afterDigits
  split <;> simp_all

theorem afterInteger_cons (neg : Bool) (sig : Nat) (b : UInt8) (s : Bytes) : afterInteger neg sig (b :: s) =
    if b = 0x2E then (fraction ⟨sig, 0⟩ s).map fun x => (signed neg x.1, x.2)
    else if b = 0x65 ∨ b = 0x45 then (exponent ⟨sig, 0⟩ s).map fun x => (signed neg x.1, x.2)
    else some (integer neg sig, b :: s) := by
  unfold afterInteger
  split <;> simp_all

theorem magnitude_cons (neg : Bool) (b : UInt8) (s : Bytes) : magnitude neg (b :: s) =
    if b = 0x30 then if startsDigit s then none else afterInteger neg 0 s
    else if isDigit b then
      if startsDigit (accumulate 0 0 (b :: s)).2.2 then
        longInteger neg (accumulate 0 0 (b :: s)).1 (accumulate 0 0 (b :: s)).2.2
      else afterInteger neg (accumulate 0 0 (b :: s)).1 (accumulate 0 0 (b :: s)).2.2
    else none := by
  unfold magnitude
  split
  · next heq =>
    cases heq
    rw [if_pos rfl]
  · next hzero =>
    have hb : b ≠ 0x30 := fun hb => hzero s (by rw [hb])
    rw [if_neg hb]
    rfl

theorem number_cons (b : UInt8) (s : Bytes) :
    number (b :: s) = if b = 0x2D then magnitude true s else magnitude false (b :: s) := by
  unfold number
  split <;> simp_all

theorem local_unsignedExponent (x : Scientific) (neg : Bool) : Local Followed (unsignedExponent x neg) := by
  intro s e r h hr q
  unfold unsignedExponent at h ⊢
  have hs : s ≠ [] := by
    rintro rfl
    cases h
  rw [startsDigit_append hs]
  split at h
  · cases h
  next hd =>
  rw [if_neg hd]
  have hdigits := @exponentDigits_append s 0
  revert hdigits h
  generalize exponentDigits 0 s = digits
  obtain ⟨_ | n, t⟩ := digits <;> intro h hdigits <;> dsimp only at h hdigits
  · split at h
    · cases h
    · next hbig =>
      cases h
      rw [hdigits hr]
      exact if_neg hbig
  · obtain ⟨m, hm, ⟨⟩⟩ := Option.map_eq_some_iff.mp h
    rw [hdigits hr]
    dsimp only
    rw [hm]
    rfl

theorem local_exponent (x : Scientific) : Local Followed (exponent x) := by
  intro s e r h hr q
  cases s with
  | nil => cases h
  | cons b s =>
    rw [exponent_cons] at h
    rw [List.cons_append, exponent_cons]
    split_ifs at h ⊢
    all_goals exact local_unsignedExponent _ _ h hr q

theorem ne_nil_of_afterDigits {x : Scientific} {e : Nat} (h : afterDigits x s = some (e, r)) (hr : r ≠ []) :
    s ≠ [] := by
  rintro rfl
  obtain ⟨_, -, ⟨⟩⟩ := Option.map_eq_some_iff.mp h
  exact hr rfl

theorem local_afterDigits (x : Scientific) : Local Followed (afterDigits x) := by
  intro s e r h hr q
  cases s with
  | nil => exact absurd rfl (ne_nil_of_afterDigits h hr)
  | cons b s =>
    rw [afterDigits_cons] at h
    rw [List.cons_append, afterDigits_cons]
    split_ifs at h ⊢
    · exact local_exponent x h hr q
    · obtain ⟨_, hm, ⟨⟩⟩ := Option.map_eq_some_iff.mp h
      rw [hm]
      rfl

theorem local_fraction (x : Scientific) : Local Followed (fraction x) := by
  intro s e r h hr q
  unfold fraction at h ⊢
  have hdigits := @accumulate_append s x.sig 0
  generalize accumulate x.sig 0 s = digits at h hdigits
  obtain ⟨sig, n, t⟩ := digits
  dsimp only at h hdigits
  have ht : t ≠ [] := by
    rintro rfl
    rw [if_neg (by decide)] at h
    split at h
    · cases h
    · exact ne_nil_of_afterDigits h hr rfl
  rw [hdigits ht]
  dsimp only
  rw [startsDigit_append ht]
  split_ifs at h ⊢
  · rw [dropDigits_append (ne_nil_of_afterDigits h hr)]
    exact local_afterDigits _ h hr q
  · exact local_afterDigits _ h hr q

theorem ne_nil_of_afterInteger {neg : Bool} {sig : Nat} {v : Value} (h : afterInteger neg sig s = some (v, r))
    (hr : r ≠ []) : s ≠ [] := by
  rintro rfl
  cases h
  exact hr rfl

theorem local_afterInteger (neg : Bool) (sig : Nat) : Local Followed (afterInteger neg sig) := by
  intro s v r h hr q
  cases s with
  | nil => exact absurd rfl (ne_nil_of_afterInteger h hr)
  | cons b s =>
    rw [afterInteger_cons] at h
    rw [List.cons_append, afterInteger_cons]
    split_ifs at h ⊢
    · exact (local_fraction _).map _ h hr q
    · exact (local_exponent _).map _ h hr q
    · cases h
      rfl

theorem local_longInteger (neg : Bool) (sig : Nat) : Local Followed (longInteger neg sig) := by
  intro s v r h hr q
  unfold longInteger at h ⊢
  obtain ⟨⟨e, r'⟩, hx, ⟨⟩⟩ := Option.map_eq_some_iff.mp h
  have hdrop : dropDigits s ≠ [] := by
    intro hnil
    rw [hnil] at hx
    exact ne_nil_of_afterDigits hx hr rfl
  have hlen : (s ++ q).length - (dropDigits s ++ q).length = s.length - (dropDigits s).length := by
    rw [List.length_append, List.length_append]
    omega
  dsimp only
  rw [dropDigits_append hdrop, hlen]
  generalize dropDigits s = t at hx hdrop
  cases t with
  | nil => exact absurd rfl hdrop
  | cons b t =>
    dsimp only [List.cons_append] at hx ⊢
    split at hx
    · next heq =>
      cases heq
      have hfraction := local_fraction _ hx hr q
      change Option.map _ (fraction _ (t ++ q)) = _
      rw [hfraction]
      rfl
    · next hpoint =>
      split
      · next heq =>
        cases heq
        exact absurd rfl (hpoint _)
      · rw [← List.cons_append, local_afterDigits _ hx hr]
        rfl

theorem local_magnitude (neg : Bool) : Local Followed (magnitude neg) := by
  intro s v r h hr q
  cases s with
  | nil => cases h
  | cons b s =>
    rw [magnitude_cons] at h
    rw [List.cons_append, magnitude_cons]
    by_cases hzero : b = 0x30
    · rw [if_pos hzero] at h ⊢
      split at h
      · cases h
      · next hd =>
        rw [startsDigit_append (ne_nil_of_afterInteger h hr), if_neg hd]
        exact local_afterInteger _ _ h hr q
    · rw [if_neg hzero] at h ⊢
      split at h
      · next hb =>
        rw [if_pos hb]
        have hrest : (accumulate 0 0 (b :: s)).2.2 ≠ [] := by
          intro hnil
          rw [hnil, if_neg (by decide)] at h
          exact ne_nil_of_afterInteger h hr rfl
        rw [← List.cons_append, accumulate_append hrest]
        dsimp only
        rw [startsDigit_append hrest]
        split_ifs at h ⊢
        · exact local_longInteger _ _ h hr q
        · exact local_afterInteger _ _ h hr q
      · cases h

theorem local_number : Local Followed number := by
  intro s v r h hr q
  cases s with
  | nil => cases h
  | cons b s =>
    rw [number_cons] at h
    rw [List.cons_append, number_cons]
    split_ifs at h ⊢
    · exact local_magnitude _ h hr q
    · exact local_magnitude _ h hr q

/-- What follows an exponent after its mark. -/
def skipExponent (s : Bytes) : Option Bytes :=
  let r := match s with
    | 0x2B :: r => r
    | 0x2D :: r => r
    | r => r
  if startsDigit r then some (dropDigits r) else none

/-- What follows the digits of a number. -/
def skipScale (s : Bytes) : Option Bytes :=
  match s with
  | 0x65 :: r => skipExponent r
  | 0x45 :: r => skipExponent r
  | r => some r

/-- What follows the digits before the point. -/
def skipWhole (s : Bytes) : Option Bytes :=
  match s with
  | 0x30 :: r => if startsDigit r then none else some r
  | s => if startsDigit s then some (dropDigits s) else none

/-- What follows a number after its sign. -/
def skipMagnitude (s : Bytes) : Option Bytes :=
  match skipWhole s with
  | none => none
  | some (0x2E :: r) => if startsDigit r then skipScale (dropDigits r) else none
  | some r => skipScale r

theorem skipNumber_cons (b : UInt8) (s : Bytes) :
    skipNumber (b :: s) = if b = 0x2D then skipMagnitude s else skipMagnitude (b :: s) := by
  by_cases hminus : b = 0x2D
  · subst hminus
    rfl
  rw [if_neg hminus]
  unfold skipNumber
  split
  · next heq =>
    cases heq
    exact absurd rfl hminus
  · rfl

theorem skipDigits_append (h : (if startsDigit s then some (dropDigits s) else none) = some r) (hr : r ≠ [])
    (q : Bytes) : (if startsDigit (s ++ q) then some (dropDigits (s ++ q)) else none) = some (r ++ q) := by
  split at h
  · next hd =>
    cases h
    have hs : s ≠ [] := by
      rintro rfl
      cases hd
    rw [startsDigit_append hs, if_pos hd, dropDigits_append hr]
  · cases h

theorem skipExponent_append (h : skipExponent s = some r) (hr : r ≠ []) (q : Bytes) :
    skipExponent (s ++ q) = some (r ++ q) := by
  have hcons (b : UInt8) (t : Bytes) : skipExponent (b :: t) = if b = 0x2B ∨ b = 0x2D then
      if startsDigit t then some (dropDigits t) else none
      else if startsDigit (b :: t) then some (dropDigits (b :: t)) else none := by
    unfold skipExponent
    split <;> simp_all
  cases s with
  | nil => cases h
  | cons b t =>
    rw [hcons] at h
    rw [List.cons_append, hcons]
    split at h
    · next hsign =>
      rw [if_pos hsign]
      exact skipDigits_append h hr q
    · next hsign =>
      rw [if_neg hsign]
      exact skipDigits_append h hr q

theorem skipScale_append (h : skipScale s = some r) (hr : r ≠ []) (q : Bytes) :
    skipScale (s ++ q) = some (r ++ q) := by
  have hcons (b : UInt8) (t : Bytes) : skipScale (b :: t) =
      if b = 0x65 ∨ b = 0x45 then skipExponent t else some (b :: t) := by
    unfold skipScale
    split <;> simp_all
  cases s with
  | nil =>
    cases h
    exact absurd rfl hr
  | cons b t =>
    rw [hcons] at h
    rw [List.cons_append, hcons]
    split_ifs at h ⊢
    · exact skipExponent_append h hr q
    · cases h
      rfl

theorem skipWhole_append (h : skipWhole s = some r) (hr : r ≠ []) (q : Bytes) :
    skipWhole (s ++ q) = some (r ++ q) := by
  have hcons (b : UInt8) (t : Bytes) : skipWhole (b :: t) = if b = 0x30 then
      if startsDigit t then none else some t
      else if startsDigit (b :: t) then some (dropDigits (b :: t)) else none := by
    unfold skipWhole
    split <;> simp_all
  cases s with
  | nil => cases h
  | cons b t =>
    rw [hcons] at h
    rw [List.cons_append, hcons]
    split at h
    · next hzero =>
      rw [if_pos hzero]
      split at h
      · cases h
      · next hd =>
        cases h
        rw [startsDigit_append hr, if_neg hd]
    · next hzero =>
      rw [if_neg hzero]
      exact skipDigits_append h hr q

theorem skipMagnitude_append (h : skipMagnitude s = some r) (hr : r ≠ []) (q : Bytes) :
    skipMagnitude (s ++ q) = some (r ++ q) := by
  unfold skipMagnitude at h ⊢
  have hscale {t : Bytes} (ht : skipScale t = some r) : t ≠ [] := by
    rintro rfl
    cases ht
    exact hr rfl
  split at h
  · cases h
  · next t ht =>
    rw [skipWhole_append ht (by simp)]
    split at h
    · next hd =>
      have hdrop := hscale h
      have ht : t ≠ [] := by
        rintro rfl
        exact hdrop rfl
      change (if startsDigit (t ++ q) then skipScale (dropDigits (t ++ q)) else none) = _
      rw [startsDigit_append ht, if_pos hd, dropDigits_append hdrop]
      exact skipScale_append h hr q
    · cases h
  · next t hpoint ht =>
    rw [skipWhole_append ht (hscale h)]
    cases t with
    | nil => exact absurd rfl (hscale h)
    | cons b t =>
      dsimp only [List.cons_append]
      split
      · next heq => cases heq
      · next heq =>
        cases heq
        exact absurd rfl (hpoint _)
      · next heq =>
        cases heq
        exact skipScale_append h hr q

theorem skipNumber_append (h : skipNumber s = some r) (hr : r ≠ []) (q : Bytes) :
    skipNumber (s ++ q) = some (r ++ q) := by
  cases s with
  | nil => cases h
  | cons b s =>
    rw [skipNumber_cons] at h
    rw [List.cons_append, skipNumber_cons]
    split_ifs at h ⊢
    · exact skipMagnitude_append h hr q
    · exact skipMagnitude_append h hr q

end Json
end EditorAgent

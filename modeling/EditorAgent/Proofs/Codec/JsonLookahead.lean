import EditorAgent.Proofs.Codec.Lookahead
import Mathlib.Data.List.Basic

/-!
# JSON readers do not look ahead

The loops over lists, over objects and over what is passed over are one loop, `series`. What a value or a record
takes follows from it.
-/

namespace EditorAgent

variable {α β σ : Type}

namespace Json

variable {s r : Bytes}

/-! ## Containers -/

theorem skipSpace_cons {b : UInt8} (hb : isSpace b = false) (s : Bytes) : skipSpace (b :: s) = b :: s := by
  rw [skipSpace, List.dropWhile_cons, hb]
  rfl

theorem isSpace_of_skipSpace {b : UInt8} {t : Bytes} (h : skipSpace s = b :: t) : isSpace b = false := by
  have hhead := List.head?_dropWhile_not isSpace s
  rw [skipSpace] at h
  rw [h] at hhead
  exact hhead

theorem skipSpace_skipSpace (s : Bytes) : skipSpace (skipSpace s) = skipSpace s := by
  cases hs : skipSpace s with
  | nil => rfl
  | cons b t => exact skipSpace_cons (isSpace_of_skipSpace hs) t

theorem skipSpace_append (h : skipSpace s ≠ []) (q : Bytes) : skipSpace (s ++ q) = skipSpace s ++ q := by
  unfold skipSpace at h ⊢
  rw [List.dropWhile_append, if_neg (by simpa using h)]

/-- Past the blanks there is nothing, or there is a byte that is the first one of a longer input, too. -/
theorem skipSpace_cases (s q : Bytes) :
    skipSpace s = [] ∨ ∃ b t, skipSpace s = b :: t ∧ skipSpace (s ++ q) = b :: (t ++ q) := by
  cases hs : skipSpace s with
  | nil => exact .inl rfl
  | cons b t => exact .inr ⟨b, t, rfl, by rw [skipSpace_append (by simp [hs]), hs, List.cons_append]⟩

theorem keyword_append {w : Bytes} (h : keyword w s = some r) (q : Bytes) :
    keyword w (s ++ q) = some (r ++ q) := by
  unfold keyword at h ⊢
  split at h
  · next hw =>
    cases h
    have hpre : w <+: s := by simpa using hw
    rw [if_pos (by simpa using hpre.trans (s.prefix_append q)), List.drop_append_of_le_length hpre.length_le]
  · cases h

theorem local_keyword (w : Bytes) (a : α) : Local Anything fun s => (keyword w s).map (a, ·) := by
  intro s b r h _ q
  obtain ⟨r, hr, ⟨⟩⟩ := Option.map_eq_some_iff.mp h
  dsimp only
  rw [keyword_append hr]
  rfl

/-- The items of a container after its opening mark, up to the mark that closes it. -/
def series (close : UInt8) (item : Bool → σ → Bytes → Option (σ × Bytes)) : Nat → Bool → σ → Bytes →
    Option (σ × Bytes)
  | 0, _, _, _ => none
  | fuel + 1, first, acc, s =>
    match skipSpace s with
    | [] => if first then (item true acc []).bind fun x => series close item fuel false x.1 x.2 else none
    | b :: t =>
      if b = close then some (acc, t)
      else if b = 0x2C ↔ first then none
      else (item first acc (if first then b :: t else t)).bind fun x => series close item fuel false x.1 x.2

/-- An item of a list; no comma stands before the closing bracket. -/
def listItem (item : σ → Bytes → Option (σ × Bytes)) (first : Bool) (acc : σ) (s : Bytes) : Option (σ × Bytes) :=
  if first then item acc s
  else match skipSpace s with
    | 0x5D :: _ => none
    | s => item acc s

theorem listItem_of_not_close (item : σ → Bytes → Option (σ × Bytes)) (acc : σ)
    (h : ∀ t, skipSpace s = 0x5D :: t → False) : listItem item false acc s = item acc (skipSpace s) := by
  rw [listItem, if_neg (by decide)]
  split
  · next ht => exact absurd ht (h _)
  · rfl

theorem items_eq_series (item : σ → Bytes → Option (σ × Bytes)) (fuel : Nat)
    (first : Bool) (acc : σ) (s : Bytes) :
    items item fuel first acc s = series 0x5D (listItem item) fuel first acc s := by
  induction fuel generalizing first acc s with
  | zero => rfl
  | succ fuel ih =>
    rw [items, series]
    cases hs : skipSpace s with
    | nil =>
      cases first
      · rfl
      · dsimp only
        rw [if_pos rfl, if_pos rfl, listItem, if_pos rfl]
        cases item acc [] with
        | none => rfl
        | some x => exact ih false x.1 x.2
    | cons b t =>
      dsimp only
      split
      · next heq =>
        cases heq
        rfl
      · next heq =>
        cases heq
        cases first
        · rw [if_neg (by decide), if_neg (by decide), if_neg (by decide), if_neg (by decide)]
          split
          · next ht =>
            rw [listItem, ht]
            rfl
          · next hclose =>
            rw [listItem_of_not_close _ _ hclose]
            cases item acc (skipSpace t) with
            | none => rfl
            | some x => exact ih false x.1 x.2
        · rfl
      · next hclose hcomma =>
        have hne : b ≠ 0x5D := fun hb => hclose t (by rw [hb])
        have hb : b ≠ 0x2C := fun hb => hcomma t (by rw [hb])
        rw [if_neg hne]
        cases first
        · exact (if_pos (by simpa using hb)).symm
        · rw [if_pos rfl, if_neg (by simpa using hb), if_pos rfl, listItem, if_pos rfl]
          cases item acc (b :: t) with
          | none => rfl
          | some x => exact ih false x.1 x.2

/-- An entry of an object. -/
def objectEntry (entry : σ → String → Bytes → Option (σ × Bytes)) (first : Bool) (acc : σ) (s : Bytes) :
    Option (σ × Bytes) :=
  (key (if first then s else skipSpace s)).bind fun x => entry acc x.1 x.2

theorem entries_eq_series (entry : σ → String → Bytes → Option (σ × Bytes)) (fuel : Nat) (first : Bool) (acc : σ)
    (s : Bytes) : entries entry fuel first acc s = series 0x7D (objectEntry entry) fuel first acc s := by
  induction fuel generalizing first acc s with
  | zero => rfl
  | succ fuel ih =>
    rw [entries, series]
    cases hs : skipSpace s with
    | nil => cases first <;> rfl
    | cons b t =>
      dsimp only
      split
      · next heq =>
        cases heq
        rfl
      · next heq =>
        cases heq
        cases first
        · rw [if_neg (by decide), if_neg (by decide), if_neg (by decide), if_neg (by decide), objectEntry,
            if_neg (by decide)]
          cases key (skipSpace t) with
          | none => rfl
          | some x =>
            dsimp only [Option.bind_some]
            cases entry acc x.1 x.2 with
            | none => rfl
            | some y => exact ih false y.1 y.2
        · rfl
      · next hclose hcomma =>
        have hne : b ≠ 0x7D := fun hb => hclose t (by rw [hb])
        have hb : b ≠ 0x2C := fun hb => hcomma t (by rw [hb])
        rw [if_neg hne]
        cases first
        · exact (if_pos (by simpa using hb)).symm
        · rw [if_pos rfl, if_neg (by simpa using hb), if_pos rfl, objectEntry, if_pos rfl]
          cases key (b :: t) with
          | none => rfl
          | some x =>
            dsimp only [Option.bind_some]
            cases entry acc x.1 x.2 with
            | none => rfl
            | some y => exact ih false y.1 y.2

theorem skip_loop_eq_series (entry : Bool → Bytes → Option Bytes) (hnil : ∀ first, entry first [] = none)
    (fuel : Nat) (first : Bool) (s : Bytes) : skip.loop entry fuel first s =
      (series 0x7D (fun first _ s => (entry first s).map ((), ·)) fuel first () s).map (·.2) := by
  induction fuel generalizing first s with
  | zero => rfl
  | succ fuel ih =>
    rw [skip.loop, series]
    cases hs : skipSpace s with
    | nil => cases first <;> simp [hnil]
    | cons b t =>
      dsimp only
      split
      · next heq =>
        cases heq
        rfl
      · next heq =>
        cases heq
        cases first
        · rw [if_neg (by decide), if_neg (by decide), if_neg (by decide), if_neg (by decide)]
          cases entry false t with
          | none => rfl
          | some r => exact ih false r
        · rfl
      · next hclose hcomma =>
        have hne : b ≠ 0x7D := fun hb => hclose t (by rw [hb])
        have hb : b ≠ 0x2C := fun hb => hcomma t (by rw [hb])
        rw [if_neg hne]
        cases first
        · rw [if_neg (by decide), if_pos (by simpa using hb)]
          rfl
        · rw [if_pos rfl, if_neg (by simpa using hb), if_pos rfl]
          cases entry true (b :: t) with
          | none => rfl
          | some r => exact ih false r

/-- `later` takes from a longer input what `now` takes from an input, if `now` leaves what is fit to follow. -/
def Extends (ok : Bytes → Prop) (q : Bytes) (now later : Bytes → Option (σ × Bytes)) : Prop :=
  ∀ ⦃s a r⦄, now s = some (a, r) → ok r → later (s ++ q) = some (a, r ++ q)

theorem series_append {close : UInt8} {now later : Bool → σ → Bytes → Option (σ × Bytes)} {q : Bytes}
    (hnil : ∀ acc, now true acc [] = none)
    (hitem : ∀ first acc, Extends Followed q (now first acc) (later first acc)) {fuel fuel' : Nat} {first : Bool}
    {acc acc' : σ} (h : series close now fuel first acc s = some (acc', r)) (hfuel : fuel ≤ fuel') :
    series close later fuel' first acc (s ++ q) = some (acc', r ++ q) := by
  induction fuel generalizing first acc s fuel' with
  | zero => cases h
  | succ fuel ih =>
    obtain ⟨fuel', rfl⟩ : ∃ n, fuel' = n + 1 := ⟨fuel' - 1, by omega⟩
    rw [series] at h ⊢
    obtain hs | ⟨b, t, hs, hsq⟩ := skipSpace_cases s q
    · rw [hs] at h
      cases first
      · cases h
      · dsimp only at h
        rw [if_pos rfl, hnil] at h
        cases h
    · rw [hs] at h
      rw [hsq]
      dsimp only at h ⊢
      split at h
      · next hb =>
        cases h
        exact if_pos hb
      next hclose =>
      rw [if_neg hclose]
      split at h
      · cases h
      next hcomma =>
      rw [if_neg hcomma]
      obtain ⟨⟨a, u⟩, ha, hrest⟩ := Option.bind_eq_some_iff.mp h
      -- What closes the container is still to come.
      have hne : u ≠ [] := by
        rintro rfl
        cases fuel <;> cases hrest
      have hlater := hitem first acc ha hne
      cases first <;> exact Option.bind_eq_some_iff.mpr ⟨_, hlater, ih hrest (by omega)⟩

theorem local_key : Local Anything key := by
  intro s k r h _ q
  unfold key at h
  split at h
  · next s =>
    split at h
    · next hk =>
      split at h
      · next t ht =>
        cases h
        rw [List.cons_append, key, local_string hk trivial]
        dsimp only
        rw [skipSpace_append (by simp [ht]), ht]
        rfl
      · cases h
    · cases h
  · cases h

theorem listItem_append {ok : Bytes → Prop} {now later : σ → Bytes → Option (σ × Bytes)} {q : Bytes}
    (hnil : ∀ acc, now acc [] = none) (hitem : ∀ acc, Extends ok q (now acc) (later acc)) (first : Bool) (acc : σ) :
    Extends ok q (listItem now first acc) (listItem later first acc) := by
  intro s a r ha hr
  unfold listItem at ha ⊢
  cases first
  · rw [if_neg (by decide)] at ha ⊢
    obtain hs | ⟨b, t, hs, hsq⟩ := skipSpace_cases s q
    · rw [hs] at ha
      exact absurd ha (by simp [hnil])
    rw [hs] at ha
    rw [hsq]
    split at ha
    · cases ha
    · next hclose =>
      split
      · next heq =>
        cases heq
        exact absurd rfl (hclose _)
      · exact hitem acc ha hr
  · exact hitem acc ha hr

theorem items_append {now later : σ → Bytes → Option (σ × Bytes)} {q : Bytes} (hnil : ∀ acc, now acc [] = none)
    (hitem : ∀ acc, Extends Followed q (now acc) (later acc)) {fuel fuel' : Nat} {first : Bool} {acc acc' : σ}
    (h : items now fuel first acc s = some (acc', r)) (hfuel : fuel ≤ fuel') :
    items later fuel' first acc (s ++ q) = some (acc', r ++ q) := by
  rw [items_eq_series] at h ⊢
  exact series_append hnil (listItem_append hnil hitem) h hfuel

theorem entries_append {now later : σ → String → Bytes → Option (σ × Bytes)} {q : Bytes}
    (hentry : ∀ acc k, Extends Followed q (now acc k) (later acc k)) {fuel fuel' : Nat} {first : Bool} {acc acc' : σ}
    (h : entries now fuel first acc s = some (acc', r)) (hfuel : fuel ≤ fuel') :
    entries later fuel' first acc (s ++ q) = some (acc', r ++ q) := by
  rw [entries_eq_series] at h ⊢
  refine series_append (fun _ => rfl) (fun first acc s a r ha hr => ?_) h hfuel
  obtain ⟨⟨k, u⟩, hk, ha⟩ := Option.bind_eq_some_iff.mp ha
  refine Option.bind_eq_some_iff.mpr ⟨(k, u ++ q), ?_, hentry acc k ha hr⟩
  cases first
  · have hs : skipSpace s ≠ [] := by
      intro hs
      rw [if_neg (by decide), hs] at hk
      cases hk
    exact skipSpace_append hs q ▸ local_key hk trivial q
  · exact local_key hk trivial q

/-! ## Values -/

/-- What follows an entry that is passed over. -/
def skipEntry (skipValue : Bytes → Option Bytes) (first : Bool) (s : Bytes) : Option Bytes :=
  match if first then s else skipSpace s with
  | 0x22 :: r => match skipString r with
    | some r => match skipSpace r with
      | 0x3A :: r => skipValue r
      | _ => none
    | none => none
  | _ => none

theorem skipEntry_nil (skipValue : Bytes → Option Bytes) (first : Bool) : skipEntry skipValue first [] = none := by
  cases first <;> rfl

theorem skipEntry_append {now later : Bytes → Option Bytes} {q : Bytes}
    (hvalue : ∀ {s r}, now s = some r → r ≠ [] → later (s ++ q) = some (r ++ q)) {first : Bool}
    (h : skipEntry now first s = some r) (hr : r ≠ []) : skipEntry later first (s ++ q) = some (r ++ q) := by
  unfold skipEntry at h ⊢
  split at h
  · next t hs =>
    split at h
    · next u hu =>
      split at h
      · next v hv =>
        have hs' : (if first then s ++ q else skipSpace (s ++ q)) = 0x22 :: (t ++ q) := by
          cases first
          · rw [if_neg (by decide)] at hs ⊢
            rw [skipSpace_append (by simp [hs]), hs]
            rfl
          · rw [if_pos rfl] at hs ⊢
            rw [hs]
            rfl
        rw [hs']
        simp only [skipString_append hu]
        rw [skipSpace_append (by simp [hv]), hv]
        exact hvalue h hr
      · cases h
    · cases h
  · cases h

theorem skip_append {fuel fuel' : Nat} (h : skip fuel s = some r) (hr : r ≠ []) (hfuel : fuel ≤ fuel')
    (q : Bytes) : skip fuel' (s ++ q) = some (r ++ q) := by
  induction fuel generalizing s r fuel' with
  | zero => cases h
  | succ fuel ih =>
    obtain ⟨fuel', rfl⟩ : ∃ n, fuel' = n + 1 := ⟨fuel' - 1, by omega⟩
    have hvalue {s r : Bytes} (h : skip fuel s = some r) (hr : r ≠ []) : skip fuel' (s ++ q) = some (r ++ q) :=
      ih h hr (by omega)
    have hnil (fuel : Nat) : skip fuel [] = none := by cases fuel <;> rfl
    rw [skip] at h ⊢
    obtain hs | ⟨b, t, hs, hsq⟩ := skipSpace_cases s q
    · rw [hs] at h
      cases h
    · rw [hs] at h
      rw [hsq]
      split at h
      · next heq =>
        cases heq
        exact keyword_append h q
      · next heq =>
        cases heq
        exact keyword_append h q
      · next heq =>
        cases heq
        exact keyword_append h q
      · next heq =>
        cases heq
        exact skipString_append h q
      · next heq =>
        cases heq
        obtain ⟨⟨u, r⟩, hi, ⟨⟩⟩ := Option.map_eq_some_iff.mp h
        refine Option.map_eq_some_iff.mpr ⟨(u, r ++ q), ?_, rfl⟩
        refine items_append (by simp [hnil]) (fun _ s a r ha hr => ?_) hi (by simp)
        obtain ⟨r, ha, ⟨⟩⟩ := Option.map_eq_some_iff.mp ha
        rw [hvalue ha hr]
        rfl
      · next heq =>
        cases heq
        change skip.loop (skipEntry (skip fuel)) _ _ _ = _ at h
        change skip.loop (skipEntry (skip fuel')) _ _ _ = _
        rw [skip_loop_eq_series _ (skipEntry_nil _)] at h ⊢
        obtain ⟨⟨u, r⟩, hl, ⟨⟩⟩ := Option.map_eq_some_iff.mp h
        refine Option.map_eq_some_iff.mpr ⟨(u, r ++ q), ?_, rfl⟩
        refine series_append (fun _ => by rw [skipEntry_nil]; rfl) (fun first _ s a r ha hr => ?_) hl (by simp)
        obtain ⟨r, ha, ⟨⟩⟩ := Option.map_eq_some_iff.mp ha
        rw [skipEntry_append hvalue ha hr]
        rfl
      · next hnull htrue hfalse hquote hlist htable =>
        have hnumber := skipNumber_append h hr q
        split <;> simp_all

theorem value_nil (depth : Nat) : value depth [] = none := by cases depth <;> rfl

/-- An object shows where it ends; of another value this is sure if something follows. -/
theorem value_append {depth : Nat} {v : Value} (h : value depth s = some (v, r))
    (hr : r ≠ [] ∨ s.head? = some 0x7B) (q : Bytes) : value depth (s ++ q) = some (v, r ++ q) := by
  induction depth generalizing s v r q with
  | zero => cases h
  | succ depth ih =>
    have ih : Local Followed (value depth) := fun _ _ _ h hr q => ih h (.inl hr) q
    rw [value] at h ⊢
    obtain hs | ⟨b, t, hs, hsq⟩ := skipSpace_cases s q
    · rw [hs] at h
      cases h
    · rw [hs] at h
      rw [hsq]
      split at h
      · next heq =>
        cases heq
        exact local_keyword _ _ h trivial q
      · next heq =>
        cases heq
        exact local_keyword _ _ h trivial q
      · next heq =>
        cases heq
        exact local_keyword _ _ h trivial q
      · next heq =>
        cases heq
        exact local_string.map _ h trivial q
      · next heq =>
        cases heq
        split at h
        · cases h
        next hdepth =>
        obtain ⟨⟨vs, r⟩, hi, ⟨⟩⟩ := Option.map_eq_some_iff.mp h
        refine (if_neg hdepth).trans (Option.map_eq_some_iff.mpr ⟨(vs, r ++ q), ?_, rfl⟩)
        refine items_append (by simp [value_nil]) (fun acc s a r ha hr => ?_) hi (by simp)
        exact ih.map (· :: acc) ha hr q
      · next heq =>
        cases heq
        split at h
        · cases h
        next hdepth =>
        obtain ⟨⟨es, r⟩, hi, ⟨⟩⟩ := Option.map_eq_some_iff.mp h
        refine (if_neg hdepth).trans (Option.map_eq_some_iff.mpr ⟨(es, r ++ q), ?_, rfl⟩)
        refine entries_append (fun acc k s a r ha hr => ?_) hi (by simp)
        exact ih.map (sortedInsert k · acc) ha hr q
      · next hnull htrue hfalse hquote hlist htable =>
        have hopen : s.head? ≠ some 0x7B := by
          intro hopen
          cases s with
          | nil => cases hopen
          | cons c s =>
            cases hopen
            cases hs
            exact htable _ rfl
        have hnumber := local_number h (hr.resolve_right hopen) q
        split <;> simp_all

theorem local_value : value.Local Followed Followed :=
  .of_nil value_nil fun _ _ _ _ h hr q => value_append h (.inl hr) q

/-! ## Dialect -/

/-- A reader that passes over blanks is local if it is so behind them. -/
theorem local_of_skipSpace {read : Reader α} {ok : Bytes → Prop}
    (hskip : ∀ depth s, read depth (skipSpace s) = read depth s) (hnil : ∀ depth, read depth [] = none)
    (hcons : ∀ ⦃depth b t a r⦄, isSpace b = false → read depth (b :: t) = some (a, r) → ok r → ∀ q,
      read depth (b :: (t ++ q)) = some (a, r ++ q)) : read.Local Followed ok := by
  refine .of_nil hnil fun depth => ?_
  intro s a r h hr q
  rw [← hskip] at h ⊢
  obtain hs | ⟨b, t, hs, hsq⟩ := skipSpace_cases s q
  · rw [hs] at h
    cases (hnil depth).symm.trans h
  · rw [hs] at h
    rw [hsq]
    exact hcons (isSpace_of_skipSpace hs) h hr q

theorem local_textReader : textReader.Local Followed Followed := by
  refine local_of_skipSpace (fun _ _ => by simp only [textReader, skipSpace_skipSpace]) (fun _ => rfl) ?_
  intro depth b t a r hb h hr q
  rw [textReader, skipSpace_cons hb] at h ⊢
  split at h
  · next heq =>
    cases heq
    exact local_string h trivial q
  · cases h

theorem local_boolReader : boolReader.Local Followed Followed := by
  refine local_of_skipSpace (fun _ _ => by simp only [boolReader, skipSpace_skipSpace]) (fun _ => rfl) ?_
  intro depth b t a r hb h hr q
  rw [boolReader, skipSpace_cons hb] at h ⊢
  split at h
  · next heq =>
    cases heq
    exact local_keyword _ _ h trivial q
  · next heq =>
    cases heq
    exact local_keyword _ _ h trivial q
  · cases h

theorem local_integerIn (ok : Int → Bool) : (integerIn ok).Local Followed Followed := by
  refine local_of_skipSpace (fun _ _ => by simp only [integerIn, skipSpace_skipSpace]) (fun _ => rfl) ?_
  intro depth b t a r hb h hr q
  rw [integerIn, skipSpace_cons hb] at h ⊢
  split at h
  · next i u hi =>
    split at h
    · next hok =>
      cases h
      rw [← List.cons_append, local_number hi hr]
      exact if_pos hok
    · cases h
  · cases h

theorem local_unitReader : unitReader.Local Followed Followed := by
  refine local_of_skipSpace (fun _ _ => by simp only [unitReader, skipSpace_skipSpace]) (fun _ => rfl) ?_
  intro depth b t a r hb h hr q
  rw [unitReader, skipSpace_cons hb] at h ⊢
  split at h
  · next heq =>
    cases heq
    exact local_keyword _ _ h trivial q
  · cases h

section Combinators

variable {read : Reader α}

theorem local_optionalReader (hread : read.Local Followed Followed) :
    (optionalReader read).Local Followed Followed := by
  refine local_of_skipSpace (fun _ _ => by simp only [optionalReader, skipSpace_skipSpace])
    (fun depth => Option.map_eq_none_iff.mpr (hread.nil depth)) ?_
  intro depth b t a r hb h hr q
  rw [optionalReader, skipSpace_cons hb] at h ⊢
  split at h
  · next heq =>
    cases heq
    exact local_keyword _ _ h trivial q
  · next hnull =>
    have hlater := (hread.append depth).map some h hr q
    split
    · next heq =>
      cases heq
      exact absurd rfl (hnull _)
    · exact hlater

theorem local_listReader (hread : read.Local Followed Followed) : (listReader read).Local Followed Anything := by
  refine local_of_skipSpace (fun _ _ => by simp only [listReader, skipSpace_skipSpace]) (fun _ => rfl) ?_
  intro depth b t a r hb h _ q
  rw [listReader, skipSpace_cons hb] at h ⊢
  split at h
  · next heq =>
    cases heq
    split at h
    · cases h
    next hdepth =>
    obtain ⟨⟨xs, r⟩, hi, ⟨⟩⟩ := Option.map_eq_some_iff.mp h
    refine (if_neg hdepth).trans (Option.map_eq_some_iff.mpr ⟨(xs, r ++ q), ?_, rfl⟩)
    have hnil := hread.nil (depth - 1)
    refine items_append (by simp [hnil]) (fun acc s a r ha hr => ?_) hi (by simp)
    exact (hread.append (depth - 1)).map (· :: acc) ha hr q
  · cases h

theorem local_tableReader (hread : read.Local Followed Followed) :
    (tableReader read).Local Followed Anything := by
  refine local_of_skipSpace (fun _ _ => by simp only [tableReader, skipSpace_skipSpace]) (fun _ => rfl) ?_
  intro depth b t a r hb h _ q
  rw [tableReader, skipSpace_cons hb] at h ⊢
  split at h
  · next heq =>
    cases heq
    split at h
    · cases h
    next hdepth =>
    obtain ⟨⟨es, r⟩, hi, ⟨⟩⟩ := Option.map_eq_some_iff.mp h
    refine (if_neg hdepth).trans (Option.map_eq_some_iff.mpr ⟨(es, r ++ q), ?_, rfl⟩)
    refine entries_append (fun acc k s a r ha hr => ?_) hi (by simp)
    exact (hread.append (depth - 1)).map (fun x => (k, x) :: acc) ha hr q
  · cases h

end Combinators

theorem local_sourceReader : sourceReader.Local Followed Followed := by
  refine local_of_skipSpace (fun _ _ => by simp only [sourceReader, listReader, skipSpace_skipSpace]) (fun _ => rfl) ?_
  intro depth b t a r hb h hr q
  rw [sourceReader, skipSpace_cons hb] at h ⊢
  split at h
  · next heq =>
    cases heq
    split at h
    · next hstring =>
      obtain ⟨_, hx, ⟨⟩⟩ := Option.map_eq_some_iff.mp h
      have hlater := local_string hstring trivial q
      simp only [hlater]
      exact Option.map_eq_some_iff.mpr ⟨_, hx, rfl⟩
    · cases h
  · next heq =>
    cases heq
    exact local_keyword _ _ h trivial q
  · next hquote hnull =>
    have hlater := ((local_listReader (local_integerIn _)).append depth).map
      (fun xs => xs.map fun i => UInt8.ofNat i.toNat) h trivial q
    split
    · next heq =>
      cases heq
      exact absurd rfl (hquote _)
    · next heq =>
      cases heq
      exact absurd rfl (hnull _)
    · exact hlater

theorem local_choiceReader (names : List String) : (choiceReader names).Local Followed Followed := by
  refine local_of_skipSpace (fun _ _ => by simp only [choiceReader, skipSpace_skipSpace]) (fun _ => rfl) ?_
  intro depth b t a r hb h hr q
  rw [choiceReader, skipSpace_cons hb] at h ⊢
  split at h
  · next heq =>
    cases heq
    split at h
    · next hstring =>
      obtain ⟨_, hx, ⟨⟩⟩ := Option.map_eq_some_iff.mp h
      have hlater := local_string hstring trivial q
      simp only [hlater]
      exact Option.map_eq_some_iff.mpr ⟨_, hx, rfl⟩
    · cases h
  · next heq =>
    cases heq
    split at h
    · cases h
    next hdepth =>
    split at h
    · next k u hkey =>
      split at h
      · next i v hi hunit =>
        split at h
        · next w hw =>
          cases h
          have ht : skipSpace t ≠ [] := by
            intro ht
            rw [ht] at hkey
            cases hkey
          have hv : v ≠ [] := by
            rintro rfl
            cases hw
          refine (if_neg hdepth).trans ?_
          rw [skipSpace_append ht, local_key hkey trivial]
          dsimp only
          rw [hi, local_unitReader.append depth hunit hv]
          dsimp only
          rw [skipSpace_append (by simp [hw]), hw]
          rfl
        · cases h
      · cases h
    · cases h
  · cases h

section Records

variable {fields : List (Field σ)}

theorem positional_cons (depth : Nat) (f : Field σ) (first : Bool) (p : Draft σ) {b : UInt8} {t : Bytes}
    (hs : skipSpace s = b :: t) : positional depth (f :: fields) first p s =
      if b = 0x5D then some (p, t)
      else if b = 0x2C ↔ first then none
      else listItem (fun p s => (p.enter f depth s).bind fun x => positional depth fields false x.1 x.2) first p
        (if first then b :: t else t) := by
  rw [positional, hs]
  dsimp only
  split
  · next heq =>
    cases heq
    rfl
  · next heq =>
    cases heq
    cases first
    · rw [if_neg (by decide), if_neg (by decide), if_neg (by decide), if_neg (by decide)]
      split
      · next ht =>
        rw [listItem, ht]
        rfl
      · next hclose =>
        rw [listItem_of_not_close _ _ hclose]
        cases p.enter f depth (skipSpace t) <;> rfl
    · rfl
  · next hclose hcomma =>
    have hne : b ≠ 0x5D := fun hb => hclose t (by rw [hb])
    have hb : b ≠ 0x2C := fun hb => hcomma t (by rw [hb])
    rw [if_neg hne]
    cases first
    · exact (if_pos (by simpa using hb)).symm
    · rw [if_pos rfl, if_neg (by simpa using hb), if_pos rfl, listItem, if_pos rfl]
      cases p.enter f depth (b :: t) <;> rfl

theorem positional_append (hfields : ∀ f ∈ fields, f.read.Local Followed Followed) {depth : Nat} {first : Bool}
    {p p' : Draft σ} (h : positional depth fields first p s = some (p', r)) (q : Bytes) :
    positional depth fields first p (s ++ q) = some (p', r ++ q) := by
  induction fields generalizing first p p' s r with
  | nil =>
    rw [positional] at h ⊢
    obtain hs | ⟨b, t, hs, hsq⟩ := skipSpace_cases s q
    · rw [hs] at h
      cases h
    rw [hs] at h
    rw [hsq]
    split at h
    · next heq =>
      cases heq
      cases h
      rfl
    · cases h
  | cons f fields ih =>
    have hf := hfields f List.mem_cons_self
    have hnil (p : Draft σ) : p.enter f depth [] = none := by
      cases hnil : p.enter f depth [] with
      | none => rfl
      | some x => exact absurd rfl (p.enter_opened hf hnil)
    have hstep (p : Draft σ) : Extends Anything q
        (fun s => (p.enter f depth s).bind fun x => positional depth fields false x.1 x.2)
        (fun s => (p.enter f depth s).bind fun x => positional depth fields false x.1 x.2) := by
      intro s a r ha _
      obtain ⟨⟨p', t⟩, hp, ha⟩ := Option.bind_eq_some_iff.mp ha
      -- What closes the list is still to come.
      have ht : t ≠ [] := by
        rintro rfl
        cases fields <;> cases ha
      exact Option.bind_eq_some_iff.mpr ⟨_, Draft.enter_local hf p depth hp ht q,
        ih (fun g hg => hfields g (List.mem_cons_of_mem _ hg)) ha⟩
    obtain hs | ⟨b, t, hs, hsq⟩ := skipSpace_cases s q
    · rw [positional, hs] at h
      cases first <;> simp [hnil] at h
    rw [positional_cons _ _ _ _ hs] at h
    rw [positional_cons _ _ _ _ hsq]
    split at h
    · next hclose =>
      cases h
      exact if_pos hclose
    next hclose =>
    rw [if_neg hclose]
    split at h
    · cases h
    next hcomma =>
    rw [if_neg hcomma]
    have hlater := listItem_append (by simp [hnil]) hstep first p h trivial
    cases first <;> exact hlater

/-- An entry of a record: a field, or what is passed over. -/
def recordEntry (fields : List (Field σ)) (depth : Nat) (p : Draft σ) (k : String) (s : Bytes) :
    Option (Draft σ × Bytes) :=
  match fields.find? fun f => f.name == k with
  | some f => p.enter f depth s
  | none => (skip (s.length + 1) s).map (p, ·)

theorem recordEntry_append (hfields : ∀ f ∈ fields, f.read.Local Followed Followed) (depth : Nat) (q : Bytes)
    (p : Draft σ) (k : String) :
    Extends Followed q (recordEntry fields depth p k) (recordEntry fields depth p k) := by
  intro s a r ha hr
  unfold recordEntry at ha ⊢
  split at ha
  · next f hfind => exact Draft.enter_local (hfields f (List.mem_of_find?_eq_some hfind)) p depth ha hr q
  · next hfind =>
    obtain ⟨_, hs, ⟨⟩⟩ := Option.map_eq_some_iff.mp ha
    rw [skip_append hs hr (by simp)]
    rfl

theorem local_recordReader (zero : σ) (hfields : ∀ f ∈ fields, f.read.Local Followed Followed) :
    (recordReader fields zero).Local Followed Anything where
  opened h := by
    rintro rfl
    unfold recordReader at h
    split at h <;> cases h
  append depth := by
    intro s a r h _ q
    unfold recordReader at h ⊢
    split at h
    · cases h
    next hdepth =>
    rw [if_neg hdepth]
    obtain hs | ⟨b, t, hs, hsq⟩ := skipSpace_cases s q
    · rw [hs] at h
      cases h
    rw [hs] at h
    rw [hsq]
    dsimp only at h ⊢
    split at h
    · next p r' hp =>
      obtain ⟨_, hfinish, ⟨⟩⟩ := Option.map_eq_some_iff.mp h
      split at hp
      · next heq =>
        cases heq
        simp only [positional_append hfields hp q]
        exact Option.map_eq_some_iff.mpr ⟨_, hfinish, rfl⟩
      · next heq =>
        cases heq
        have hlater := entries_append (recordEntry_append hfields (depth - 1) q) hp
          (show t.length + 1 ≤ (t ++ q).length + 1 by simp)
        split
        · next hdraft =>
          cases hdraft.symm.trans hlater
          exact Option.map_eq_some_iff.mpr ⟨_, hfinish, rfl⟩
        · next hdraft => cases hdraft.symm.trans hlater
      · cases hp
    · cases h

end Records


theorem local_dialect : dialect.Local Followed Followed where
  text := local_textReader
  bool := local_boolReader
  natural := (local_integerIn _).map _
  integer := local_integerIn _
  source := local_sourceReader
  unit := local_unitReader
  choice := local_choiceReader
  value := local_value
  native := local_value.map _
  optional := local_optionalReader
  list h := (local_listReader h).weaken
  table := local_tableReader
  record := local_recordReader

end Json
end EditorAgent

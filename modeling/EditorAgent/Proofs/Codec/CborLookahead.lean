import EditorAgent.Proofs.Codec.Lookahead
import Mathlib.Data.List.Basic

/-!
# CBOR readers do not look ahead

Headers say how long everything is, so what a reader takes is sure whatever follows. Loops with fuel take the same
with more of it.
-/

namespace EditorAgent

variable {α β σ : Type}

namespace Cbor

variable {s r : Bytes}

/-! ## Headers, strings and numbers -/

theorem local_takeBytes (n : Nat) : Local Anything (takeBytes n) := by
  intro s b r h _ q
  unfold takeBytes at h ⊢
  split at h
  · next hn =>
    cases h
    have hlen : n ≤ (s ++ q).length := by
      rw [List.length_append]
      omega
    rw [if_pos hlen, List.take_append_of_le_length hn, List.drop_append_of_le_length hn]
  · cases h

theorem local_argument (minor : Nat) : Local Anything (argument minor) := by
  intro s arg r h _ q
  have hfollowing (n : Nat) := (local_takeBytes n).map fun b => some (bigEndian b)
  unfold argument at h ⊢
  dsimp only at h ⊢
  split_ifs at h ⊢
  · cases h
    rfl
  · exact hfollowing 1 h trivial q
  · exact hfollowing 2 h trivial q
  · exact hfollowing 4 h trivial q
  · exact hfollowing 8 h trivial q
  · cases h
    rfl

theorem local_header : Local Anything header := by
  intro s x r h _ q
  unfold header at h ⊢
  split at h
  · cases h
  next b t =>
  dsimp only [List.cons_append] at h ⊢
  split at h
  · cases h
  next arg u harg =>
  rw [local_argument _ harg trivial]
  dsimp only
  split at h
  case h_9 => split_ifs at h ⊢ <;> cases h <;> rfl
  case h_10 => cases h
  all_goals
    cases h
    rfl

theorem untagged_append {x : Header} {fuel fuel' : Nat} (h : untagged fuel s = some (x, r)) (hfuel : fuel ≤ fuel')
    (q : Bytes) : untagged fuel' (s ++ q) = some (x, r ++ q) := by
  induction fuel generalizing s fuel' with
  | zero => cases h
  | succ fuel ih =>
    obtain ⟨fuel', rfl⟩ : ∃ n, fuel' = n + 1 := ⟨fuel' - 1, by omega⟩
    have hheader {s x r} (h : header s = some (x, r)) := local_header h trivial q
    unfold untagged at h ⊢
    grind

theorem local_headerPastTags : Local Anything headerPastTags := by
  intro s x r h _ q
  exact untagged_append h (by simp) q

theorem pieces_append {k : Kind} {fuel fuel' nested : Nat} {acc b : Bytes}
    (h : pieces k fuel nested acc s = some (b, r)) (hfuel : fuel ≤ fuel') (q : Bytes) :
    pieces k fuel' nested acc (s ++ q) = some (b, r ++ q) := by
  induction fuel generalizing nested acc s fuel' with
  | zero => cases h
  | succ fuel ih =>
    obtain ⟨fuel', rfl⟩ : ∃ n, fuel' = n + 1 := ⟨fuel' - 1, by omega⟩
    have hfuel : fuel ≤ fuel' := by omega
    rw [pieces] at h ⊢
    split at h
    · next t ht =>
      rw [local_header ht trivial]
      dsimp only
      split_ifs at h ⊢
      · cases h
        rfl
      · exact ih h hfuel
    · next x t _ ht =>
      rw [local_header ht trivial]
      split at h
      · next len hlen =>
        split at h
        · next piece u hpiece =>
          have htake := local_takeBytes len hpiece trivial q
          grind
        · cases h
      · grind
      · cases h
    · cases h

theorem local_content (k : Kind) (len : Option Nat) : Local Anything (content k len) := by
  intro s b r h _ q
  have htake {n s b r} (h : takeBytes n s = some (b, r)) := local_takeBytes n h trivial q
  unfold content at h ⊢
  split at h
  · grind
  · exact pieces_append h (by simp) q

theorem local_textContent (len : Option Nat) : Local Anything (textContent len) := by
  intro s t r h _ q
  unfold textContent at h ⊢
  split at h
  · next b u hb =>
    obtain ⟨_, ht, ⟨⟩⟩ := Option.map_eq_some_iff.mp h
    rw [local_content _ _ hb trivial]
    exact Option.map_eq_some_iff.mpr ⟨_, ht, rfl⟩
  · cases h

theorem local_largeMagnitude : Local Anything largeMagnitude := by
  intro s n r h _ q
  have hheader {s x r} (h : header s = some (x, r)) := local_header h trivial q
  have hcontent {len s b r} (h : content .bytes len s = some (b, r)) := local_content .bytes len h trivial q
  unfold largeMagnitude at h ⊢
  grind

theorem local_shortMagnitude : Local Anything shortMagnitude := by
  intro s n r h _ q
  have hheader {s x r} (h : header s = some (x, r)) := local_header h trivial q
  have htake (n : Nat) := (local_takeBytes n).map bigEndian
  unfold shortMagnitude at h ⊢
  split at h
  · next n t ht =>
    rw [hheader ht]
    dsimp only
    split at h
    · next hn =>
      rw [if_pos hn]
      exact htake n h trivial q
    · cases h
  · cases h

theorem anyInteger_append {i : Int} {fuel fuel' : Nat} (h : anyInteger fuel s = some (i, r)) (hfuel : fuel ≤ fuel')
    (q : Bytes) : anyInteger fuel' (s ++ q) = some (i, r ++ q) := by
  induction fuel generalizing s fuel' with
  | zero => cases h
  | succ fuel ih =>
    obtain ⟨fuel', rfl⟩ : ∃ n, fuel' = n + 1 := ⟨fuel' - 1, by omega⟩
    have hlarge (f : Nat → Int) := local_largeMagnitude.map f
    rw [anyInteger] at h ⊢
    split at h
    · next ht =>
      cases h
      rw [local_header ht trivial]
    · next ht =>
      cases h
      rw [local_header ht trivial]
    · next ht =>
      rw [local_header ht trivial]
      exact hlarge (fun n => (n : Int)) h trivial q
    · next ht =>
      rw [local_header ht trivial]
      exact hlarge (fun n => -1 - (n : Int)) h trivial q
    · next ht =>
      have hlater := ih h (show fuel ≤ fuel' by omega)
      rw [local_header ht trivial]
      grind
    · cases h

theorem local_integerIn (ok : Int → Bool) (depth : Nat) : Local Anything (integerIn ok depth) := by
  intro s i r h _ q
  unfold integerIn at h ⊢
  split at h
  · next hi =>
    rw [anyInteger_append hi (by simp)]
    dsimp only
    split_ifs at h ⊢
    cases h
    rfl
  · cases h

/-! ## Containers -/

theorem items_append {item : σ → Bytes → Option (σ × Bytes)} (hitem : ∀ acc, Local Anything (item acc))
    {fuel fuel' : Nat} {len : Option Nat} {acc acc' : σ} (h : items item fuel len acc s = some (acc', r))
    (hfuel : fuel ≤ fuel') (q : Bytes) : items item fuel' len acc (s ++ q) = some (acc', r ++ q) := by
  induction fuel generalizing len acc s fuel' with
  | zero => cases h
  | succ fuel ih =>
    obtain ⟨fuel', rfl⟩ : ∃ n, fuel' = n + 1 := ⟨fuel' - 1, by omega⟩
    have hfuel : fuel ≤ fuel' := by omega
    obtain _ | _ | n := len
    · rw [items] at h ⊢
      split at h
      · next ht =>
        cases h
        rw [local_header ht trivial]
      · cases h
      · next x hclose hsome =>
        obtain ⟨⟨x, t⟩, ht⟩ := Option.ne_none_iff_exists'.mp hsome
        rw [local_header ht trivial]
        split
        · next heq =>
          cases heq
          exact absurd ht (hclose _)
        · next heq => cases heq
        · split at h
          · next ha =>
            rw [hitem _ ha trivial]
            exact ih h hfuel
          · cases h
    · cases h
      rfl
    · rw [items] at h ⊢
      split at h
      · next ha =>
        rw [hitem _ ha trivial]
        exact ih h hfuel
      · cases h

theorem local_listOf {read : Bytes → Option (α × Bytes)} (hread : Local Anything read) (len : Option Nat) :
    Local Anything (listOf read len) := by
  intro s xs r h _ q
  obtain ⟨⟨acc, r⟩, hi, ⟨⟩⟩ := Option.map_eq_some_iff.mp h
  have hlater := items_append (fun acc => hread.map (· :: acc)) hi
    (show rounds s ≤ rounds (s ++ q) by simp [rounds]) q
  exact Option.map_eq_some_iff.mpr ⟨_, hlater, rfl⟩

/-! ## Items -/

theorem local_tagged (tag : Nat) : Local Anything (tagged tag) := by
  intro s i r h _ q
  have hshort {s x r} (h : shortMagnitude s = some (x, r)) := local_shortMagnitude h trivial q
  unfold tagged at h ⊢
  grind

/-- Where no integer is found after a tag but an item, none is found in a longer input. -/
theorem tagged_append_eq_none {tag depth : Nat} {x : Item × Bytes} (h : tagged tag s = none)
    (hx : item depth s = some x) (q : Bytes) : tagged tag (s ++ q) = none := by
  have hshort : shortMagnitude s = none → shortMagnitude (s ++ q) = none := by
    intro hnone
    unfold item at hx
    unfold shortMagnitude at hnone ⊢
    cases hh : header s with
    | none => simp [hh] at hx
    | some y =>
      obtain ⟨y, t⟩ := y
      rw [local_header hh trivial]
      rw [hh] at hnone hx
      split at hnone
      · next n u heq =>
        cases heq
        split at hnone
        · next hn =>
          -- The bytes that are missing are missing for the item, too.
          have htake := Option.map_eq_none_iff.mp hnone
          simp [content, htake] at hx
        · next hn => exact if_neg hn
      · next hother =>
        split
        · next heq =>
          cases heq
          exact absurd rfl (hother _ _)
        · rfl
  unfold tagged at h ⊢
  cases hm : shortMagnitude s with
  | none =>
    rw [hshort hm]
    split <;> trivial
  | some y =>
    rw [hm] at h
    rw [local_shortMagnitude hm trivial]
    grind

theorem local_item (depth : Nat) : Local Anything (item depth) := by
  induction depth using Nat.strongRecOn with
  | _ depth ih =>
    intro s x r h _ q
    unfold item at h ⊢
    split at h
    case h_3 len t ht =>
      rw [local_header ht trivial]
      exact (local_content _ len).map Item.bytes h trivial q
    case h_4 len t ht =>
      rw [local_header ht trivial]
      exact (local_textContent len).map Item.text h trivial q
    case h_5 len t ht =>
      rw [local_header ht trivial]
      cases depth with
      | zero => cases h
      | succ depth => exact (local_listOf (ih depth (by omega)) len).map Item.list h trivial q
    case h_6 len t ht =>
      rw [local_header ht trivial]
      cases depth with
      | zero => cases h
      | succ depth =>
        refine (local_listOf (fun s y r hy _ q => ?_) len).map Item.map h trivial q
        have ih := ih depth (by omega)
        split at hy
        · next k u hk =>
          rw [ih hk trivial]
          exact ih.map (k, ·) hy trivial q
        · cases hy
    case h_7 n t ht =>
      rw [local_header ht trivial]
      split at h
      · next hi =>
        obtain ⟨_, hi', ⟨⟩⟩ := Option.map_eq_some_iff.mp h
        simp only [local_tagged _ hi trivial]
        exact Option.map_eq_some_iff.mpr ⟨_, hi', rfl⟩
      · cases h
      · next depth hnone =>
        obtain ⟨⟨y, u⟩, hy, ⟨⟩⟩ := Option.map_eq_some_iff.mp h
        simp only [tagged_append_eq_none hnone hy]
        exact (ih depth (by omega)).map (Item.tag n) h trivial q
    case h_13 => cases h
    all_goals
      next ht =>
      cases h
      simp only [local_header ht trivial]

/-! ## Dialect -/

/-- There is a header. -/
abbrev Headed (s : Bytes) : Prop := header s ≠ none

theorem headed_of_headerPastTags {x : Header × Bytes} (h : headerPastTags s = some x) : Headed s := by
  intro hnone
  unfold headerPastTags untagged at h
  rw [hnone] at h
  cases h

theorem local_shortText : Local Anything shortText := by
  intro s t r h _ q
  unfold shortText at h ⊢
  split at h
  · next n u hu =>
    simp only [local_headerPastTags hu trivial]
    split_ifs at h ⊢
    exact local_textContent _ h trivial q
  · cases h

theorem local_textReader : textReader.Local Headed Anything where
  opened h := by
    unfold textReader at h
    split at h
    · next hu => exact headed_of_headerPastTags hu
    · cases h
  append _ := by
    intro s t r h _ q
    unfold textReader at h ⊢
    split at h
    · next len u hu =>
      simp only [local_headerPastTags hu trivial]
      exact local_textContent _ h trivial q
    · cases h

theorem local_value_depth (depth : Nat) : Local Anything (value depth) := by
  induction depth using Nat.strongRecOn with
  | _ depth ih =>
    intro s x r h _ q
    unfold value at h ⊢
    split at h
    case h_2 n t ht =>
      simp only [local_header ht trivial]
      obtain ⟨_, hi, ⟨⟩⟩ := Option.map_eq_some_iff.mp h
      exact Option.map_eq_some_iff.mpr ⟨_, hi, rfl⟩
    case h_3 n t ht =>
      simp only [local_header ht trivial]
      split at h
      · next hi =>
        obtain ⟨_, hi', ⟨⟩⟩ := Option.map_eq_some_iff.mp h
        simp only [local_tagged _ hi trivial]
        exact Option.map_eq_some_iff.mpr ⟨_, hi', rfl⟩
      · cases h
    case h_4 len t ht =>
      simp only [local_header ht trivial]
      exact (local_textContent len).map Value.text h trivial q
    case h_5 len t ht =>
      simp only [local_header ht trivial]
      cases depth with
      | zero => cases h
      | succ depth => exact (local_listOf (ih depth (by omega)) len).map Value.list h trivial q
    case h_6 len t ht =>
      simp only [local_header ht trivial]
      cases depth with
      | zero => cases h
      | succ depth =>
        have ih := ih depth (by omega)
        obtain ⟨⟨es, r⟩, hi, ⟨⟩⟩ := Option.map_eq_some_iff.mp h
        refine Option.map_eq_some_iff.mpr ⟨(es, r ++ q), ?_, rfl⟩
        refine items_append (fun acc s y r hy _ q => ?_) hi (by simp [rounds]) q
        have hkey : Local Anything fun s => if acc.isEmpty then shortText s else textReader depth s := by
          split
          · exact local_shortText
          · exact local_textReader.append depth
        split at hy
        · next k u hk =>
          simp only [hkey hk trivial q]
          exact ih.map (fun x => (k, x) :: acc) hy trivial q
        · cases hy
    case h_12 => cases h
    all_goals
      next ht =>
      cases h
      simp only [local_header ht trivial]

theorem local_value : value.Local Headed Anything where
  opened {depth s x} h := by
    intro hnone
    unfold value at h
    rw [hnone] at h
    cases h
  append := local_value_depth

theorem local_boolReader : boolReader.Local Headed Anything where
  opened h := by
    unfold boolReader at h
    split at h <;> first | exact headed_of_headerPastTags ‹_› | cases h
  append _ := by
    intro s t r h _ q
    unfold boolReader at h ⊢
    split at h <;> cases h <;> simp only [local_headerPastTags ‹_› trivial]

theorem local_unitReader : unitReader.Local Headed Anything where
  opened h := by
    unfold unitReader at h
    split at h <;> first | exact headed_of_headerPastTags ‹_› | cases h
  append _ := by
    intro s t r h _ q
    unfold unitReader at h ⊢
    split at h <;> cases h <;> simp only [local_headerPastTags ‹_› trivial]

theorem local_integerReader (ok : Int → Bool) : (integerIn ok).Local Headed Anything where
  opened {depth s x} h := by
    intro hnone
    unfold integerIn anyInteger at h
    rw [hnone] at h
    cases h
  append := local_integerIn ok

section Combinators

variable {read : Reader α}

theorem local_optionalReader (hread : read.Local Headed Anything) : (optionalReader read).Local Headed Anything where
  opened {depth s x} h := by
    intro hnone
    unfold optionalReader at h
    rw [hnone] at h
    obtain ⟨y, hy, -⟩ := Option.map_eq_some_iff.mp h
    exact hread.opened hy hnone
  append depth := by
    intro s a r h _ q
    unfold optionalReader at h ⊢
    split at h
    · next ht =>
      cases h
      simp only [local_header ht trivial]
    · next ht =>
      cases h
      simp only [local_header ht trivial]
    · next hnull hundefined =>
      obtain ⟨⟨y, u⟩, hy, -⟩ := Option.map_eq_some_iff.mp h
      obtain ⟨⟨x, t⟩, ht⟩ := Option.ne_none_iff_exists'.mp (hread.opened hy)
      have hlater := (hread.append depth).map some h trivial q
      rw [local_header ht trivial]
      split
      · next heq =>
        cases heq
        exact absurd ht (hnull _)
      · next heq =>
        cases heq
        exact absurd ht (hundefined _)
      · exact hlater

theorem local_listReader (hread : read.Local Headed Anything) : (listReader read).Local Headed Anything where
  opened h := by
    unfold listReader at h
    split at h <;> first | exact headed_of_headerPastTags ‹_› | cases h
  append depth := by
    intro s a r h _ q
    unfold listReader at h ⊢
    split at h
    · next len t ht =>
      simp only [local_headerPastTags ht trivial]
      split_ifs at h ⊢
      exact local_listOf (hread.append _) len h trivial q
    · next len t ht =>
      simp only [local_headerPastTags ht trivial]
      split at h
      · next hb =>
        cases h
        simp only [local_content _ _ hb trivial]
      · cases h
    · cases h

theorem local_tableReader (hread : read.Local Headed Anything) : (tableReader read).Local Headed Anything where
  opened h := by
    unfold tableReader at h
    split at h <;> first | exact headed_of_headerPastTags ‹_› | cases h
  append depth := by
    intro s a r h _ q
    unfold tableReader at h ⊢
    split at h
    · next len t ht =>
      simp only [local_headerPastTags ht trivial]
      split_ifs at h ⊢
      refine local_listOf (fun s y r hy _ q => ?_) len h trivial q
      split at hy
      · next k u hk =>
        simp only [local_textReader.append _ hk trivial q]
        exact (hread.append _).map (k, ·) hy trivial q
      · cases hy
    · cases h

end Combinators

theorem local_sourceReader : sourceReader.Local Headed Anything where
  opened h := by
    unfold sourceReader at h
    split at h <;> first | exact headed_of_headerPastTags ‹_› | cases h
  append depth := by
    intro s a r h _ q
    unfold sourceReader at h ⊢
    split at h
    · next n t ht =>
      simp only [local_headerPastTags ht trivial]
      split_ifs at h ⊢
      exact local_takeBytes n h trivial q
    · next len t ht =>
      simp only [local_headerPastTags ht trivial]
      split_ifs at h ⊢
      exact local_listOf ((local_integerIn _ 0).map fun i => UInt8.ofNat i.toNat) len h trivial q
    · cases h

theorem local_name : Local Anything name := by
  intro s b r h _ q
  unfold name at h ⊢
  split at h
  · next n t ht =>
    simp only [local_headerPastTags ht trivial]
    split_ifs at h ⊢
    exact local_takeBytes n h trivial q
  · next n t ht =>
    simp only [local_headerPastTags ht trivial]
    split_ifs at h ⊢
    exact local_content .text (some n) h trivial q
  · cases h

theorem local_choiceReader (names : List String) : (choiceReader names).Local Headed Anything where
  opened h := by
    unfold choiceReader at h
    dsimp only at h
    split at h <;> first | exact headed_of_headerPastTags ‹_› | cases h
  append depth := by
    intro s a r h _ q
    unfold choiceReader at h ⊢
    dsimp only at h ⊢
    split at h
    case h_3 => cases h
    all_goals
      next ht =>
      simp only [local_headerPastTags ht trivial]
      split_ifs at h ⊢
      split at h
      · next hname =>
        simp only [local_name hname trivial q]
        obtain ⟨_, hi, ⟨⟩⟩ := Option.map_eq_some_iff.mp h
        exact Option.map_eq_some_iff.mpr ⟨_, hi, rfl⟩
      · cases h

section Records

variable {fields : List (Field σ)}

theorem local_recordReader (zero : σ) (hfields : ∀ f ∈ fields, f.read.Local Headed Anything) :
    (recordReader fields zero).Local Headed Anything where
  opened h := by
    unfold recordReader at h
    split at h <;> first | exact headed_of_headerPastTags ‹_› | cases h
  append depth := by
    intro s a r h _ q
    unfold recordReader at h ⊢
    split at h
    · next len t ht =>
      simp only [local_headerPastTags ht trivial]
      split_ifs at h ⊢
      dsimp only at h ⊢
      split at h
      · next p u hp =>
        have hlater := items_append (fun p s p' r hp _ q => ?_) hp
          (show rounds t ≤ rounds (t ++ q) by simp [rounds]) q
        · simp only [hlater]
          obtain ⟨_, hfinish, ⟨⟩⟩ := Option.map_eq_some_iff.mp h
          exact Option.map_eq_some_iff.mpr ⟨_, hfinish, rfl⟩
        · split at hp
          · next hname =>
            simp only [local_name hname trivial q]
            split at hp
            · next f hfind =>
              exact Draft.enter_local (hfields f (List.mem_of_find?_eq_some hfind)) p _ hp trivial q
            · exact (local_item _).map (fun _ => p) hp trivial q
          · cases hp
      · cases h
    · cases h

end Records

theorem local_native : dialect.native.Local Headed Anything where
  opened {depth s x} h := by
    intro hnone
    obtain ⟨y, hy, -⟩ := Option.map_eq_some_iff.mp h
    unfold item at hy
    rw [hnone] at hy
    cases hy
  append depth := (local_item depth).map Item.write

theorem local_dialect : dialect.Local Headed Anything where
  text := local_textReader
  bool := local_boolReader
  natural := (local_integerReader _).map _
  integer := local_integerReader _
  source := local_sourceReader
  unit := local_unitReader
  choice := local_choiceReader
  value := local_value
  native := local_native
  optional := local_optionalReader
  list := local_listReader
  table := local_tableReader
  record := local_recordReader

end Cbor
end EditorAgent

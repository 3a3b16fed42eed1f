import EditorAgent.Proofs.Codec.Lookahead
import Mathlib.Data.List.Basic

/-!
# MessagePack readers do not look ahead

Markers say how long everything is, so what a reader takes is sure whatever follows.
-/

namespace EditorAgent

variable {α β σ : Type}

namespace MessagePack

variable {s r : Bytes}

/-! ## Markers and containers -/

theorem local_takeBytes (n : Nat) : Local Anything (takeBytes n) := by
  intro s b r h _ q
  unfold takeBytes at h ⊢
  split at h
  · next hn =>
    cases h
    have hlen : n ≤ (s ++ q).length := by
      rw [List.length_append]
      omega
    rw [if_pos hlen, List.take_append_of_le_length hn, List.drop_append_of_le_length hn]
  · cases h

theorem local_numeral (n : Nat) : Local Anything (numeral n) := (local_takeBytes n).map bigEndian

theorem local_marker : Local Anything marker := by
  intro s m r h _ q
  unfold marker at h ⊢
  split at h
  · cases h
  next b t =>
  dsimp only [List.cons_append] at h ⊢
  split_ifs at h ⊢
  case neg =>
    split at h
    all_goals first
      | cases h; done
      | cases h; rfl
      | obtain ⟨_, hx, ⟨⟩⟩ := Option.map_eq_some_iff.mp h
        exact Option.map_eq_some_iff.mpr ⟨_, local_numeral _ hx trivial q, rfl⟩
  all_goals
    cases h
    rfl

theorem items_append {item : σ → Bytes → Option (σ × Bytes)} (hitem : ∀ acc, Local Anything (item acc))
    {n : Nat} {acc acc' : σ} (h : items item n acc s = some (acc', r)) (q : Bytes) :
    items item n acc (s ++ q) = some (acc', r ++ q) := by
  induction n generalizing acc s with
  | zero =>
    cases h
    rfl
  | succ n ih =>
    rw [items] at h ⊢
    split at h
    · next ha =>
      rw [hitem _ ha trivial]
      exact ih h
    · cases h

theorem local_listOf {read : Bytes → Option (α × Bytes)} (hread : Local Anything read) (len : Nat) :
    Local Anything (listOf read len) := by
  intro s xs r h _ q
  obtain ⟨⟨acc, r⟩, hi, ⟨⟩⟩ := Option.map_eq_some_iff.mp h
  have hlater := items_append (fun acc => hread.map (· :: acc)) hi q
  exact Option.map_eq_some_iff.mpr ⟨_, hlater, rfl⟩

theorem local_item (depth : Nat) : Local Anything (item depth) := by
  induction depth with
  | zero => exact fun _ _ _ h => nomatch h
  | succ depth ih =>
    intro s x r h _ q
    unfold item at h ⊢
    split at h
    case h_6 n t ht =>
      simp only [local_marker ht trivial]
      obtain ⟨_, hb, ⟨⟩⟩ := Option.map_eq_some_iff.mp h
      exact Option.map_eq_some_iff.mpr ⟨_, local_takeBytes n hb trivial q, rfl⟩
    case h_7 n t ht =>
      simp only [local_marker ht trivial]
      exact (local_takeBytes n).map Item.bytes h trivial q
    case h_8 n t ht =>
      simp only [local_marker ht trivial]
      split_ifs at h ⊢
      exact (local_listOf ih n).map Item.list h trivial q
    case h_9 n t ht =>
      simp only [local_marker ht trivial]
      split_ifs at h ⊢
      refine (local_listOf (fun s y r hy _ q => ?_) n).map Item.map h trivial q
      split at hy
      · next k u hk =>
        rw [ih hk trivial]
        exact ih.map (k, ·) hy trivial q
      · cases hy
    case h_10 n k t ht =>
      simp only [local_marker ht trivial, List.cons_append]
      split_ifs at h ⊢
      exact (local_takeBytes n).map (Item.extension k) h trivial q
    case h_11 => cases h
    all_goals
      next ht =>
      cases h
      simp only [local_marker ht trivial]

/-! ## Dialect -/

theorem local_wellFormedText : Local Anything wellFormedText := by
  intro s t r h _ q
  unfold wellFormedText at h ⊢
  split at h
  · next n u hu =>
    simp only [local_marker hu trivial]
    split at h
    · next hb =>
      simp only [local_takeBytes n hb trivial q]
      obtain ⟨_, ht, ⟨⟩⟩ := Option.map_eq_some_iff.mp h
      exact Option.map_eq_some_iff.mpr ⟨_, ht, rfl⟩
    · cases h
  · cases h

theorem local_textReader : textReader.Local Followed Anything := by
  refine .of_nil (fun _ => rfl) fun _ => ?_
  intro s t r h _ q
  unfold textReader at h ⊢
  dsimp only at h ⊢
  split at h
  case h_3 => cases h
  all_goals
    next n u hu =>
    simp only [local_marker hu trivial]
    split at h
    · next hb =>
      simp only [local_takeBytes n hb trivial q]
      obtain ⟨_, ht, ⟨⟩⟩ := Option.map_eq_some_iff.mp h
      exact Option.map_eq_some_iff.mpr ⟨_, ht, rfl⟩
    · cases h

theorem local_value_depth (depth : Nat) : Local Anything (value depth) := by
  induction depth with
  | zero => exact fun _ _ _ h => nomatch h
  | succ depth ih =>
    intro s x r h _ q
    unfold value at h ⊢
    split at h
    case h_6 n t ht =>
      simp only [local_marker ht trivial]
      exact local_wellFormedText.map Value.text h trivial q
    case h_7 n t ht =>
      simp only [local_marker ht trivial]
      split_ifs at h ⊢
      exact (local_listOf ih n).map Value.list h trivial q
    case h_8 n t ht =>
      simp only [local_marker ht trivial]
      split_ifs at h ⊢
      obtain ⟨⟨es, r⟩, hi, ⟨⟩⟩ := Option.map_eq_some_iff.mp h
      refine Option.map_eq_some_iff.mpr ⟨(es, r ++ q), ?_, rfl⟩
      refine items_append (fun acc s y r hy _ q => ?_) hi q
      have hkey : Local Anything fun s => if acc.isEmpty then wellFormedText s else textReader depth s := by
        split
        · exact local_wellFormedText
        · exact local_textReader.append depth
      split at hy
      · next k u hk =>
        simp only [hkey hk trivial q]
        exact ih.map (fun x => (k, x) :: acc) hy trivial q
      · cases hy
    case h_9 => cases h
    all_goals
      next ht =>
      cases h
      simp only [local_marker ht trivial]

theorem local_value : value.Local Followed Anything :=
  .of_nil (fun depth => by cases depth <;> rfl) local_value_depth

theorem local_boolReader : boolReader.Local Followed Anything := by
  refine .of_nil (fun _ => rfl) fun _ => ?_
  intro s t r h _ q
  unfold boolReader at h ⊢
  split at h <;> cases h
  simp only [local_marker ‹_› trivial]

theorem local_integerReader (ok : Int → Bool) : (integerIn ok).Local Followed Anything := by
  refine .of_nil (fun _ => rfl) fun _ => ?_
  intro s i r h _ q
  unfold integerIn at h ⊢
  split at h
  · next ht =>
    simp only [local_marker ht trivial]
    split_ifs at h ⊢
    cases h
    rfl
  · cases h

theorem local_unitReader : unitReader.Local Followed Anything := by
  refine .of_nil (fun _ => rfl) fun _ => ?_
  intro s u r h _ q
  unfold unitReader at h ⊢
  split at h
  · next ht =>
    cases h
    simp only [local_marker ht trivial]
  · next hnull =>
    split at h
    · next hhead =>
      obtain ⟨t, rfl⟩ := List.head?_eq_some_iff.mp hhead
      cases h
      rfl
    · cases h

/-- That nothing comes next is seen from its first byte. -/
theorem marker_cons_null {b : UInt8} {t u : Bytes} (h : marker (b :: t) = some (.null, u)) (t' : Bytes) :
    marker (b :: t') = some (.null, t') := by
  have hb : b.toNat = 0xC0 := by
    unfold marker at h
    dsimp only at h
    split_ifs at h
    case neg =>
      split at h
      case h_1 => assumption
      all_goals first
        | cases h
        | obtain ⟨_, -, ⟨⟩⟩ := Option.map_eq_some_iff.mp h
    all_goals cases h
  obtain rfl : b = 0xC0 := UInt8.toNat_inj.mp hb
  rfl

section Combinators

variable {read : Reader α}

theorem local_optionalReader (hread : read.Local Followed Anything) :
    (optionalReader read).Local Followed Anything := by
  refine .of_nil (fun depth => Option.map_eq_none_iff.mpr (hread.nil depth)) fun depth => ?_
  intro s a r h _ q
  unfold optionalReader at h ⊢
  split at h
  · next ht =>
    cases h
    simp only [local_marker ht trivial]
  · next hnull =>
    obtain ⟨⟨y, u⟩, hy, -⟩ := Option.map_eq_some_iff.mp h
    obtain ⟨b, t, rfl⟩ := List.exists_cons_of_ne_nil (hread.opened hy)
    have hlater := (hread.append depth).map some h trivial q
    split
    · next ht => exact absurd (marker_cons_null ht t) (hnull _)
    · exact hlater

theorem local_listReader (hread : read.Local Followed Anything) : (listReader read).Local Followed Anything := by
  refine .of_nil (fun _ => rfl) fun depth => ?_
  intro s a r h _ q
  unfold listReader at h ⊢
  split at h
  · next n t ht =>
    simp only [local_marker ht trivial]
    split_ifs at h ⊢
    exact local_listOf (hread.append _) n h trivial q
  · next n t ht =>
    simp only [local_marker ht trivial]
    split at h
    · next hb =>
      simp only [local_takeBytes n hb trivial q]
      obtain ⟨_, hx, ⟨⟩⟩ := Option.map_eq_some_iff.mp h
      exact Option.map_eq_some_iff.mpr ⟨_, hx, rfl⟩
    · cases h
  · cases h

theorem local_tableReader (hread : read.Local Followed Anything) : (tableReader read).Local Followed Anything := by
  refine .of_nil (fun _ => rfl) fun depth => ?_
  intro s a r h _ q
  unfold tableReader at h ⊢
  split at h
  · next n t ht =>
    simp only [local_marker ht trivial]
    split_ifs at h ⊢
    refine local_listOf (fun s y r hy _ q => ?_) n h trivial q
    split at hy
    · next k u hk =>
      simp only [local_textReader.append _ hk trivial q]
      exact (hread.append _).map (k, ·) hy trivial q
    · cases hy
  · cases h

end Combinators

theorem local_sourceReader : sourceReader.Local Followed Anything := by
  refine .of_nil (fun _ => rfl) fun depth => ?_
  intro s a r h _ q
  unfold sourceReader at h ⊢
  split at h
  · next ht =>
    cases h
    simp only [local_marker ht trivial]
  · next n t ht =>
    simp only [local_marker ht trivial]
    exact local_takeBytes n h trivial q
  · next n t ht =>
    simp only [local_marker ht trivial]
    split at h
    · next b u hb =>
      simp only [local_takeBytes n hb trivial q]
      split at h
      · obtain ⟨_, hx, ⟨⟩⟩ := Option.map_eq_some_iff.mp h
        exact Option.map_eq_some_iff.mpr ⟨_, hx, rfl⟩
      · cases h
        rfl
    · cases h
  · next hnull hbytes htext =>
    have hlater := ((local_listReader (local_integerReader _)).append depth).map
      (fun xs => xs.map fun i => UInt8.ofNat i.toNat) h trivial q
    cases hm : marker s with
    | none => simp [listReader, hm] at h
    | some x =>
      obtain ⟨m, t⟩ := x
      rw [local_marker hm trivial]
      split
      · next heq =>
        cases heq
        exact absurd hm (hnull _)
      · next heq =>
        cases heq
        exact absurd hm (hbytes _ _)
      · next heq =>
        cases heq
        exact absurd hm (htext _ _)
      · exact hlater

theorem local_name : Local Anything name := by
  intro s b r h _ q
  unfold name at h ⊢
  split at h
  · next n t ht =>
    simp only [local_marker ht trivial]
    exact (local_takeBytes n).map Name.bytes h trivial q
  · next n t ht =>
    simp only [local_marker ht trivial]
    exact (local_takeBytes n).map Name.bytes h trivial q
  · next ht =>
    simp only [local_marker ht trivial]
    split_ifs at h ⊢
    cases h
    rfl
  · cases h

theorem local_choiceReader (names : List String) : (choiceReader names).Local Followed Anything := by
  refine .of_nil (fun _ => rfl) fun depth => ?_
  intro s a r h _ q
  unfold choiceReader at h ⊢
  dsimp only at h ⊢
  split at h
  case h_3 => cases h
  case h_4 => cases h
  case h_5 harray hmap harrays hmaps =>
    split at h
    · next hname =>
      obtain ⟨i, hi, ⟨⟩⟩ := Option.map_eq_some_iff.mp h
      have hm : marker s ≠ none := by
        intro hm
        unfold name at hname
        rw [hm] at hname
        cases hname
      obtain ⟨⟨m, t⟩, hm⟩ := Option.ne_none_iff_exists'.mp hm
      have hlater := local_name hname trivial q
      rw [local_marker hm trivial]
      split <;> try next heq =>
        cases heq
        first
          | exact absurd hm (harray _)
          | exact absurd hm (hmap _)
          | exact absurd hm (harrays _ _)
          | exact absurd hm (hmaps _ _)
      simp only [hlater, hi]
      rfl
    · cases h
  all_goals
    next t ht =>
    split at h
    · next hfound =>
      cases h
      split at hfound
      · next hname =>
        obtain ⟨i, hi, ⟨⟩⟩ := Option.map_eq_some_iff.mp hfound
        simp only [local_marker ht trivial, local_name hname trivial q, hi]
        rfl
      · cases hfound
    · cases h

section Records

variable {fields : List (Field σ)}

theorem positional_append (hfields : ∀ f ∈ fields, f.read.Local Followed Anything) {depth n : Nat} {p p' : Draft σ}
    (h : positional depth fields n p s = some (p', r)) (q : Bytes) :
    positional depth fields n p (s ++ q) = some (p', r ++ q) := by
  induction fields generalizing n p s with
  | nil =>
    cases n with
    | zero =>
      cases h
      rfl
    | succ n => cases h
  | cons f fields ih =>
    cases n with
    | zero =>
      cases h
      rfl
    | succ n =>
      rw [positional] at h ⊢
      split at h
      · next hp =>
        rw [Draft.enter_local (hfields f List.mem_cons_self) p depth hp trivial q]
        exact ih (fun g hg => hfields g (List.mem_cons_of_mem _ hg)) h
      · cases h

theorem local_recordReader (zero : σ) (hfields : ∀ f ∈ fields, f.read.Local Followed Anything) :
    (recordReader fields zero).Local Followed Anything := by
  refine .of_nil (fun _ => rfl) fun depth => ?_
  intro s a r h _ q
  unfold recordReader at h ⊢
  dsimp only at h ⊢
  split at h
  · next p u hp =>
    obtain ⟨_, hfinish, ⟨⟩⟩ := Option.map_eq_some_iff.mp h
    split at hp
    · next n t ht =>
      simp only [local_marker ht trivial]
      split_ifs at hp ⊢
      simp only [positional_append hfields hp q]
      exact Option.map_eq_some_iff.mpr ⟨_, hfinish, rfl⟩
    · next n t ht =>
      simp only [local_marker ht trivial]
      split_ifs at hp ⊢
      have hlater := items_append (fun p s p' r hp _ q => ?_) hp q
      · simp only [hlater]
        exact Option.map_eq_some_iff.mpr ⟨_, hfinish, rfl⟩
      · split at hp
        · next hname =>
          simp only [local_name hname trivial q]
          split at hp
          · next f hfind =>
            obtain ⟨i, -, hi⟩ := Option.bind_eq_some_iff.mp hfind
            exact Draft.enter_local (hfields f (List.mem_of_getElem? hi)) p _ hp trivial q
          · exact (local_item _).map (fun _ => p) hp trivial q
        · cases hp
    · next n t ht =>
      simp only [local_marker ht trivial]
      split at hp
      · next hb =>
        simp only [local_takeBytes n hb trivial q]
        obtain ⟨_, hx, ⟨⟩⟩ := Option.map_eq_some_iff.mp hp
        simp only [hx, Option.map_some]
        exact Option.map_eq_some_iff.mpr ⟨_, hfinish, rfl⟩
      · cases hp
    · cases hp
  · cases h

end Records

theorem local_native : dialect.native.Local Followed Anything :=
  .of_nil (fun depth => by cases depth <;> rfl) fun depth => (local_item depth).map Item.write

theorem local_dialect : dialect.Local Followed Anything where
  text := local_textReader
  bool := local_boolReader
  natural := (local_integerReader _).map _
  integer := local_integerReader _
  source := local_sourceReader
  unit := local_unitReader
  choice := local_choiceReader
  value := local_value
  native := local_native
  optional := local_optionalReader
  list := local_listReader
  table := local_tableReader
  record := local_recordReader

end MessagePack
end EditorAgent

import EditorAgent.Wire.Request

/-!
# Readers make progress

A reader that succeeds leaves fewer bytes than it was given. The lemmas follow the formats from their
lexical rules to their records; the result is that reading a request shortens the input.
-/

namespace EditorAgent

attribute [local grind =] Option.map_eq_some_iff

/-- A reader that takes a byte at least. -/
def Reader.Consumes {α : Type} (read : Reader α) : Prop :=
  ∀ ⦃depth s a r⦄, read depth s = some (a, r) → r.length < s.length

theorem Reader.Consumes.map {α β : Type} {read : Reader α} (h : read.Consumes) (f : α → β) :
    (read.map f).Consumes := by
  intro depth s b r hr
  unfold Reader.map at hr
  split at hr
  · rename_i a r' heq
    cases hr
    exact h heq
  · cases hr

theorem Draft.enter_length {σ : Type} {p q : Draft σ} {f : Field σ} {depth : Nat} {s r : Bytes}
    (hf : f.read.Consumes) (h : p.enter f depth s = some (q, r)) : r.length < s.length := by
  unfold Draft.enter at h
  split at h
  · cases h
  · split at h
    · rename_i heq
      cases h
      exact hf heq
    · cases h

/-- A dialect whose readers take a byte at least. -/
structure Dialect.Consumes (d : Dialect) : Prop where
  text : d.text.Consumes
  native : d.native.Consumes
  optional {α : Type} {read : Reader α} (h : read.Consumes) : (d.optional read).Consumes
  record {σ : Type} {fields : List (Field σ)} (zero : σ) (h : ∀ f ∈ fields, f.read.Consumes) :
    (d.record fields zero).Consumes

namespace Json

theorem length_skipSpace_le (s : Bytes) : (skipSpace s).length ≤ s.length :=
  (List.dropWhile_sublist _).length_le

theorem length_dropDigits_le (s : Bytes) : (dropDigits s).length ≤ s.length :=
  (List.dropWhile_sublist _).length_le

theorem keyword_length {w s r : Bytes} (h : keyword w s = some r) : r.length ≤ s.length := by
  unfold keyword at h
  split at h
  · cases h
    simp
  · cases h

theorem stringBytes_length {acc s b r : Bytes} (h : stringBytes acc s = some (b, r)) :
    r.length < s.length := by
  fun_induction stringBytes acc s <;> simp_all <;> omega

theorem string_length {s r : Bytes} {t : String} (h : string s = some (t, r)) :
    r.length < s.length := by
  unfold string at h
  split at h
  · rename_i b r' heq
    obtain ⟨_, -, ht⟩ := Option.map_eq_some_iff.mp h
    cases ht
    exact stringBytes_length heq
  · cases h

theorem skipString_length {s r : Bytes} (h : skipString s = some r) : r.length < s.length := by
  fun_induction skipString s <;> simp_all <;> omega

theorem accumulate_length (sig n : Nat) (s : Bytes) :
    (accumulate sig n s).2.2.length ≤ s.length := by
  fun_induction accumulate sig n s <;> grind

theorem exponentDigits_length (e : Nat) (s : Bytes) :
    (exponentDigits e s).2.length ≤ s.length := by
  fun_induction exponentDigits e s <;> grind [length_dropDigits_le]

theorem exponent_length {x : Scientific} {s r : Bytes} {n : Nat} (h : exponent x s = some (n, r)) :
    r.length ≤ s.length := by
  unfold exponent at h
  grind [exponentDigits_length]

theorem afterDigits_length {x : Scientific} {s r : Bytes} {n : Nat}
    (h : afterDigits x s = some (n, r)) : r.length ≤ s.length := by
  unfold afterDigits at h
  grind [→ exponent_length]

theorem fraction_length {x : Scientific} {s r : Bytes} {n : Nat}
    (h : fraction x s = some (n, r)) : r.length ≤ s.length := by
  unfold fraction at h
  grind [accumulate_length, length_dropDigits_le, → afterDigits_length]

theorem afterInteger_length {neg : Bool} {sig : Nat} {s r : Bytes} {v : Value}
    (h : afterInteger neg sig s = some (v, r)) : r.length ≤ s.length := by
  unfold afterInteger at h
  grind [→ fraction_length, → exponent_length]

theorem longInteger_length {neg : Bool} {sig : Nat} {s r : Bytes} {v : Value}
    (h : longInteger neg sig s = some (v, r)) : r.length ≤ s.length := by
  unfold longInteger at h
  grind [→ fraction_length, → afterDigits_length, length_dropDigits_le]

theorem length_dropDigits_lt {s : Bytes} (h : startsDigit s = true) :
    (dropDigits s).length < s.length := by
  cases s with
  | nil => simp [startsDigit] at h
  | cons c s =>
    have hc : isDigit c = true := h
    have hle := length_dropDigits_le s
    simp only [dropDigits, List.dropWhile_cons, hc, if_true, List.length_cons] at hle ⊢
    omega

theorem length_accumulate_lt {s : Bytes} (h : startsDigit s = true) :
    (accumulate 0 0 s).2.2.length < s.length := by
  cases s with
  | nil => simp [startsDigit] at h
  | cons c s =>
    have hc : isDigit c = true := h
    have hv : digitValue c ≤ maxU64 := by
      have := c.toNat_lt
      simp only [digitValue, maxU64]
      omega
    have hle := accumulate_length (digitValue c) 1 s
    simp [accumulate, hc, hv]
    omega

theorem magnitude_length {neg : Bool} {s r : Bytes} {v : Value}
    (h : magnitude neg s = some (v, r)) : r.length < s.length := by
  unfold magnitude at h
  grind [length_accumulate_lt, → afterInteger_length, → longInteger_length]

theorem number_length {s r : Bytes} {v : Value} (h : number s = some (v, r)) :
    r.length < s.length := by
  unfold number at h
  split at h
  · have := magnitude_length h
    simp
    omega
  · exact magnitude_length h

theorem skipNumber_length {s r : Bytes} (h : skipNumber s = some r) : r.length < s.length := by
  unfold skipNumber at h
  grind [length_dropDigits_le, length_dropDigits_lt]

section Containers

variable {σ : Type}

theorem items_length {item : σ → Bytes → Option (σ × Bytes)}
    (hitem : ∀ {acc s acc' r}, item acc s = some (acc', r) → r.length < s.length)
    {fuel : Nat} {first : Bool} {acc acc' : σ} {s r : Bytes}
    (h : items item fuel first acc s = some (acc', r)) : r.length < s.length := by
  induction fuel generalizing first acc s with
  | zero => cases h
  | succ fuel ih =>
    unfold items at h
    grind [length_skipSpace_le]

theorem key_length {s r : Bytes} {k : String} (h : key s = some (k, r)) : r.length < s.length := by
  unfold key at h
  grind [length_skipSpace_le, → string_length]

theorem entries_length {entry : σ → String → Bytes → Option (σ × Bytes)}
    (hentry : ∀ {acc k s acc' r}, entry acc k s = some (acc', r) → r.length < s.length)
    {fuel : Nat} {first : Bool} {acc acc' : σ} {s r : Bytes}
    (h : entries entry fuel first acc s = some (acc', r)) : r.length < s.length := by
  induction fuel generalizing first acc s with
  | zero => cases h
  | succ fuel ih =>
    unfold entries at h
    grind [length_skipSpace_le, → key_length]

end Containers

theorem skip_loop_length {entry : Bool → Bytes → Option Bytes}
    (hentry : ∀ {first s r}, entry first s = some r → r.length < s.length)
    {n : Nat} {first : Bool} {s r : Bytes} (h : skip.loop entry n first s = some r) :
    r.length < s.length := by
  induction n generalizing first s with
  | zero => cases h
  | succ n ih =>
    unfold skip.loop at h
    grind [length_skipSpace_le]

theorem skip_length {fuel : Nat} {s r : Bytes} (h : skip fuel s = some r) :
    r.length < s.length := by
  induction fuel generalizing s r with
  | zero => cases h
  | succ fuel ih =>
    have hs := length_skipSpace_le s
    unfold skip at h
    split at h <;> rename_i heq
    all_goals try rw [heq, List.length_cons] at hs
    · have := keyword_length h; omega
    · have := keyword_length h; omega
    · have := keyword_length h; omega
    · have := skipString_length h; omega
    · obtain ⟨⟨_, r⟩, hi, rfl⟩ := Option.map_eq_some_iff.mp h
      have := items_length (by grind) hi
      simp only
      omega
    · have := skip_loop_length (by grind [length_skipSpace_le, → skipString_length]) h
      omega
    · have := skipNumber_length h
      omega

theorem value_consumes : value.Consumes := by
  intro depth
  induction depth with
  | zero => intro s v r h; cases h
  | succ depth ih =>
    intro s v r h
    have hs := length_skipSpace_le s
    unfold value at h
    split at h <;> rename_i heq
    all_goals try rw [heq, List.length_cons] at hs
    · grind [→ keyword_length]
    · grind [→ keyword_length]
    · grind [→ keyword_length]
    · grind [→ string_length]
    · split at h
      · cases h
      · obtain ⟨⟨vs, r⟩, hi, ⟨⟩⟩ := Option.map_eq_some_iff.mp h
        have := items_length (by grind) hi
        grind
    · split at h
      · cases h
      · obtain ⟨⟨es, r⟩, hi, ⟨⟩⟩ := Option.map_eq_some_iff.mp h
        have := entries_length (by grind) hi
        grind
    · have := number_length h
      omega

theorem textReader_consumes : textReader.Consumes := by
  intro depth s t r h
  unfold textReader at h
  grind [length_skipSpace_le, → string_length]

theorem optionalReader_consumes {α : Type} {read : Reader α} (hread : read.Consumes) :
    (optionalReader read).Consumes := by
  intro depth s x r h
  have hs := length_skipSpace_le s
  unfold optionalReader at h
  split at h <;> rename_i heq
  · rw [heq, List.length_cons] at hs
    grind [→ keyword_length]
  · obtain ⟨⟨a, r⟩, ha, ⟨⟩⟩ := Option.map_eq_some_iff.mp h
    have := hread ha
    grind

section Records

variable {σ : Type} {fields : List (Field σ)}

theorem positional_length (hf : ∀ f ∈ fields, f.read.Consumes) {depth : Nat} {first : Bool}
    {d d' : Draft σ} {s r : Bytes} (h : positional depth fields first d s = some (d', r)) :
    r.length < s.length := by
  induction fields generalizing first d s with
  | nil =>
    unfold positional at h
    grind [length_skipSpace_le]
  | cons f fs ih =>
    have hstep {s r : Bytes} {d d' : Draft σ} (h : d.enter f depth s = some (d', r)) :=
      Draft.enter_length (hf f (by simp)) h
    have ih := @ih fun f hmem => hf f (by simp [hmem])
    unfold positional at h
    grind [length_skipSpace_le]

theorem recordReader_consumes (zero : σ) (hf : ∀ f ∈ fields, f.read.Consumes) :
    (recordReader fields zero).Consumes := by
  intro depth s x r h
  have hs := length_skipSpace_le s
  unfold recordReader at h
  split at h
  · cases h
  · dsimp only at h
    split at h
    · rename_i d r' hd
      obtain ⟨_, -, ⟨⟩⟩ := Option.map_eq_some_iff.mp h
      split at hd <;> rename_i heq
      · have := positional_length hf hd
        grind
      · have := entries_length (by
          intro d k s d' r he
          split at he
          · rename_i f hfind
            exact Draft.enter_length (hf f (List.mem_of_find?_eq_some hfind)) he
          · grind [→ skip_length]) hd
        grind
      · cases hd
    · cases h

end Records

theorem dialect_consumes : dialect.Consumes where
  text := textReader_consumes
  native := value_consumes.map _
  optional := optionalReader_consumes
  record := recordReader_consumes

end Json

namespace Cbor

theorem takeBytes_length {n : Nat} {s b r : Bytes} (h : takeBytes n s = some (b, r)) :
    r.length ≤ s.length := by
  unfold takeBytes at h
  grind

theorem argument_length {minor : Nat} {s r : Bytes} {arg : Option Nat}
    (h : argument minor s = some (arg, r)) : r.length ≤ s.length := by
  unfold argument at h
  have htakeBytes := @takeBytes_length
  grind

theorem header_length {s r : Bytes} {x : Header} (h : header s = some (x, r)) :
    r.length < s.length := by
  unfold header at h
  split at h
  · cases h
  · dsimp only at h
    split at h
    · cases h
    · rename_i heq
      have := argument_length heq
      grind

theorem untagged_length {fuel : Nat} {s r : Bytes} {x : Header}
    (h : untagged fuel s = some (x, r)) : r.length < s.length := by
  induction fuel generalizing s with
  | zero => cases h
  | succ fuel ih =>
    unfold untagged at h
    have hheader := @header_length
    grind

theorem headerPastTags_length {s r : Bytes} {x : Header}
    (h : headerPastTags s = some (x, r)) : r.length < s.length :=
  untagged_length h

theorem pieces_length {k : Kind} {fuel nested : Nat} {acc s b r : Bytes}
    (h : pieces k fuel nested acc s = some (b, r)) : r.length ≤ s.length := by
  induction fuel generalizing nested acc s with
  | zero => cases h
  | succ fuel ih =>
    unfold pieces at h
    have hheader := @header_length
    have htakeBytes := @takeBytes_length
    grind

theorem content_length {k : Kind} {len : Option Nat} {s b r : Bytes}
    (h : content k len s = some (b, r)) : r.length ≤ s.length := by
  unfold content at h
  have htakeBytes := @takeBytes_length
  have hpieces := @pieces_length
  grind

theorem textContent_length {len : Option Nat} {s r : Bytes} {t : String}
    (h : textContent len s = some (t, r)) : r.length ≤ s.length := by
  unfold textContent at h
  have hcontent := @content_length
  grind

theorem items_length {σ : Type} {item : σ → Bytes → Option (σ × Bytes)}
    (hitem : ∀ {acc s acc' r}, item acc s = some (acc', r) → r.length < s.length)
    {fuel : Nat} {len : Option Nat} {acc acc' : σ} {s r : Bytes}
    (h : items item fuel len acc s = some (acc', r)) : r.length ≤ s.length := by
  induction fuel generalizing len acc s with
  | zero => cases h
  | succ fuel ih =>
    unfold items at h
    have hheader := @header_length
    grind

theorem listOf_length {α : Type} {read : Bytes → Option (α × Bytes)}
    (hread : ∀ {s a r}, read s = some (a, r) → r.length < s.length) {len : Option Nat}
    {s r : Bytes} {xs : List α} (h : listOf read len s = some (xs, r)) : r.length ≤ s.length := by
  obtain ⟨⟨acc, r⟩, hi, ⟨⟩⟩ := Option.map_eq_some_iff.mp h
  exact items_length (by grind) hi

theorem tagged_length {tag : Nat} {s r : Bytes} {i : Option Int}
    (h : tagged tag s = some (i, r)) : r.length < s.length := by
  have hshort {n : Nat} (hn : shortMagnitude s = some (n, r)) : r.length < s.length := by
    unfold shortMagnitude at hn
    have hheader := @header_length
    have htakeBytes := @takeBytes_length
    grind
  unfold tagged at h
  grind

theorem item_length {depth : Nat} {s r : Bytes} {x : Item} (h : item depth s = some (x, r)) :
    r.length < s.length := by
  induction depth generalizing s x r with
  | zero =>
    unfold item at h
    have hheader := @header_length
    have hcontent := @content_length
    have htextContent := @textContent_length
    have htagged := @tagged_length
    grind
  | succ depth ih =>
    unfold item at h
    split at h
    case h_5 r' heq =>
      obtain ⟨⟨xs, r⟩, hl, ⟨⟩⟩ := Option.map_eq_some_iff.mp h
      have := listOf_length ih hl
      have hheader := @header_length
      grind
    case h_6 r' heq =>
      obtain ⟨⟨es, r⟩, hl, ⟨⟩⟩ := Option.map_eq_some_iff.mp h
      have := listOf_length (by grind) hl
      have hheader := @header_length
      grind
    all_goals
      have hheader := @header_length
      have hcontent := @content_length
      have htextContent := @textContent_length
      have htagged := @tagged_length
      grind

theorem textReader_consumes : textReader.Consumes := by
  intro depth s t r h
  unfold textReader at h
  have hheaderPastTags := @headerPastTags_length
  have htextContent := @textContent_length
  grind

theorem optionalReader_consumes {α : Type} {read : Reader α} (hread : read.Consumes) :
    (optionalReader read).Consumes := by
  intro depth s x r h
  unfold optionalReader at h
  have := @hread depth s
  have hheader := @header_length
  grind

theorem name_length {s b r : Bytes} (h : name s = some (b, r)) : r.length < s.length := by
  unfold name at h
  have hheaderPastTags := @headerPastTags_length
  have htakeBytes := @takeBytes_length
  have hcontent := @content_length
  grind

theorem recordReader_consumes {σ : Type} {fields : List (Field σ)} (zero : σ)
    (hf : ∀ f ∈ fields, f.read.Consumes) : (recordReader fields zero).Consumes := by
  intro depth s x r h
  unfold recordReader at h
  split at h
  · rename_i len s' hs
    have := headerPastTags_length hs
    split at h
    · cases h
    · dsimp only at h
      split at h
      · rename_i d r' hi
        obtain ⟨_, -, ⟨⟩⟩ := Option.map_eq_some_iff.mp h
        have := items_length (by
          intro d s d' r he
          split at he
          · rename_i b r' hb
            have := name_length hb
            split at he
            · rename_i f hfind
              have := Draft.enter_length (hf f (List.mem_of_find?_eq_some hfind)) he
              omega
            · have hitem := @item_length
              grind
          · cases he) hi
        omega
      · cases h
  · cases h

theorem dialect_consumes : dialect.Consumes where
  text := textReader_consumes
  native := by
    intro depth s b r h
    obtain ⟨⟨x, r⟩, hx, ⟨⟩⟩ := Option.map_eq_some_iff.mp h
    exact item_length hx
  optional := optionalReader_consumes
  record := recordReader_consumes

end Cbor

namespace MessagePack

theorem takeBytes_length {n : Nat} {s b r : Bytes} (h : takeBytes n s = some (b, r)) :
    r.length ≤ s.length := by
  unfold takeBytes at h
  grind

theorem numeral_length {n x : Nat} {s r : Bytes} (h : numeral n s = some (x, r)) :
    r.length ≤ s.length := by
  unfold numeral at h
  have htakeBytes := @takeBytes_length
  grind

theorem marker_length {s r : Bytes} {m : Marker} (h : marker s = some (m, r)) :
    r.length < s.length := by
  unfold marker at h
  split at h
  · cases h
  · have hnumeral := @numeral_length
    grind

theorem items_length {σ : Type} {item : σ → Bytes → Option (σ × Bytes)}
    (hitem : ∀ {acc s acc' r}, item acc s = some (acc', r) → r.length < s.length)
    {n : Nat} {acc acc' : σ} {s r : Bytes} (h : items item n acc s = some (acc', r)) :
    r.length ≤ s.length := by
  induction n generalizing acc s with
  | zero => cases h; exact Nat.le_refl _
  | succ n ih =>
    unfold items at h
    grind

theorem listOf_length {α : Type} {read : Bytes → Option (α × Bytes)}
    (hread : ∀ {s a r}, read s = some (a, r) → r.length < s.length) {len : Nat}
    {s r : Bytes} {xs : List α} (h : listOf read len s = some (xs, r)) : r.length ≤ s.length := by
  obtain ⟨⟨acc, r⟩, hi, ⟨⟩⟩ := Option.map_eq_some_iff.mp h
  exact items_length (by grind) hi

theorem item_length {depth : Nat} {s r : Bytes} {x : Item} (h : item depth s = some (x, r)) :
    r.length < s.length := by
  induction depth generalizing s x r with
  | zero => cases h
  | succ depth ih =>
    unfold item at h
    split at h
    case h_8 n r' heq =>
      split at h
      · cases h
      · obtain ⟨⟨xs, r⟩, hl, ⟨⟩⟩ := Option.map_eq_some_iff.mp h
        have := listOf_length ih hl
        have hmarker := @marker_length
        grind
    case h_9 n r' heq =>
      split at h
      · cases h
      · obtain ⟨⟨es, r⟩, hl, ⟨⟩⟩ := Option.map_eq_some_iff.mp h
        have := listOf_length (by grind) hl
        have hmarker := @marker_length
        grind
    all_goals
      have hmarker := @marker_length
      have htakeBytes := @takeBytes_length
      grind

theorem textReader_consumes : textReader.Consumes := by
  intro depth s t r h
  unfold textReader at h
  have hmarker := @marker_length
  have htakeBytes := @takeBytes_length
  grind

theorem optionalReader_consumes {α : Type} {read : Reader α} (hread : read.Consumes) :
    (optionalReader read).Consumes := by
  intro depth s x r h
  unfold optionalReader at h
  have := @hread depth s
  have hmarker := @marker_length
  grind

theorem name_length {s r : Bytes} {n : Name} (h : name s = some (n, r)) :
    r.length < s.length := by
  unfold name at h
  have hmarker := @marker_length
  have htakeBytes := @takeBytes_length
  grind

section Records

variable {σ : Type} {fields : List (Field σ)}

theorem positional_length (hf : ∀ f ∈ fields, f.read.Consumes) {depth n : Nat}
    {d d' : Draft σ} {s r : Bytes} (h : positional depth fields n d s = some (d', r)) :
    r.length ≤ s.length := by
  induction fields generalizing n d s with
  | nil =>
    unfold positional at h
    grind
  | cons f fs ih =>
    have hstep {s r : Bytes} {d d' : Draft σ} (h : d.enter f depth s = some (d', r)) :=
      Draft.enter_length (hf f (by simp)) h
    have ih := @ih fun f hmem => hf f (by simp [hmem])
    unfold positional at h
    grind

theorem recordReader_consumes (zero : σ) (hf : ∀ f ∈ fields, f.read.Consumes) :
    (recordReader fields zero).Consumes := by
  intro depth s x r h
  unfold recordReader at h
  dsimp only at h
  split at h
  · rename_i d r' hd
    obtain ⟨_, -, ⟨⟩⟩ := Option.map_eq_some_iff.mp h
    split at hd <;> try rename_i hm
    · split at hd
      · cases hd
      · have := positional_length hf hd
        have := marker_length hm
        omega
    · split at hd
      · cases hd
      · have := items_length (by
          intro d s d' r he
          split at he
          · rename_i n r' hn
            have := name_length hn
            split at he
            · rename_i f hfind
              obtain ⟨i, -, hi⟩ := Option.bind_eq_some_iff.mp hfind
              have := Draft.enter_length (hf f (List.mem_of_getElem? hi)) he
              omega
            · have hitem := @item_length
              grind
          · cases he) hd
        have := marker_length hm
        omega
    · have hmarker := @marker_length
      have htakeBytes := @takeBytes_length
      grind
    · cases hd
  · cases h

end Records

theorem dialect_consumes : dialect.Consumes where
  text := textReader_consumes
  native := by
    intro depth s b r h
    obtain ⟨⟨x, r⟩, hx, ⟨⟩⟩ := Option.map_eq_some_iff.mp h
    exact item_length hx
  optional := optionalReader_consumes
  record := recordReader_consumes

end MessagePack

namespace Codec

theorem dialect_consumes (c : Codec) : c.dialect.Consumes := by
  cases c with
  | json => exact Json.dialect_consumes
  | cbor => exact Cbor.dialect_consumes
  | msgpack => exact MessagePack.dialect_consumes

theorem afterMessage_length (s rest : Bytes) : (afterMessage s rest).length ≤ rest.length := by
  unfold afterMessage
  grind

theorem next_length {α : Type} {c : Codec} {read : Dialect → Reader α}
    (hread : (read c.dialect).Consumes) {i i' : Input} {a : α}
    (h : c.next read i = .ok (some (a, i'))) : i'.bytes.length < i.bytes.length := by
  have hgap := (i.bytes.dropWhile_sublist isGap).length_le
  unfold next at h
  -- Only JSON drops bytes around the message.
  cases c with
  | json => grind [Reader.Consumes, reject, afterMessage_length]
  | cbor => grind [Reader.Consumes, reject]
  | msgpack => grind [Reader.Consumes, reject]

end Codec

namespace Request

theorem callReader_consumes {d : Dialect} (hd : d.Consumes) : (callReader d).Consumes := by
  refine hd.record _ fun f hf => ?_
  simp only [List.mem_cons, List.not_mem_nil, or_false] at hf
  rcases hf with rfl | rfl
  · exact hd.text.map _
  · exact (hd.optional hd.native).map _

theorem frameReader_consumes {d : Dialect} (hd : d.Consumes) : (frameReader d).Consumes := by
  refine hd.record _ fun f hf => ?_
  simp only [List.mem_cons, List.not_mem_nil, or_false] at hf
  rcases hf with rfl | rfl | rfl
  · exact hd.text.map _
  · exact (callReader_consumes hd).map _
  · exact (hd.optional hd.native).map _

/-- Reading a request shortens the input. -/
theorem next_length {c : Codec} {i i' : Input} {r : Request}
    (h : next c i = .ok (some (r, i'))) : i'.bytes.length < i.bytes.length := by
  unfold next at h
  split at h <;> cases h
  rename_i hf
  exact Codec.next_length (frameReader_consumes c.dialect_consumes) hf

end Request
end EditorAgent

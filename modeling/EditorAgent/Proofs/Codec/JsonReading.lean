import EditorAgent.Proofs.Codec.JsonLookahead
import EditorAgent.Proofs.Codec.Spelling
import EditorAgent.Proofs.Text.Encoding
import Mathlib.Tactic.IntervalCases

/-!
# JSON readers read what is written

Text is laid out over lines or compact; both are read alike. What is read as a value of no certain type is normal:
bytes have become text, and tables are sorted.
-/

namespace EditorAgent

variable {α β σ : Type}

namespace Json

/-- Characters as bytes. -/
def bytesOf (cs : List Char) : Bytes := cs.flatMap String.utf8EncodeChar

theorem encode_ofList (cs : List Char) : Utf8.encode (String.ofList cs) = bytesOf cs := by
  rw [Utf8.encode, String.toList_ofList, bytesOf]

theorem bytesOf_append (cs ds : List Char) : bytesOf (cs ++ ds) = bytesOf cs ++ bytesOf ds := List.flatMap_append

theorem bytesOf_cons (c : Char) (cs : List Char) : bytesOf (c :: cs) = String.utf8EncodeChar c ++ bytesOf cs :=
  List.flatMap_cons

/-! ## Strings -/

/-- Bytes that stand for themselves in a string. -/
def Plain (b : UInt8) : Prop := b ≠ 0x22 ∧ b ≠ 0x5C ∧ ¬b < 0x20

theorem stringBytes_of_plain {bs : Bytes} (h : ∀ b ∈ bs, Plain b) (acc s : Bytes) :
    stringBytes acc (bs ++ s) = stringBytes (bs.reverse ++ acc) s := by
  induction bs generalizing acc with
  | nil => rfl
  | cons b bs ih =>
    obtain ⟨hquote, hslash, hlow⟩ := h b List.mem_cons_self
    rw [List.cons_append, stringBytes_plain hquote hslash, if_neg hlow, ih fun b hb => h b (List.mem_cons_of_mem _ hb),
      List.reverse_cons, List.append_assoc]
    rfl

theorem plain_of_char {c : Char} (hquote : c ≠ '"') (hslash : c ≠ '\\') (hlow : 0x20 ≤ c.toNat) :
    ∀ b ∈ String.utf8EncodeChar c, Plain b := by
  have hplain {n : Nat} (hn : n < 256) (h : 0x20 ≤ n ∧ n ≠ 0x22 ∧ n ≠ 0x5C) : Plain (UInt8.ofNat n) := by
    simp only [Plain, ne_eq, Utf8.ofNat_eq_iff hn, Utf8.ofNat_lt_iff hn, UInt8.reduceToNat]
    omega
  have hquote' : c.toNat ≠ 0x22 := fun h => hquote (Char.toNat_inj.mp h)
  have hslash' : c.toNat ≠ 0x5C := fun h => hslash (Char.toNat_inj.mp h)
  have hvalid : c.toNat < 0xD800 ∨ 0xDFFF < c.toNat ∧ c.toNat < 0x110000 := c.valid
  unfold String.utf8EncodeChar
  rw [show c.val.toNat = c.toNat from rfl]
  generalize c.toNat = v at *
  dsimp only
  split_ifs with h1 h2 h3
  all_goals
    simp only [List.mem_cons, List.not_mem_nil, or_false, forall_eq_or_imp, forall_eq]
  · exact hplain (by omega) (by omega)
  · exact ⟨hplain (by omega) (by omega), hplain (by omega) (by omega)⟩
  · exact ⟨hplain (by omega) (by omega), hplain (by omega) (by omega), hplain (by omega) (by omega)⟩
  · exact ⟨hplain (by omega) (by omega), hplain (by omega) (by omega), hplain (by omega) (by omega),
      hplain (by omega) (by omega)⟩

theorem stringBytes_unicode {a b c d : UInt8} {n : Nat} (h : hex4? a b c d = some n) (hlow : isLow n = false)
    (hhigh : isHigh n = false) (acc s : Bytes) :
    stringBytes acc (0x5C :: 0x75 :: a :: b :: c :: d :: s) = stringBytes ((charBytes n).reverse ++ acc) s := by
  rw [stringBytes, h]
  simp [hlow, hhigh]

/-- Control characters without a letter of their own are escaped by their digits. -/
theorem escape_control : ∀ n < 0x20, n ∉ [8, 9, 10, 12, 13] → ∃ a b : UInt8,
    bytesOf (escape (Char.ofNat n)) = [0x5C, 0x75, 0x30, 0x30, a, b] ∧ hex4? 0x30 0x30 a b = some n ∧
      charBytes n = [UInt8.ofNat n] := by
  intro n hn hletter
  interval_cases n
  all_goals first
    | exact absurd hletter (by decide)
    | exact ⟨_, _, rfl, rfl, rfl⟩

theorem stringBytes_control {n : Nat} (hn : n < 0x20) (acc s : Bytes) :
    stringBytes acc (bytesOf (escape (Char.ofNat n)) ++ s) = stringBytes (UInt8.ofNat n :: acc) s := by
  by_cases hletter : n ∈ [8, 9, 10, 12, 13]
  · simp only [List.mem_cons, List.not_mem_nil, or_false] at hletter
    obtain rfl | rfl | rfl | rfl | rfl := hletter <;> rfl
  · obtain ⟨a, b, hescape, hhex, hchar⟩ := escape_control n hn hletter
    rw [hescape]
    have hlow : isLow n = false := by simp [isLow]; omega
    have hhigh : isHigh n = false := by simp [isHigh]; omega
    exact (stringBytes_unicode hhex hlow hhigh acc s).trans (by rw [hchar]; rfl)

theorem stringBytes_char (acc : Bytes) (c : Char) (s : Bytes) :
    stringBytes acc (bytesOf (escape c) ++ s) = stringBytes ((String.utf8EncodeChar c).reverse ++ acc) s := by
  by_cases hquote : c = '"'
  · subst hquote
    rfl
  by_cases hslash : c = '\\'
  · subst hslash
    rfl
  by_cases hlow : 0x20 ≤ c.toNat
  · have hescape : bytesOf (escape c) = String.utf8EncodeChar c := by
      rw [escape, if_neg hquote, if_neg hslash, if_pos hlow, bytesOf_cons]
      exact List.append_nil _
    rw [hescape, stringBytes_of_plain (plain_of_char hquote hslash hlow)]
  · have hchar : String.utf8EncodeChar c = [UInt8.ofNat c.toNat] := by
      unfold String.utf8EncodeChar
      exact if_pos (show c.toNat ≤ 127 by omega)
    have hcontrol := stringBytes_control (show c.toNat < 0x20 by omega) acc s
    rw [Char.ofNat_toNat] at hcontrol
    rw [hchar]
    exact hcontrol

theorem stringBytes_chars (acc : Bytes) (cs : List Char) (s : Bytes) :
    stringBytes acc (bytesOf (cs.flatMap escape) ++ 0x22 :: s) = some (acc.reverse ++ bytesOf cs, s) := by
  induction cs generalizing acc with
  | nil => simp [bytesOf, stringBytes]
  | cons c cs ih =>
    rw [List.flatMap_cons, bytesOf_append, List.append_assoc, stringBytes_char, ih, bytesOf_cons]
    simp

theorem bytesOf_quote (s : String) : bytesOf (quote s) = 0x22 :: (bytesOf (s.toList.flatMap escape) ++ [0x22]) := by
  rw [quote, bytesOf_cons, bytesOf_append]
  rfl

theorem string_quote (s : String) (rest : Bytes) :
    string (bytesOf (s.toList.flatMap escape) ++ 0x22 :: rest) = some (s, rest) := by
  have hs : bytesOf s.toList = Utf8.encode s := rfl
  rw [string, stringBytes_chars, List.reverse_nil, List.nil_append, hs]
  dsimp only
  rw [Utf8.decode?_encode, Option.map_some]

/-! ## Numbers -/

/-- A number is over before these bytes. -/
def Ends (s : Bytes) : Prop := ∀ b ∈ s.head?, isDigit b = false ∧ b ≠ 0x2E ∧ b ≠ 0x65 ∧ b ≠ 0x45

theorem ends_cons {b : UInt8} (h : isDigit b = false ∧ b ≠ 0x2E ∧ b ≠ 0x65 ∧ b ≠ 0x45) (s : Bytes) :
    Ends (b :: s) := by
  rintro _ ⟨⟩
  exact h

theorem startsDigit_of_ends {s : Bytes} (h : Ends s) : startsDigit s = false := by
  cases s with
  | nil => rfl
  | cons b s => exact (h b rfl).1

/-- The bytes of a number without a sign. -/
def digits (n : Nat) : Bytes := bytesOf (Nat.toDigits 10 n)

theorem digit_eq : ∀ n < 10, String.utf8EncodeChar n.digitChar = [UInt8.ofNat (0x30 + n)] ∧
    isDigit (UInt8.ofNat (0x30 + n)) = true ∧ digitValue (UInt8.ofNat (0x30 + n)) = n := by
  decide

theorem digits_of_lt {n : Nat} (h : n < 10) : digits n = [UInt8.ofNat (0x30 + n)] := by
  rw [digits, Nat.toDigits_eq_if (by decide), if_pos h, bytesOf_cons, (digit_eq n h).1]
  rfl

theorem digits_of_ge {n : Nat} (h : 10 ≤ n) : digits n = digits (n / 10) ++ [UInt8.ofNat (0x30 + n % 10)] := by
  rw [digits, Nat.toDigits_eq_if (by decide), if_neg (by omega), bytesOf_append, bytesOf_cons,
    (digit_eq (n % 10) (by omega)).1]
  rfl

/-- Only zero is written with a zero in front. -/
theorem exists_digits (n : Nat) : ∃ b t, digits n = b :: t ∧ isDigit b = true ∧ (b = 0x30 → n = 0 ∧ t = []) := by
  induction n using Nat.strongRecOn with
  | ind n ih =>
    by_cases h : n < 10
    · refine ⟨_, _, digits_of_lt h, (digit_eq n h).2.1, fun hzero => ⟨?_, rfl⟩⟩
      have h0 : 0x30 + n = 0x30 := (Utf8.ofNat_eq_iff (by omega) 0x30).mp hzero
      omega
    · obtain ⟨b, t, hb, hdigit, hzero⟩ := ih (n / 10) (by omega)
      refine ⟨b, t ++ [UInt8.ofNat (0x30 + n % 10)], ?_, hdigit, fun h0 => ?_⟩
      · rw [digits_of_ge (by omega), hb, List.cons_append]
      · have := (hzero h0).1
        omega

theorem accumulate_digits {n : Nat} (hn : n ≤ maxU64) (s : Bytes) :
    ∃ k, accumulate 0 0 (digits n ++ s) = accumulate n k s := by
  induction n using Nat.strongRecOn generalizing s with
  | ind n ih =>
    have hstep (m k : Nat) (hm : m * 10 + n % 10 ≤ maxU64) :
        accumulate m k (UInt8.ofNat (0x30 + n % 10) :: s) = accumulate (m * 10 + n % 10) (k + 1) s := by
      obtain ⟨-, hdigit, hvalue⟩ := digit_eq (n % 10) (by omega)
      rw [accumulate, hdigit, hvalue]
      exact if_pos (by simpa using hm)
    by_cases h : n < 10
    · refine ⟨1, ?_⟩
      have hzero := hstep 0 0 (by omega)
      rw [Nat.mod_eq_of_lt h] at hzero
      rw [digits_of_lt h]
      exact hzero.trans (by simp)
    · obtain ⟨k, hk⟩ := ih (n / 10) (by omega) (by omega) (UInt8.ofNat (0x30 + n % 10) :: s)
      have hsum : n / 10 * 10 + n % 10 = n := by omega
      refine ⟨k + 1, ?_⟩
      rw [digits_of_ge (by omega), List.append_assoc]
      exact hk.trans ((hstep _ _ (by omega)).trans (by rw [hsum]))

theorem afterInteger_of_ends {s : Bytes} (h : Ends s) (neg : Bool) (n : Nat) :
    afterInteger neg n s = some (integer neg n, s) := by
  cases s with
  | nil => rfl
  | cons b s =>
    obtain ⟨-, hpoint, hlower, hupper⟩ := h b rfl
    rw [afterInteger_cons, if_neg hpoint, if_neg (by simp [hlower, hupper])]

theorem magnitude_digits {n : Nat} (hn : n ≤ maxU64) {rest : Bytes} (hrest : Ends rest) (neg : Bool) :
    magnitude neg (digits n ++ rest) = some (integer neg n, rest) := by
  obtain ⟨b, t, hb, hdigit, hzero⟩ := exists_digits n
  have hstart : startsDigit rest = false := startsDigit_of_ends hrest
  by_cases h0 : b = 0x30
  · obtain ⟨rfl, rfl⟩ := hzero h0
    rw [hb, List.cons_append, magnitude_cons, if_pos h0, List.nil_append, hstart]
    exact afterInteger_of_ends hrest neg 0
  · obtain ⟨k, hk⟩ := accumulate_digits hn rest
    have hstop : accumulate n k rest = (n, k, rest) := by
      cases rest with
      | nil => rfl
      | cons c s =>
        rw [accumulate, (hrest c rfl).1]
        rfl
    rw [hstop, hb, List.cons_append] at hk
    rw [hb, List.cons_append, magnitude_cons, if_neg h0, hdigit, hk, hstart]
    exact afterInteger_of_ends hrest neg n

theorem toString_toList (i : Int) :
    bytesOf (toString i).toList = if 0 ≤ i then digits i.toNat else 0x2D :: digits (-i).toNat := by
  rw [Int.toString_eq_repr, Int.repr_eq_if]
  split_ifs
  · rw [Nat.toList_repr, digits]
  · rw [String.toList_append, Nat.toList_repr, bytesOf_append, digits]
    rfl

theorem exists_toString (i : Int) : ∃ b t, bytesOf (toString i).toList = b :: t ∧ (b = 0x2D ∨ isDigit b = true) := by
  rw [toString_toList]
  split_ifs
  · obtain ⟨b, t, hb, hdigit, -⟩ := exists_digits i.toNat
    exact ⟨b, t, hb, .inr hdigit⟩
  · exact ⟨_, _, rfl, .inl rfl⟩

theorem number_int {i : Int} (hlo : -0x8000000000000000 ≤ i) (hhi : i < 0x10000000000000000) {rest : Bytes}
    (hrest : Ends rest) : number (bytesOf (toString i).toList ++ rest) = some (.int i, rest) := by
  rw [toString_toList]
  split_ifs with h
  · obtain ⟨b, t, hb, hdigit, -⟩ := exists_digits i.toNat
    have hminus : b ≠ 0x2D := by
      rintro rfl
      cases hdigit
    have hread := magnitude_digits (show i.toNat ≤ maxU64 by simp only [maxU64]; omega) hrest false
    rw [hb, List.cons_append] at hread
    rw [hb, List.cons_append, number_cons, if_neg hminus, hread]
    simp [integer, h]
  · have hread := magnitude_digits (show (-i).toNat ≤ maxU64 by simp only [maxU64]; omega) hrest true
    have hfits : ¬((-i).toNat = 0 || 0x8000000000000000 < (-i).toNat) := by
      rw [Bool.or_eq_true, decide_eq_true_iff, decide_eq_true_iff]
      omega
    have hneg : -((-i).toNat : Int) = i := by omega
    rw [List.cons_append, number_cons, if_pos rfl, hread, integer, if_neg (by decide), if_neg hfits, hneg]

/-! ## Layout -/

/-- Bytes between the parts of a text. -/
def Blank (s : Bytes) : Prop := ∀ b ∈ s, isSpace b = true

theorem skipSpace_of_blank {g : Bytes} (hg : Blank g) {b : UInt8} (hb : isSpace b = false) (s : Bytes) :
    skipSpace (g ++ b :: s) = b :: s := by
  rw [skipSpace, List.dropWhile_append_of_pos hg]
  exact skipSpace_cons hb s

theorem ends_of_blank {g s : Bytes} (hg : Blank g) (hs : Ends s) : Ends (g ++ s) := by
  cases g with
  | nil => exact hs
  | cons b g =>
    have hspace := hg b List.mem_cons_self
    refine ends_cons ?_ _
    simp only [isSpace, Bool.or_eq_true, decide_eq_true_eq] at hspace
    obtain ((rfl | rfl) | rfl) | rfl := hspace <;> decide

/-- The items of a container after its opening mark. -/
def spread (gap close : Bytes) (mark : UInt8) (spell : β → Bytes) : List β → Bytes
  | [] => [mark]
  | x :: xs => gap ++ (spell x ++ (xs.flatMap (fun x => 0x2C :: (gap ++ spell x)) ++ (close ++ [mark])))

theorem length_le_spread (gap close : Bytes) (mark : UInt8) (spell : β → Bytes) (xs : List β) :
    xs.length ≤ (spread gap close mark spell xs).length := by
  have hlater (xs : List β) : xs.length ≤ (xs.flatMap fun x => 0x2C :: (gap ++ spell x)).length := by
    induction xs with
    | nil => exact Nat.le_refl 0
    | cons x xs ih =>
      rw [List.flatMap_cons, List.length_append, List.length_cons, List.length_cons]
      omega
  cases xs with
  | nil => exact Nat.zero_le 1
  | cons x xs =>
    have hxs := hlater xs
    simp only [spread, List.length_append, List.length_cons, List.length_nil]
    omega

section Series

variable {mark : UInt8} {gap close : Bytes} {spell : β → Bytes} {item : Bool → σ → Bytes → Option (σ × Bytes)}
  {step : σ → β → σ → Prop}

/-- A mark that closes a container. -/
structure Closes (mark : UInt8) : Prop where
  space : isSpace mark = false
  comma : mark ≠ 0x2C
  ends (rest : Bytes) : Ends (mark :: rest)

theorem closes_bracket : Closes 0x5D := ⟨by decide, by decide, ends_cons (by decide)⟩

theorem closes_brace : Closes 0x7D := ⟨by decide, by decide, ends_cons (by decide)⟩

theorem ends_of_later (hmark : Closes mark) (gap : Bytes) (hclose : Blank close) (spell : β → Bytes) (xs : List β)
    (rest : Bytes) :
    Ends (xs.flatMap (fun x => 0x2C :: (gap ++ spell x)) ++ (close ++ mark :: rest)) := by
  cases xs with
  | nil =>
    rw [List.flatMap_nil, List.nil_append]
    exact ends_of_blank hclose (hmark.ends rest)
  | cons y ys => exact ends_cons (by decide) _

theorem series_of_later (hmark : Closes mark) (hclose : Blank close)
    (hitem : ∀ acc x acc', step acc x acc' → ∀ rest, Ends rest →
      item false acc (gap ++ (spell x ++ rest)) = some (acc', rest))
    {acc acc' : σ} {xs : List β} (h : Run step acc xs acc') {fuel : Nat} (hfuel : xs.length < fuel) (rest : Bytes) :
    series mark item fuel false acc (xs.flatMap (fun x => 0x2C :: (gap ++ spell x)) ++ (close ++ mark :: rest)) =
      some (acc', rest) := by
  induction h generalizing fuel with
  | nil =>
    obtain ⟨fuel, rfl⟩ : ∃ m, fuel = m + 1 := ⟨fuel - 1, by omega⟩
    rw [List.flatMap_nil, List.nil_append, series, skipSpace_of_blank hclose hmark.space]
    exact if_pos rfl
  | @cons acc _ _ x xs hstep _ ih =>
    obtain ⟨fuel, rfl⟩ : ∃ m, fuel = m + 1 := ⟨fuel - 1, by omega⟩
    rw [List.flatMap_cons, List.append_assoc, List.cons_append, series, skipSpace_cons (by decide)]
    dsimp only
    rw [if_neg (Ne.symm hmark.comma), if_neg (by decide), if_neg (by decide), List.append_assoc,
      hitem _ _ _ hstep _ (ends_of_later hmark gap hclose spell xs rest)]
    exact ih (by simpa using hfuel)

theorem series_of_run (hmark : Closes mark) (hgap : Blank gap) (hclose : Blank close) {acc acc' : σ} {xs : List β}
    (hopen : ∀ x ∈ xs, ∃ b t, spell x = b :: t ∧ isSpace b = false ∧ b ≠ mark ∧ b ≠ 0x2C)
    (hitem : ∀ first acc x acc', step acc x acc' → ∀ rest, Ends rest →
      item first acc ((if first then [] else gap) ++ (spell x ++ rest)) = some (acc', rest))
    (h : Run step acc xs acc') {fuel : Nat} (hfuel : xs.length < fuel) (rest : Bytes) :
    series mark item fuel true acc (spread gap close mark spell xs ++ rest) = some (acc', rest) := by
  obtain ⟨fuel, rfl⟩ : ∃ m, fuel = m + 1 := ⟨fuel - 1, by omega⟩
  cases h with
  | nil =>
    rw [spread, List.cons_append, series, skipSpace_cons hmark.space]
    exact if_pos rfl
  | @cons _ _ _ x xs hstep h =>
    obtain ⟨b, t, hb, hspace, hne, hcomma⟩ := hopen x List.mem_cons_self
    have hrest := ends_of_later hmark gap hclose spell xs rest
    have hfirst := hitem true _ _ _ hstep _ hrest
    rw [if_pos rfl, List.nil_append, hb, List.cons_append] at hfirst
    rw [spread, List.append_assoc, List.append_assoc, List.append_assoc, List.append_assoc, List.singleton_append, hb,
      List.cons_append, series, skipSpace_of_blank hgap hspace]
    dsimp only
    rw [if_neg hne, if_neg (by simpa using hcomma), if_pos rfl, hfirst]
    exact series_of_later hmark hclose (hitem false) h (by simpa using hfuel) rest

end Series

/-- Blanks before an item inside so many containers. -/
def gap (wide : Bool) (level : Nat) : Bytes := bytesOf (if wide then newline level else [])

/-- The blank after a colon. -/
def space (wide : Bool) : Bytes := if wide then [0x20] else []

/-- A text as bytes, over lines or compact. -/
def spell (wide : Bool) (level : Nat) (v : Value) : Bytes :=
  bytesOf (if wide then prettyChars level v else compactChars v)

def spellEntry (wide : Bool) (level : Nat) (e : String × Value) : Bytes :=
  bytesOf (quote e.1) ++ 0x3A :: (space wide ++ spell wide level e.2)

theorem blank_gap (wide : Bool) (level : Nat) : Blank (gap wide level) := by
  cases wide
  · exact nofun
  · intro b hb
    simp only [gap, bytesOf, newline, if_true, List.mem_flatMap, List.mem_cons, List.mem_replicate] at hb
    obtain ⟨c, rfl | ⟨-, rfl⟩, hb⟩ := hb
    · obtain rfl : b = 0x0A := List.mem_singleton.mp hb
      rfl
    · obtain rfl : b = 0x20 := List.mem_singleton.mp hb
      rfl

theorem spell_list (wide : Bool) (level : Nat) (xs : List Value) : spell wide level (.list xs) =
    0x5B :: spread (gap wide (level + 1)) (gap wide level) 0x5D (spell wide (level + 1)) xs := by
  have hlater (xs : List Value) : bytesOf (if wide then prettyItems level xs else compactItems xs) =
      xs.flatMap (fun x => 0x2C :: (gap wide (level + 1) ++ spell wide (level + 1) x)) ++
        (gap wide level ++ [0x5D]) := by
    induction xs with
    | nil =>
      cases wide
      · rfl
      · exact bytesOf_append _ _
    | cons x xs ih =>
      rw [List.flatMap_cons, List.append_assoc, ← ih]
      cases wide <;> simp only [prettyItems, compactItems, gap, spell, bytesOf_append, bytesOf_cons, if_true,
        Bool.false_eq_true, if_false, List.append_assoc, List.cons_append] <;> rfl
  cases xs with
  | nil => cases wide <;> rfl
  | cons x xs =>
    rw [spread, ← hlater]
    cases wide <;> simp only [spell, prettyChars, compactChars, gap, bytesOf_append, bytesOf_cons, if_true,
      Bool.false_eq_true, if_false, List.append_assoc] <;> rfl

theorem spell_table (wide : Bool) (level : Nat) (es : List (String × Value)) : spell wide level (.table es) =
    0x7B :: spread (gap wide (level + 1)) (gap wide level) 0x7D (spellEntry wide (level + 1)) es := by
  have hlater (es : List (String × Value)) : bytesOf (if wide then prettyEntries level es else compactEntries es) =
      es.flatMap (fun e => 0x2C :: (gap wide (level + 1) ++ spellEntry wide (level + 1) e)) ++
        (gap wide level ++ [0x7D]) := by
    induction es with
    | nil =>
      cases wide
      · rfl
      · exact bytesOf_append _ _
    | cons e es ih =>
      rw [List.flatMap_cons, List.append_assoc, ← ih]
      cases wide <;> simp only [prettyEntries, compactEntries, gap, spellEntry, space, spell, bytesOf_append,
        bytesOf_cons, if_true, Bool.false_eq_true, if_false, List.append_assoc, List.cons_append] <;> rfl
  cases es with
  | nil => cases wide <;> rfl
  | cons e es =>
    rw [spread, ← hlater]
    cases wide <;> simp only [spell, spellEntry, space, prettyChars, compactChars, gap, bytesOf_append, bytesOf_cons,
      if_true, Bool.false_eq_true, if_false, List.append_assoc, List.cons_append] <;> rfl

theorem spell_unit (wide : Bool) (level : Nat) : spell wide level .unit = spell wide level .null := by
  cases wide <;> rfl

theorem spell_null (wide : Bool) (level : Nat) : spell wide level .null = [0x6E, 0x75, 0x6C, 0x6C] := by
  cases wide <;> rfl

theorem spell_bool (wide : Bool) (level : Nat) (b : Bool) : spell wide level (.bool b) =
    if b then [0x74, 0x72, 0x75, 0x65] else [0x66, 0x61, 0x6C, 0x73, 0x65] := by
  cases wide <;> cases b <;> rfl

theorem spell_int (wide : Bool) (level : Nat) (i : Int) :
    spell wide level (.int i) = bytesOf (toString i).toList := by
  cases wide <;> rfl

theorem spell_text (wide : Bool) (level : Nat) (s : String) :
    spell wide level (.text s) = 0x22 :: (bytesOf (s.toList.flatMap escape) ++ [0x22]) := by
  cases wide <;> exact bytesOf_quote s

/-- Bytes are written as text. -/
theorem spell_bytes (wide : Bool) (level : Nat) (b : Bytes) :
    spell wide level (.bytes b) = spell wide level (.text (Base64.encode Base64.standard b)) := by
  cases wide <;> rfl

/-! ## Values -/

mutual

/-- What is read of a written value if no certain type is asked for. -/
def normal : Value → Value
  | .null => .null
  | .unit => .null
  | .bool b => .bool b
  | .int i => .int i
  | .float bits => .float bits
  | .text s => .text s
  | .bytes b => .text (Base64.encode Base64.standard b)
  | .list xs => .list (normalItems xs)
  | .table es => .ofEntries (normalEntries es)

def normalItems : List Value → List Value
  | [] => []
  | x :: xs => normal x :: normalItems xs

def normalEntries : List (String × Value) → List (String × Value)
  | [] => []
  | (k, v) :: es => (k, normal v) :: normalEntries es

end

theorem normalItems_eq (xs : List Value) : normalItems xs = xs.map normal := by
  induction xs with
  | nil => rfl
  | cons x xs ih => rw [normalItems, ih, List.map_cons]

theorem normalEntries_eq (es : List (String × Value)) : normalEntries es = es.map fun e => (e.1, normal e.2) := by
  induction es with
  | nil => rfl
  | cons e es ih => rw [normalEntries, ih, List.map_cons]

/-- Values that JSON has are normal. -/
theorem normal_of_isJson {first : String → Prop} {v : Value} (h : v.IsJson first) : normal v = v := by
  induction h with
  | null => rfl
  | bool b => rfl
  | int i => rfl
  | text s => rfl
  | list _ ih => rw [normal, normalItems_eq, List.map_congr_left ih, List.map_id']
  | @table es hsorted _ _ ih =>
    have hes : es.map (fun e => (e.1, normal e.2)) = es.map id := List.map_congr_left fun e he => by rw [ih e he, id]
    rw [normal, normalEntries_eq, hes, List.map_id, Value.ofEntries, sortedOfEntries_of_sorted hsorted]

/-- The format. A value stands inside so many containers, perhaps after a colon. -/
def format (wide : Bool) : Format where
  Place := Nat × Bool
  spell place v := space place.2 ++ spell wide place.1 v
  passedOn v := Utf8.encode (compact (normal v))
  holds _ := True
  buffers _ := True
  ends := Ends

/-- What a spelled value opens with shows that it is no mark and, unless it is nothing, that it is something. -/
theorem exists_spell (wide : Bool) {n : Nat} {v : Value} (hv : v.Fits (fun _ => True) n) (level : Nat) :
    ∃ b t, spell wide level v = b :: t ∧ isSpace b = false ∧ b ∉ [0x2C, 0x5D, 0x7D] ∧
      (v ≠ .null → v ≠ .unit → b ≠ 0x6E) := by
  cases hv with
  | null => exact ⟨_, _, spell_null wide level, by decide, by decide, fun h _ => absurd rfl h⟩
  | unit =>
    exact ⟨_, _, (spell_unit wide level).trans (spell_null wide level), by decide, by decide,
      fun _ h => absurd rfl h⟩
  | bool b =>
    rw [spell_bool]
    cases b <;> exact ⟨_, _, rfl, by decide, by decide, fun _ _ => by decide⟩
  | @int _ i _ _ =>
    obtain ⟨b, t, hb, hopen⟩ := exists_toString i
    have hne {c : UInt8} (hc : ¬(c = 0x2D ∨ isDigit c = true)) : b ≠ c := fun h => hc (h ▸ hopen)
    refine ⟨b, t, (spell_int wide level i).trans hb, ?_, ?_, fun _ _ => hne (by decide)⟩
    · simp only [isSpace, Bool.or_eq_false_iff, decide_eq_false_iff_not]
      exact ⟨⟨⟨hne (by decide), hne (by decide)⟩, hne (by decide)⟩, hne (by decide)⟩
    · simp only [List.mem_cons, List.not_mem_nil, or_false, not_or]
      exact ⟨hne (by decide), hne (by decide), hne (by decide)⟩
  | text => exact ⟨_, _, spell_text wide level _, by decide, by decide, fun _ _ => by decide⟩
  | bytes =>
    exact ⟨_, _, (spell_bytes wide level _).trans (spell_text wide level _), by decide, by decide,
      fun _ _ => by decide⟩
  | list => exact ⟨_, _, spell_list wide level _, by decide, by decide, fun _ _ => by decide⟩
  | table => exact ⟨_, _, spell_table wide level _, by decide, by decide, fun _ _ => by decide⟩

theorem blank_space (wide : Bool) : Blank (space wide) := by
  cases wide
  · exact nofun
  · intro b hb
    obtain rfl := List.mem_singleton.mp hb
    rfl

section Places

variable {wide : Bool} {n : Nat} {v : Value}

theorem skipSpace_spell (hv : v.Fits (fun _ => True) n) (place : (format wide).Place) (rest : Bytes) :
    ∃ level, skipSpace ((format wide).spell place v ++ rest) = spell wide level v ++ rest := by
  refine ⟨Prod.fst place, ?_⟩
  obtain ⟨b, t, hb, hspace, -⟩ := exists_spell wide hv (Prod.fst place)
  change skipSpace ((space (Prod.snd place) ++ spell wide (Prod.fst place) v) ++ rest) = _
  rw [List.append_assoc, hb]
  exact skipSpace_of_blank (blank_space _) hspace _

/-- The items of a list, and its closing bracket. -/
def listing (wide : Bool) (level : Nat) (xs : List Value) : Bytes :=
  spread (gap wide (level + 1)) (gap wide level) 0x5D (spell wide (level + 1)) xs

/-- The entries of an object, and its closing brace. -/
def object (wide : Bool) (level : Nat) (es : List (String × Value)) : Bytes :=
  spread (gap wide (level + 1)) (gap wide level) 0x7D (spellEntry wide (level + 1)) es

theorem items_spelled {item : σ → Bytes → Option (σ × Bytes)} {step : σ → Value → σ → Prop} {level : Nat}
    {acc acc' : σ} {xs : List Value} (hxs : ∀ x ∈ xs, x.Fits (fun _ => True) n)
    (hitem : ∀ acc x acc', x.Fits (fun _ => True) n → step acc x acc' → ∀ place rest, Ends rest →
      item acc ((format wide).spell place x ++ rest) = some (acc', rest))
    (h : Run step acc xs acc') (rest : Bytes) :
    items item ((listing wide level xs ++ rest).length + 1) true acc (listing wide level xs ++ rest) =
      some (acc', rest) := by
  have hspell (x : Value) (hx : x.Fits (fun _ => True) n) : ∃ b t, spell wide (level + 1) x = b :: t ∧
      isSpace b = false ∧ b ≠ 0x5D ∧ b ≠ 0x2C := by
    obtain ⟨b, t, hb, hspace, hmarks, -⟩ := exists_spell wide hx (level + 1)
    exact ⟨b, t, hb, hspace, by rintro rfl; exact hmarks (by decide), by rintro rfl; exact hmarks (by decide)⟩
  rw [items_eq_series]
  refine series_of_run closes_bracket (blank_gap _ _) (blank_gap _ _)
    (fun x hx => hspell x (hxs x hx)) (fun first acc x acc' hstep rest hrest => ?_) (h.and_forall hxs) ?_ rest
  · have hread : item acc (spell wide (level + 1) x ++ rest) = some (acc', rest) :=
      hitem acc x acc' hstep.1 hstep.2 (level + 1, false) rest hrest
    cases first
    · obtain ⟨b, t, hb, hspace, hclose, -⟩ := hspell x hstep.1
      have hskip : skipSpace (gap wide (level + 1) ++ (spell wide (level + 1) x ++ rest)) =
          spell wide (level + 1) x ++ rest := by
        rw [hb]
        exact skipSpace_of_blank (blank_gap _ _) hspace _
      rw [if_neg (by decide), listItem_of_not_close, hskip, hread]
      rw [hskip, hb]
      exact fun t ht => hclose (List.cons.inj ht).1
    · exact hread
  · have hlen := length_le_spread (gap wide (level + 1)) (gap wide level) 0x5D (spell wide (level + 1)) xs
    rw [List.length_append, listing]
    omega

theorem key_quote (k : String) (s : Bytes) :
    key (bytesOf (quote k) ++ 0x3A :: s) = some (k, s) := by
  have hstring := string_quote k (0x3A :: s)
  rw [bytesOf_quote, List.cons_append, List.append_assoc, List.singleton_append]
  simp only [key, hstring, skipSpace_cons (b := 0x3A) (by decide)]

theorem entries_spelled {entry : σ → String → Bytes → Option (σ × Bytes)} {step : σ → String × Value → σ → Prop}
    (level : Nat) {acc acc' : σ} {es : List (String × Value)} (hes : ∀ e ∈ es, e.2.Fits (fun _ => True) n)
    (hentry : ∀ acc e acc', e.2.Fits (fun _ => True) n → step acc e acc' → ∀ place rest, Ends rest →
      entry acc e.1 ((format wide).spell place e.2 ++ rest) = some (acc', rest))
    (h : Run step acc es acc') (rest : Bytes) :
    entries entry ((object wide level es ++ rest).length + 1) true acc (object wide level es ++ rest) =
      some (acc', rest) := by
  have hspell (e : String × Value) : ∃ t, spellEntry wide (level + 1) e = 0x22 :: t := by
    rw [spellEntry, bytesOf_quote]
    exact ⟨_, rfl⟩
  rw [entries_eq_series]
  refine series_of_run closes_brace (blank_gap _ _) (blank_gap _ _)
    (fun e _ => ?_) (fun first acc e acc' hstep rest hrest => ?_) (h.and_forall hes) ?_ rest
  · obtain ⟨t, ht⟩ := hspell e
    exact ⟨_, t, ht, by decide, by decide, by decide⟩
  · have hread := hentry acc e acc' hstep.1 hstep.2 (level + 1, wide) rest hrest
    have hkey : key (spellEntry wide (level + 1) e ++ rest) =
        some (e.1, (format wide).spell (level + 1, wide) e.2 ++ rest) := by
      rw [spellEntry, List.append_assoc]
      exact key_quote e.1 _
    refine Option.bind_eq_some_iff.mpr ⟨(_, _), ?_, hread⟩
    cases first
    · obtain ⟨t, ht⟩ := hspell e
      have hskip : skipSpace (gap wide (level + 1) ++ (spellEntry wide (level + 1) e ++ rest)) =
          spellEntry wide (level + 1) e ++ rest := by
        rw [ht]
        exact skipSpace_of_blank (blank_gap _ _) (by decide) _
      rw [if_neg (by decide), if_neg (by decide), hskip, hkey]
    · exact hkey
  · have hlen := length_le_spread (gap wide (level + 1)) (gap wide level) 0x7D (spellEntry wide (level + 1)) es
    rw [List.length_append, object]
    omega

end Places

theorem string_spelled (s : String) (rest : Bytes) :
    string (bytesOf (s.toList.flatMap escape) ++ [0x22] ++ rest) = some (s, rest) := by
  rw [List.append_assoc]
  exact string_quote s rest

theorem reads_value (wide : Bool) (v : Value) : (format wide).Reads value v (normal v) := by
  intro n depth hv hdepth place rest hrest
  induction n using Nat.strongRecOn generalizing v depth place rest with
  | ind n ih =>
    obtain ⟨level, hskip⟩ := skipSpace_spell hv place rest
    obtain ⟨depth, rfl⟩ : ∃ d, depth = d + 1 := ⟨depth - 1, by omega⟩
    rw [value, hskip]
    cases hv with
    | null =>
      rw [spell_null]
      rfl
    | unit =>
      rw [spell_unit, spell_null]
      rfl
    | bool b =>
      rw [spell_bool]
      cases b <;> rfl
    | @int _ i hlo hhi =>
      obtain ⟨b, t, hb, hopen⟩ := exists_toString i
      have hnumber := number_int hlo hhi hrest
      rw [spell_int]
      rw [hb, List.cons_append] at hnumber ⊢
      split
      all_goals first
        | exact hnumber
        | next heq =>
          cases heq
          obtain hopen | hopen := hopen <;> cases hopen
    | @text _ s hs =>
      rw [spell_text, List.cons_append]
      exact Option.map_eq_some_iff.mpr ⟨_, string_spelled s rest, rfl⟩
    | @bytes _ b hb =>
      rw [spell_bytes, spell_text, List.cons_append]
      exact Option.map_eq_some_iff.mpr ⟨_, string_spelled _ rest, rfl⟩
    | @list n xs hlen hxs =>
      have hpairs : List.Forall₂ (fun x y => y = normal x) xs (xs.map normal) :=
        List.forall₂_map_right_iff.mpr (List.forall₂_same.mpr fun x hx => rfl)
      rw [spell_list, List.cons_append, normal, normalItems_eq]
      refine (if_neg (by omega)).trans
        (Option.map_eq_some_iff.mpr ⟨((xs.map normal).reverse ++ [], rest), ?_, by simp⟩)
      refine items_spelled hxs (fun acc x acc' hx hstep place rest hrest => ?_)
        (run_of_forall₂ hpairs []) rest
      obtain ⟨_, rfl, rfl⟩ := hstep
      rw [ih n (by omega) x hx (by omega) place rest hrest, Option.map_some]
    | @table n es hlen hkeys hes =>
      have hrun : Run (fun acc (e : String × Value) acc' => acc' = sortedInsert e.1 (normal e.2) acc) [] es
          (sortedOfEntries (es.map fun e => (e.1, normal e.2))) := by
        rw [sortedOfEntries, List.foldl_map]
        exact run_foldl _ _ _
      rw [spell_table, List.cons_append, normal, normalEntries_eq]
      refine (if_neg (by omega)).trans (Option.map_eq_some_iff.mpr ⟨(_, rest), ?_, rfl⟩)
      refine entries_spelled level hes (fun acc e acc' he hstep place rest hrest => ?_) hrun rest
      rw [hstep, ih n (by omega) e.2 he (by omega) place rest hrest, Option.map_some]

/-! ## Dialect -/

section Readers

variable {wide : Bool}

theorem reads_text (s : String) : (format wide).Reads textReader (.text s) s := by
  intro n depth hv _ place rest _
  obtain ⟨level, hskip⟩ := skipSpace_spell hv place rest
  rw [textReader, hskip, spell_text, List.cons_append]
  exact string_spelled s rest

theorem reads_bool (b : Bool) : (format wide).Reads boolReader (.bool b) b := by
  intro n depth hv _ place rest _
  obtain ⟨level, hskip⟩ := skipSpace_spell hv place rest
  rw [boolReader, hskip, spell_bool]
  cases b <;> rfl

theorem reads_unit : (format wide).Reads unitReader .unit () := by
  intro n depth hv _ place rest _
  obtain ⟨level, hskip⟩ := skipSpace_spell hv place rest
  rw [unitReader, hskip, spell_unit, spell_null]
  rfl

theorem reads_integerIn {ok : Int → Bool} {i : Int} (hok : ok i = true) :
    (format wide).Reads (integerIn ok) (.int i) i := by
  intro n depth hv _ place rest hrest
  obtain ⟨level, hskip⟩ := skipSpace_spell hv place rest
  cases hv with
  | int hlo hhi =>
    rw [integerIn, hskip, spell_int, number_int hlo hhi hrest]
    exact if_pos hok

theorem reads_natural (n : Nat) : (format wide).Reads dialect.natural (.nat n) n :=
  .of_int fun _ hhi =>
    (reads_integerIn (by simp only [Int.natCast_nonneg, hhi, decide_true, Bool.and_self])).map Int.toNat

theorem reads_integer {i : Int} (h : i < 0x8000000000000000) : (format wide).Reads dialect.integer (.int i) i :=
  .of_int fun hlo _ => reads_integerIn (by simp only [hlo, h, decide_true, Bool.and_self])

theorem reads_source (b : Bytes) : (format wide).Reads sourceReader (.bytes b) b := by
  intro n depth hv _ place rest _
  obtain ⟨level, hskip⟩ := skipSpace_spell hv place rest
  have hstring := string_spelled (Base64.encode Base64.standard b) rest
  rw [sourceReader, hskip, spell_bytes, spell_text, List.cons_append]
  simp only [hstring, Base64.decode?_encode, Option.map_some]

theorem reads_native (v : Value) : (format wide).Reads dialect.native v (Utf8.encode (compact (normal v))) :=
  (reads_value wide v).map fun v => Utf8.encode (compact v)

theorem reads_choice {names : List String} {s : String} {i : Nat} (h : names.idxOf? s = some i) :
    (format wide).Reads (choiceReader names) (.text s) i := by
  intro n depth hv _ place rest _
  obtain ⟨level, hskip⟩ := skipSpace_spell hv place rest
  have hstring := string_spelled s rest
  rw [choiceReader, hskip, spell_text, List.cons_append]
  simp only [hstring, h, Option.map_some]

theorem reads_absent (r : Reader α) : (format wide).Reads (optionalReader r) .null none := by
  intro n depth hv _ place rest _
  obtain ⟨level, hskip⟩ := skipSpace_spell hv place rest
  rw [optionalReader, hskip, spell_null]
  rfl

theorem reads_present {r : Reader α} {v : Value} {a : α} (hnull : v ≠ .null) (hunit : v ≠ .unit)
    (h : (format wide).Reads r v a) : (format wide).Reads (optionalReader r) v (some a) := by
  intro n depth hv hdepth place rest hrest
  obtain ⟨level, hskip⟩ := skipSpace_spell hv place rest
  have hread : r depth (spell wide level v ++ rest) = some (a, rest) := h hv hdepth (level, false) rest hrest
  obtain ⟨b, t, hb, -, -, hne⟩ := exists_spell wide hv level
  rw [optionalReader, hskip]
  rw [hb, List.cons_append] at hread ⊢
  split
  · next heq =>
    cases heq
    exact absurd rfl (hne hnull hunit)
  · rw [hread, Option.map_some]

theorem reads_list {r : Reader α} {vs : List Value} {as : List α} (h : List.Forall₂ ((format wide).Reads r) vs as) :
    (format wide).Reads (listReader r) (.list vs) as := by
  intro n depth hv hdepth place rest _
  obtain ⟨level, hskip⟩ := skipSpace_spell hv place rest
  rw [listReader, hskip, spell_list, List.cons_append]
  cases hv with
  | list _ hvs =>
    refine (if_neg (by omega)).trans (Option.map_eq_some_iff.mpr ⟨(as.reverse ++ [], rest), ?_, by simp⟩)
    refine items_spelled hvs (fun acc x acc' hx hstep place rest hrest => ?_)
      (run_of_forall₂ h []) rest
    obtain ⟨a, hread, rfl⟩ := hstep
    rw [hread hx (by omega) place rest hrest, Option.map_some]

theorem reads_table {r : Reader α} {es : List (String × Value)} {as : List (String × α)}
    (h : List.Forall₂ (fun e a => e.1 = a.1 ∧ (format wide).Reads r e.2 a.2) es as) :
    (format wide).Reads (tableReader r) (.table es) as := by
  intro n depth hv hdepth place rest _
  obtain ⟨level, hskip⟩ := skipSpace_spell hv place rest
  rw [tableReader, hskip, spell_table, List.cons_append]
  cases hv with
  | table _ _ hes =>
    refine (if_neg (by omega)).trans (Option.map_eq_some_iff.mpr ⟨(as.reverse ++ [], rest), ?_, by simp⟩)
    refine entries_spelled level hes (fun acc e acc' he hstep place rest hrest => ?_) (run_of_forall₂ h []) rest
    obtain ⟨⟨k, a⟩, ⟨rfl, hread⟩, rfl⟩ := hstep
    rw [hread he (by omega) place rest hrest, Option.map_some]

theorem reads_record {fields : List (Field σ)} {zero : σ} {es : List (String × Value)} {p : Draft σ}
    (hoptional : ∀ f ∈ fields, f.required = false) (h : Run ((format wide).Enters fields) ⟨zero, []⟩ es p) :
    (format wide).Reads (recordReader fields zero) (.table es) p.value := by
  intro n depth hv hdepth place rest _
  obtain ⟨level, hskip⟩ := skipSpace_spell hv place rest
  rw [recordReader, hskip, spell_table, List.cons_append]
  cases hv with
  | @table m _ _ _ hes =>
    have hentry (p : Draft σ) (e : String × Value) (p' : Draft σ) (he : e.2.Fits (fun _ => True) m)
        (hstep : (format wide).Enters fields p e p') (place : (format wide).Place) (rest : Bytes) (hrest : Ends rest) :
        recordEntry fields (depth - 1) p e.1 ((format wide).spell place e.2 ++ rest) = some (p', rest) := by
      obtain ⟨f, hfind, -, henter⟩ := hstep.enter
      rw [recordEntry, hfind]
      exact henter he (by omega) place rest hrest
    have hentries := entries_spelled level hes hentry h rest
    refine (if_neg (by omega)).trans ?_
    dsimp only
    split
    · next hdraft =>
      cases hdraft.symm.trans hentries
      rw [Draft.finish_of_optional hoptional]
      rfl
    · next hdraft => cases hdraft.symm.trans hentries

end Readers

theorem faithful (wide : Bool) : dialect.Faithful (format wide) where
  short _ := trivial
  text := reads_text
  bool := reads_bool
  natural := reads_natural
  integer := reads_integer
  source _ := reads_source _
  unit := reads_unit
  choice _ := reads_choice
  value {v} h := by
    have hread := reads_value wide v
    rw [normal_of_isJson h] at hread
    exact hread
  native := reads_native
  absent := reads_absent
  present := reads_present
  list := reads_list
  table := reads_table
  record hoptional _ := reads_record hoptional

end Json
end EditorAgent

import EditorAgent.Proofs.Codec.CborReading

/-!
# MessagePack readers read what is written

The lemmas follow the format from its markers to the records. Numerals are those of CBOR.
-/

namespace EditorAgent

variable {α β σ : Type}

namespace MessagePack

/-! ## Markers -/

theorem takeBytes_append {n : Nat} {b : Bytes} (hb : b.length = n) (rest : Bytes) :
    takeBytes n (b ++ rest) = some (b, rest) :=
  Cbor.takeBytes_append hb rest

theorem numeral_fixedBytes {k n : Nat} (hn : n < 256 ^ k) (rest : Bytes) :
    numeral k (fixedBytes k n ++ rest) = some (n, rest) := by
  have hbig : bigEndian (fixedBytes k n) = n := Cbor.bigEndian_fixedBytes hn
  have hlen : (fixedBytes k n).length = k := Cbor.length_fixedBytes k n
  rw [numeral, takeBytes_append hlen, Option.map_some, hbig]

/-- A marker that is followed by a numeral. -/
theorem marker_sized {b : UInt8} {k n : Nat} {f : Nat → Marker} (hn : n < 256 ^ k)
    (hb : ∀ r, marker (b :: r) = (numeral k r).map fun x => (f x.1, x.2)) (rest : Bytes) :
    marker (b :: fixedBytes k n ++ rest) = some (f n, rest) := by
  rw [List.cons_append, hb, numeral_fixedBytes hn, Option.map_some]

theorem signed_eq {k n : Nat} (hn : Nat.pow 2 (8 * k - 1) ≤ n) : signed k n = (n : Int) - Nat.pow 2 (8 * k) :=
  if_neg (Nat.not_lt.mpr hn)

theorem toNat_ofNat {n : Nat} (hn : n < 256) : (UInt8.ofNat n).toNat = n := UInt8.toNat_ofNat_of_lt' hn

theorem marker_signed {i : Int} {b : UInt8} {k n : Nat} (hn : n < 256 ^ k)
    (hlow : Nat.pow 2 (8 * k - 1) ≤ n) (hi : i = n - Nat.pow 2 (8 * k))
    (hb : ∀ r, marker (b :: r) = (numeral k r).map fun x => (.int (signed k x.1), x.2)) (rest : Bytes) :
    marker (b :: fixedBytes k n ++ rest) = some (.int i, rest) := by
  rw [hi, ← signed_eq hlow]
  exact marker_sized (f := fun n => .int (signed k n)) hn hb rest

theorem marker_int {i : Int} (hlo : -0x8000000000000000 ≤ i) (hhi : i < 0x10000000000000000) (rest : Bytes) :
    marker (intBytes i ++ rest) = some (.int i, rest) := by
  unfold intBytes
  split_ifs with h0 h1 h2 h3 h4
  · obtain ⟨n, rfl⟩ := Int.eq_ofNat_of_zero_le h0
    dsimp only [Int.toNat_natCast]
    split_ifs with h1 h2 h3 h4
    · rw [List.cons_append, List.nil_append, marker, toNat_ofNat (by omega)]
      exact if_pos h1
    · exact marker_sized (k := 1) (f := fun n => .int n) (by omega) (fun _ => rfl) rest
    · exact marker_sized (k := 2) (f := fun n => .int n) (by omega) (fun _ => rfl) rest
    · exact marker_sized (k := 4) (f := fun n => .int n) (by omega) (fun _ => rfl) rest
    · exact marker_sized (k := 8) (f := fun n => .int n) (by omega) (fun _ => rfl) rest
  · have hbyte : (UInt8.ofNat (i + 256).toNat).toNat = (i + 256).toNat := toNat_ofNat (by omega)
    have hi : ((i + 256).toNat : Int) - 256 = i := by omega
    rw [List.cons_append, List.nil_append, marker, hbyte]
    dsimp only
    rw [if_neg (by omega), if_neg (by omega), if_neg (by omega), if_neg (by omega), if_pos (by omega), hi]
  · exact marker_signed (k := 1) (by omega) (show 128 ≤ _ by omega) (show i = _ - 256 by omega) (fun _ => rfl) rest
  · exact marker_signed (k := 2) (by omega) (show 32768 ≤ _ by omega) (show i = _ - 65536 by omega) (fun _ => rfl) rest
  · exact marker_signed (k := 4) (by omega) (show 0x80000000 ≤ _ by omega) (show i = _ - 0x100000000 by omega)
      (fun _ => rfl) rest
  · exact marker_signed (k := 8) (by omega) (show 0x8000000000000000 ≤ _ by omega)
      (show i = _ - 0x10000000000000000 by omega) (fun _ => rfl) rest

theorem marker_text {s : String} (hs : (Utf8.encode s).length < 0x100000000) (rest : Bytes) :
    marker (textBytes s ++ rest) = some (.text (Utf8.encode s).length, Utf8.encode s ++ rest) := by
  unfold textBytes
  dsimp only
  rw [List.append_assoc]
  split_ifs with h1 h2 h3
  · rw [List.cons_append, List.nil_append, marker, toNat_ofNat (by omega)]
    dsimp only
    rw [if_neg (by omega), if_neg (by omega), if_neg (by omega), if_pos (by omega), Nat.add_sub_cancel_left]
  · exact marker_sized (k := 1) (by omega) (fun _ => rfl) _
  · exact marker_sized (k := 2) (by omega) (fun _ => rfl) _
  · exact marker_sized (k := 4) (by omega) (fun _ => rfl) _

theorem marker_bytes {b : Bytes} (hb : b.length < 0x100000000) (rest : Bytes) :
    marker (binaryBytes b ++ rest) = some (.bytes b.length, b ++ rest) := by
  unfold binaryBytes
  dsimp only
  rw [List.append_assoc]
  split_ifs with h1 h2
  · exact marker_sized (k := 1) (by omega) (fun _ => rfl) _
  · exact marker_sized (k := 2) (by omega) (fun _ => rfl) _
  · exact marker_sized (k := 4) (by omega) (fun _ => rfl) _

theorem marker_array {n : Nat} (hn : n < 0x100000000) (rest : Bytes) :
    marker (arrayHead n ++ rest) = some (.array n, rest) := by
  unfold arrayHead
  split_ifs with h1 h2
  · rw [List.cons_append, List.nil_append, marker, toNat_ofNat (by omega)]
    dsimp only
    rw [if_neg (by omega), if_neg (by omega), if_pos (by omega), Nat.add_sub_cancel_left]
  · exact marker_sized (k := 2) (by omega) (fun _ => rfl) _
  · exact marker_sized (k := 4) (by omega) (fun _ => rfl) _

theorem marker_map {n : Nat} (hn : n < 0x100000000) (rest : Bytes) :
    marker (mapHead n ++ rest) = some (.map n, rest) := by
  unfold mapHead
  split_ifs with h1 h2
  · rw [List.cons_append, List.nil_append, marker, toNat_ofNat (by omega)]
    dsimp only
    rw [if_neg (by omega), if_pos (by omega), Nat.add_sub_cancel_left]
  · exact marker_sized (k := 2) (by omega) (fun _ => rfl) _
  · exact marker_sized (k := 4) (by omega) (fun _ => rfl) _


/-! ## Containers -/

theorem items_of_run {item : σ → Bytes → Option (σ × Bytes)} {step : σ → β → σ → Prop} {spell : β → Bytes}
    (hitem : ∀ acc x acc', step acc x acc' → ∀ rest, item acc (spell x ++ rest) = some (acc', rest))
    {acc acc' : σ} {xs : List β} (h : Run step acc xs acc') (rest : Bytes) :
    items item xs.length acc (xs.flatMap spell ++ rest) = some (acc', rest) := by
  induction h with
  | nil => rfl
  | cons hstep _ ih =>
    rw [List.length_cons, List.flatMap_cons, List.append_assoc, items, hitem _ _ _ hstep]
    exact ih

theorem listOf_spelled {read : Bytes → Option (α × Bytes)} {spell : β → Bytes} {xs : List β} {as : List α}
    (h : List.Forall₂ (fun x a => ∀ rest, read (spell x ++ rest) = some (a, rest)) xs as) (rest : Bytes) :
    listOf read xs.length (xs.flatMap spell ++ rest) = some (as, rest) := by
  refine Option.map_eq_some_iff.mpr ⟨(as.reverse ++ [], rest), ?_, by simp⟩
  refine items_of_run (fun acc x acc' hstep rest => ?_) (run_of_forall₂ h []) rest
  obtain ⟨a, ha, hacc⟩ := hstep
  rw [ha rest, hacc, Option.map_some]

/-- The format, with the lengths that markers hold. -/
def format : Format where
  Place := Unit
  spell _ := write
  passedOn := write
  holds n := n < 0x100000000
  buffers _ := True
  ends _ := True

/-- The bytes of an entry. -/
def entryBytes (e : String × Value) : Bytes := textBytes e.1 ++ write e.2

theorem writeList_eq (xs : List Value) : writeList xs = xs.flatMap write := by
  induction xs with
  | nil => rfl
  | cons x xs ih => rw [writeList, ih, List.flatMap_cons]

theorem writeEntries_eq (es : List (String × Value)) : writeEntries es = es.flatMap entryBytes := by
  induction es with
  | nil => rfl
  | cons e es ih => rw [writeEntries, ih, List.flatMap_cons, entryBytes]

theorem marker_list {n : Nat} {xs : List Value} (h : (Value.list xs).Fits format.holds n) (rest : Bytes) :
    marker (write (.list xs) ++ rest) = some (.array xs.length, xs.flatMap write ++ rest) := by
  cases h with
  | list hlen _ =>
    rw [write, List.append_assoc, writeList_eq]
    exact marker_array hlen _

theorem marker_table {n : Nat} {es : List (String × Value)} (h : (Value.table es).Fits format.holds n) (rest : Bytes) :
    marker (write (.table es) ++ rest) = some (.map es.length, es.flatMap entryBytes ++ rest) := by
  cases h with
  | table hlen _ _ =>
    rw [write, List.append_assoc, writeEntries_eq]
    exact marker_map hlen _

/-! ## Values -/

theorem wellFormedText_text {s : String} (hs : (Utf8.encode s).length < 0x100000000) (rest : Bytes) :
    wellFormedText (textBytes s ++ rest) = some (s, rest) := by
  simp only [wellFormedText, marker_text hs, takeBytes_append, Utf8.decode?_encode, Option.map_some]

theorem textReader_text {s : String} (hs : (Utf8.encode s).length < 0x100000000) (depth : Nat) (rest : Bytes) :
    textReader depth (textBytes s ++ rest) = some (s, rest) := by
  simp only [textReader, marker_text hs, takeBytes_append, Utf8.decode?_encode, Option.map_some]

theorem name_text {s : String} (hs : (Utf8.encode s).length < 0x100000000) (rest : Bytes) :
    name (textBytes s ++ rest) = some (.bytes (Utf8.encode s), rest) := by
  simp only [name, marker_text hs, takeBytes_append, Option.map_some]

theorem reads_value {first : String → Prop} {v : Value} (h : v.IsJson first) : format.Reads value v v := by
  induction h with
  | null =>
    intro n depth hv hdepth place rest _
    obtain ⟨depth, rfl⟩ : ∃ d, depth = d + 1 := ⟨depth - 1, by omega⟩
    rfl
  | bool b =>
    intro n depth hv hdepth place rest _
    obtain ⟨depth, rfl⟩ : ∃ d, depth = d + 1 := ⟨depth - 1, by omega⟩
    cases b <;> rfl
  | int i =>
    intro n depth hv hdepth place rest _
    obtain ⟨depth, rfl⟩ : ∃ d, depth = d + 1 := ⟨depth - 1, by omega⟩
    cases hv with
    | int hlo hhi =>
      change value (depth + 1) (intBytes i ++ rest) = _
      rw [value, marker_int hlo hhi]
  | text s =>
    intro n depth hv hdepth place rest _
    obtain ⟨depth, rfl⟩ : ∃ d, depth = d + 1 := ⟨depth - 1, by omega⟩
    cases hv with
    | text hs =>
      change value (depth + 1) (textBytes s ++ rest) = _
      rw [value, marker_text hs]
      simp only [wellFormedText_text hs, Option.map_some]
  | @list xs _ ih =>
    intro n depth hv hdepth place rest _
    obtain ⟨depth, rfl⟩ : ∃ d, depth = d + 1 := ⟨depth - 1, by omega⟩
    change value (depth + 1) (write (.list xs) ++ rest) = _
    rw [value, marker_list hv]
    cases hv with
    | list hlen hxs =>
      have hread : List.Forall₂ (fun v a => ∀ rest, value depth (write v ++ rest) = some (a, rest)) xs xs :=
        List.forall₂_same.mpr fun x hx rest => ih x hx (hxs x hx) (by omega) place rest trivial
      have hdepth : depth ≠ 0 := by omega
      simp only [listOf_spelled hread, if_neg hdepth, Option.map_some]
  | @table es hsorted hfirst _ ih =>
    intro n depth hv hdepth place rest _
    obtain ⟨depth, rfl⟩ : ∃ d, depth = d + 1 := ⟨depth - 1, by omega⟩
    change value (depth + 1) (write (.table es) ++ rest) = _
    rw [value, marker_table hv]
    cases hv with
    | table hlen hkeys hes =>
      have hread : ∀ e ∈ es, (Utf8.encode e.1).length < 0x100000000 ∧
          ∀ rest, value depth (write e.2 ++ rest) = some (e.2, rest) := fun e he =>
        ⟨hkeys e he, fun rest => ih e he (hes e he) (by omega) place rest trivial⟩
      refine (if_neg (by omega)).trans (Option.map_eq_some_iff.mpr ⟨(es.reverse ++ [], rest), ?_,
        by simp [Value.ofEntries, sortedOfEntries_of_sorted hsorted]⟩)
      have hrun := (run_of_forall₂ (R := Eq) (List.forall₂_same.mpr fun _ _ => rfl) []).and_forall hread
      refine items_of_run (fun acc e acc' hstep rest => ?_) hrun rest
      obtain ⟨⟨hkey, hread⟩, _, rfl, rfl⟩ := hstep
      rw [entryBytes, List.append_assoc]
      cases acc with
      | nil => simp [wellFormedText_text hkey, hread]
      | cons => simp [textReader_text hkey, hread]

theorem item_text {s : String} (hs : (Utf8.encode s).length < 0x100000000) (depth : Nat) (rest : Bytes) :
    item (depth + 1) (textBytes s ++ rest) = some (.text s, rest) := by
  rw [item, marker_text hs]
  simp only [takeBytes_append, Utf8.decode?_encode, Option.map_some]

/-- Any item is written again as it was. -/
theorem exists_item {n : Nat} {v : Value} (h : v.Fits format.holds n) {depth : Nat} (hdepth : n ≤ depth) :
    ∃ x, (∀ rest, item (depth + 1) (write v ++ rest) = some (x, rest)) ∧ x.write = write v := by
  induction h generalizing depth with
  | null => exact ⟨.null, fun _ => rfl, rfl⟩
  | unit =>
    obtain ⟨depth, rfl⟩ : ∃ d, depth = d + 1 := ⟨depth - 1, by omega⟩
    refine ⟨.list [], fun rest => ?_, rfl⟩
    have hmarker : marker (write .unit ++ rest) = some (.array 0, rest) := rfl
    rw [item, hmarker]
    rfl
  | bool b => exact ⟨.bool b, fun _ => by cases b <;> rfl, rfl⟩
  | @int _ i hlo hhi =>
    refine ⟨.int i, fun rest => ?_, rfl⟩
    rw [write, item, marker_int hlo hhi]
  | @text _ s hs => exact ⟨.text s, item_text hs depth, rfl⟩
  | @bytes _ b hb =>
    refine ⟨.bytes b, fun rest => ?_, rfl⟩
    rw [write, item, marker_bytes hb]
    simp only [takeBytes_append, Option.map_some]
  | @list n xs hlen hxs ih =>
    obtain ⟨depth, rfl⟩ : ∃ d, depth = d + 1 := ⟨depth - 1, by omega⟩
    obtain ⟨ys, hys⟩ := exists_forall₂ fun x hx => ih x hx (show n ≤ depth by omega)
    refine ⟨.list ys, fun rest => ?_, ?_⟩
    · rw [item, marker_list (.list hlen hxs)]
      have hdepth : depth + 1 ≠ 0 := by omega
      simp only [listOf_spelled (hys.imp fun _ _ h => h.1), if_neg hdepth, Option.map_some]
    · have hwrite : writeItems ys = writeList xs := by
        clear hlen hxs ih hdepth
        induction hys with
        | nil => rfl
        | cons hy _ ih => rw [writeItems, writeList, hy.2, ih]
      rw [Item.write, write, ← hys.length_eq, hwrite]
  | @table n es hlen hkeys hes ih =>
    obtain ⟨depth, rfl⟩ : ∃ d, depth = d + 1 := ⟨depth - 1, by omega⟩
    have hpair : ∀ e ∈ es, ∃ y : Item × Item,
        (∀ rest, item (depth + 1) (entryBytes e ++ rest) = some (y.1, write e.2 ++ rest) ∧
          item (depth + 1) (write e.2 ++ rest) = some (y.2, rest)) ∧ y.1.write ++ y.2.write = entryBytes e := by
      intro e he
      obtain ⟨y, hread, hwrite⟩ := ih e he (show n ≤ depth by omega)
      refine ⟨(.text e.1, y), fun rest => ⟨?_, hread rest⟩, by rw [Item.write, hwrite, entryBytes]⟩
      rw [entryBytes, List.append_assoc]
      exact item_text (hkeys e he) depth _
    obtain ⟨ys, hys⟩ := exists_forall₂ hpair
    refine ⟨.map ys, fun rest => ?_, ?_⟩
    · rw [item, marker_table (.table hlen hkeys hes)]
      refine (if_neg (by omega)).trans (Option.map_eq_some_iff.mpr ⟨(ys, rest), ?_, rfl⟩)
      refine listOf_spelled (hys.imp fun e y h rest => ?_) rest
      simp [h.1 rest]
    · have hwrite : writePairs ys = writeEntries es := by
        clear hlen hkeys hes ih hdepth hpair
        induction hys with
        | nil => rfl
        | cons hy _ ih => rw [writePairs, writeEntries, hy.2, ih, entryBytes]
      rw [Item.write, write, ← hys.length_eq, hwrite]

/-! ## Dialect -/

theorem reads_text (s : String) : format.Reads textReader (.text s) s := by
  intro n depth hv _ place rest _
  cases hv with
  | text hs => exact textReader_text hs depth rest

theorem reads_bool (b : Bool) : format.Reads boolReader (.bool b) b := by
  intro n depth _ _ place rest _
  cases b <;> rfl

theorem reads_unit : format.Reads unitReader .unit () := by
  intro n depth _ _ place rest _
  rfl

theorem reads_integerIn {ok : Int → Bool} {i : Int} (hok : ok i = true) : format.Reads (integerIn ok) (.int i) i := by
  intro n depth hv _ place rest _
  cases hv with
  | int hlo hhi =>
    change integerIn ok depth (intBytes i ++ rest) = _
    rw [integerIn, marker_int hlo hhi]
    exact if_pos hok

theorem reads_natural (n : Nat) : format.Reads dialect.natural (.nat n) n :=
  .of_int fun _ hhi =>
    (reads_integerIn (by simp only [Int.natCast_nonneg, hhi, decide_true, Bool.and_self])).map Int.toNat

theorem reads_integer {i : Int} (h : i < 0x8000000000000000) : format.Reads dialect.integer (.int i) i :=
  .of_int fun hlo _ => reads_integerIn (by simp only [hlo, h, decide_true, Bool.and_self])

theorem reads_source (b : Bytes) : format.Reads sourceReader (.bytes b) b := by
  intro n depth hv _ place rest _
  cases hv with
  | bytes hb =>
    change sourceReader depth (binaryBytes b ++ rest) = _
    simp only [sourceReader, marker_bytes hb rest, takeBytes_append]

theorem reads_native (v : Value) : format.Reads dialect.native v (write v) := by
  intro n depth hv hdepth place rest _
  obtain ⟨depth, rfl⟩ : ∃ d, depth = d + 1 := ⟨depth - 1, by omega⟩
  obtain ⟨x, hx, hwrite⟩ := exists_item hv (show n ≤ depth by omega)
  change (item (depth + 1) (write v ++ rest)).map (fun x => (x.1.write, x.2)) = _
  rw [hx, Option.map_some, hwrite]

theorem reads_choice {names : List String} {s : String} {i : Nat} (h : names.idxOf? s = some i) :
    format.Reads (choiceReader names) (.text s) i := by
  intro n depth hv hdepth place rest _
  cases hv with
  | text hlt =>
    change choiceReader names depth (textBytes s ++ rest) = _
    simp only [choiceReader, marker_text hlt rest, name_text hlt, Name.find, Cbor.encode_beq]
    rw [List.idxOf?] at h
    rw [h]
    rfl

theorem reads_absent (r : Reader α) : format.Reads (optionalReader r) .null none := by
  intro n depth _ _ place rest _
  rfl

/-- Only what is nothing is spelled as nothing. -/
theorem marker_write_ne {n : Nat} {v : Value} (hv : v.Fits format.holds n) (hnull : v ≠ .null) (rest : Bytes) :
    ∃ x r, marker (write v ++ rest) = some (x, r) ∧ x ≠ .null := by
  cases hv with
  | null => exact absurd rfl hnull
  | unit => exact ⟨_, _, rfl, nofun⟩
  | bool b => cases b <;> exact ⟨_, _, rfl, nofun⟩
  | int hlo hhi => exact ⟨_, _, marker_int hlo hhi rest, nofun⟩
  | text hs => exact ⟨_, _, marker_text hs rest, nofun⟩
  | bytes hb => exact ⟨_, _, marker_bytes hb rest, nofun⟩
  | list hlen hxs => exact ⟨_, _, marker_list (.list hlen hxs) rest, nofun⟩
  | table hlen hkeys hes => exact ⟨_, _, marker_table (.table hlen hkeys hes) rest, nofun⟩

theorem reads_present {r : Reader α} {v : Value} {a : α} (hnull : v ≠ .null) (h : format.Reads r v a) :
    format.Reads (optionalReader r) v (some a) := by
  intro n depth hv hdepth place rest hrest
  have hread : r depth (write v ++ rest) = some (a, rest) := h hv hdepth place rest hrest
  obtain ⟨x, t, hmarker, hx⟩ := marker_write_ne hv hnull rest
  change optionalReader r depth (write v ++ rest) = _
  rw [optionalReader, hmarker, hread]
  split
  · next heq =>
    cases heq
    exact absurd rfl hx
  · rfl

theorem reads_list {r : Reader α} {vs : List Value} {as : List α} (h : List.Forall₂ (format.Reads r) vs as) :
    format.Reads (listReader r) (.list vs) as := by
  intro n depth hv hdepth place rest _
  change listReader r depth (write (.list vs) ++ rest) = _
  rw [listReader, marker_list hv rest]
  cases hv with
  | list hlen hvs =>
    have hread : List.Forall₂ (fun v a => ∀ rest, r (depth - 1) (write v ++ rest) = some (a, rest)) vs as :=
      ((List.forall₂_and_left _ _).mpr ⟨hvs, h⟩).imp fun v a hva rest => hva.2 hva.1 (by omega) place rest trivial
    exact (if_neg (by omega)).trans (listOf_spelled hread rest)

theorem reads_table {r : Reader α} {es : List (String × Value)} {as : List (String × α)}
    (h : List.Forall₂ (fun e a => e.1 = a.1 ∧ format.Reads r e.2 a.2) es as) :
    format.Reads (tableReader r) (.table es) as := by
  intro n depth hv hdepth place rest _
  change tableReader r depth (write (.table es) ++ rest) = _
  rw [tableReader, marker_table hv rest]
  cases hv with
  | table hlen hkeys hes =>
    refine (if_neg (by omega)).trans (listOf_spelled ?_ rest)
    refine ((List.forall₂_and_left _ _).mpr ⟨fun e he => And.intro (hkeys e he) (hes e he), h⟩).imp ?_
    rintro ⟨k, v⟩ ⟨k', a⟩ ⟨⟨hkey, hv⟩, ⟨⟩, hr⟩ rest
    have hread : r (depth - 1) (write v ++ rest) = some (a, rest) := hr hv (by omega) place rest trivial
    rw [entryBytes, List.append_assoc]
    simp [textReader_text hkey, hread]

section Records

variable {fields : List (Field σ)}

/-- A field is found by its bytes where it is found by its name. -/
theorem find_name {s : String} {f : Field σ} (h : (fields.find? fun f => f.name == s) = some f) :
    ((Name.bytes (Utf8.encode s)).find (fields.map Field.name)).bind (fields[·]?) = some f := by
  rw [Name.find, List.findIdx?_map]
  simp only [Function.comp_def, Cbor.encode_beq]
  rw [← h]
  exact List.find?_eq_bind_findIdx?_getElem?.symm

/-- An entry of a record: a field, or an item that is passed over. -/
def recordEntry (fields : List (Field σ)) (depth : Nat) (p : Draft σ) (s : Bytes) : Option (Draft σ × Bytes) :=
  match name s with
  | some (n, r) => match (n.find (fields.map Field.name)).bind (fields[·]?) with
    | some f => p.enter f depth r
    | none => (item depth r).map fun x => (p, x.2)
  | none => none

theorem reads_record {zero : σ} {es : List (String × Value)} {p : Draft σ}
    (hoptional : ∀ f ∈ fields, f.required = false) (h : Run (format.Enters fields) ⟨zero, []⟩ es p) :
    format.Reads (recordReader fields zero) (.table es) p.value := by
  intro n depth hv hdepth place rest _
  change recordReader fields zero depth (write (.table es) ++ rest) = _
  rw [recordReader, marker_table hv rest]
  cases hv with
  | @table m _ hlen hkeys hes =>
    have hitem (p : Draft σ) (e : String × Value) (p' : Draft σ)
        (hstep : ((Utf8.encode e.1).length < 0x100000000 ∧ e.2.Fits format.holds m) ∧ format.Enters fields p e p')
        (rest : Bytes) : recordEntry fields (depth - 1) p (entryBytes e ++ rest) = some (p', rest) := by
      obtain ⟨⟨hkey, hv⟩, hstep⟩ := hstep
      obtain ⟨f, hfind, hname, henter⟩ := hstep.enter
      have henter : p.enter f (depth - 1) (write e.2 ++ rest) = some (p', rest) :=
        henter hv (by omega) place rest trivial
      rw [recordEntry, entryBytes, List.append_assoc, name_text hkey]
      simp only [find_name hfind, henter]
    have hitems := items_of_run hitem (h.and_forall fun e he => ⟨hkeys e he, hes e he⟩) rest
    have hdraft : (if depth ≤ 1 then none else
        items (recordEntry fields (depth - 1)) es.length ⟨zero, []⟩ (es.flatMap entryBytes ++ rest)) =
          some (p, rest) := (if_neg (by omega)).trans hitems
    dsimp only
    split
    · next hdraft' =>
      cases hdraft'.symm.trans hdraft
      rw [Draft.finish_of_optional hoptional]
      rfl
    · next hdraft' => cases hdraft'.symm.trans hdraft

end Records

theorem faithful : dialect.Faithful format where
  short _ := trivial
  text := reads_text
  bool := reads_bool
  natural := reads_natural
  integer := reads_integer
  source _ := reads_source _
  unit := reads_unit
  choice _ := reads_choice
  value := reads_value
  native := reads_native
  absent := reads_absent
  present hnull _ := reads_present hnull
  list := reads_list
  table := reads_table
  record hoptional _ := reads_record hoptional

end MessagePack
end EditorAgent

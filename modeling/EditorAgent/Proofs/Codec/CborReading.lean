import EditorAgent.Proofs.Codec.Spelling
import EditorAgent.Proofs.Text.Encoding
import Mathlib.Data.List.Basic
import Mathlib.Tactic.Ring

/-!
# CBOR readers read what is written

The lemmas follow the format from its headers to the records.
-/

namespace EditorAgent

variable {α β σ : Type}

namespace Cbor

/-! ## Headers -/

theorem fixedBytes_succ (k n : Nat) : fixedBytes (k + 1) n = UInt8.ofNat (n / 256 ^ k) :: fixedBytes k n := by
  unfold fixedBytes
  rw [List.range_succ_eq_map, List.map_cons, List.map_map]
  congr 1
  refine List.map_congr_left fun i _ => ?_
  rw [Function.comp_apply, show k + 1 - 1 - (i + 1) = k - 1 - i by omega]

theorem length_fixedBytes (k n : Nat) : (fixedBytes k n).length = k := by simp [fixedBytes]

theorem foldl_fixedBytes (k n a : Nat) :
    (fixedBytes k n).foldl (fun n b => n * 256 + b.toNat) a = a * 256 ^ k + n % 256 ^ k := by
  induction k generalizing a with
  | zero => simp [fixedBytes, Nat.mod_one]
  | succ k ih =>
    have hmod : n % 256 ^ (k + 1) = n % 256 ^ k + 256 ^ k * (n / 256 ^ k % 256) := Nat.mod_pow_succ
    rw [fixedBytes_succ, List.foldl_cons, ih, UInt8.toNat_ofNat', hmod]
    ring

theorem bigEndian_fixedBytes {k n : Nat} (hn : n < 256 ^ k) : bigEndian (fixedBytes k n) = n := by
  rw [bigEndian, foldl_fixedBytes, Nat.zero_mul, Nat.zero_add, Nat.mod_eq_of_lt hn]

theorem takeBytes_append {n : Nat} {b : Bytes} (hb : b.length = n) (rest : Bytes) :
    takeBytes n (b ++ rest) = some (b, rest) := by
  subst hb
  simp [takeBytes]

theorem following_fixedBytes {k n : Nat} (hn : n < 256 ^ k) (rest : Bytes) :
    ((takeBytes k (fixedBytes k n ++ rest)).map fun x => (some (bigEndian x.1), x.2)) = some (some n, rest) := by
  rw [takeBytes_append (length_fixedBytes k n), Option.map_some, bigEndian_fixedBytes hn]

/-- A header opens with a byte that tells its kind and how its argument is written. -/
theorem exists_head {major n : Nat} (hmajor : major < 8) (hn : n < 0x10000000000000000) (rest : Bytes) :
    ∃ b t, head major n = b :: t ∧ b.toNat / 32 = major ∧
      argument (b.toNat % 32) (t ++ rest) = some (some n, rest) := by
  have hfirst {minor : Nat} (hminor : minor < 32) : (UInt8.ofNat (major * 32 + minor)).toNat = major * 32 + minor :=
    UInt8.toNat_ofNat_of_lt' (by change _ < 256; omega)
  unfold head
  dsimp only
  split_ifs with h1 h2 h3 h4
  · refine ⟨_, _, rfl, ?_, ?_⟩ <;> rw [hfirst (by omega)]
    · omega
    · rw [show (major * 32 + n) % 32 = n by omega, argument]
      exact if_pos h1
  all_goals
    refine ⟨_, _, rfl, ?_, ?_⟩ <;> rw [hfirst (by decide)]
    · omega
    rw [Nat.mul_add_mod_self_right]
  · exact following_fixedBytes (k := 1) (by omega) rest
  · exact following_fixedBytes (k := 2) (by omega) rest
  · exact following_fixedBytes (k := 4) (by omega) rest
  · exact following_fixedBytes (k := 8) (by omega) rest

theorem header_head {major n : Nat} {x : Header} (hn : n < 0x10000000000000000)
    (hx : (major, x) ∈ [(0, .positive n), (1, .negative n), (2, .bytes (some n)), (3, .text (some n)),
      (4, .array (some n)), (5, .map (some n))]) (rest : Bytes) : header (head major n ++ rest) = some (x, rest) := by
  simp only [List.mem_cons, Prod.mk.injEq, List.not_mem_nil, or_false] at hx
  have hmajor : major < 8 := by omega
  obtain ⟨b, t, hhead, hb, harg⟩ := exists_head hmajor hn rest
  rw [hhead, List.cons_append, header, harg, hb]
  rcases hx with ⟨rfl, rfl⟩ | ⟨rfl, rfl⟩ | ⟨rfl, rfl⟩ | ⟨rfl, rfl⟩ | ⟨rfl, rfl⟩ | ⟨rfl, rfl⟩ <;> rfl

theorem headerPastTags_of_header {s r : Bytes} {x : Header} (h : header s = some (x, r)) (hx : ∀ n, x ≠ .tag n) :
    headerPastTags s = some (x, r) := by
  rw [headerPastTags, untagged, h]
  split
  · next heq =>
    cases heq
    exact absurd rfl (hx _)
  · rfl

/-! ## Strings and numbers -/

theorem accepts_encode (s : String) : Kind.text.accepts (Utf8.encode s) = true := by
  rw [Kind.accepts, Utf8.decode?_encode]
  rfl

theorem content_text (s : String) (rest : Bytes) :
    content .text (some (Utf8.encode s).length) (Utf8.encode s ++ rest) = some (Utf8.encode s, rest) := by
  rw [content]
  simp only [takeBytes_append rfl, accepts_encode, if_true]

theorem textContent_text (s : String) (rest : Bytes) :
    textContent (some (Utf8.encode s).length) (Utf8.encode s ++ rest) = some (s, rest) := by
  simp only [textContent, content_text, Utf8.decode?_encode, Option.map_some]

theorem header_text {s : String} (hs : (Utf8.encode s).length < 0x10000000000000000) (rest : Bytes) :
    header (stringHead 3 (Utf8.encode s) ++ rest) =
      some (.text (some (Utf8.encode s).length), Utf8.encode s ++ rest) := by
  rw [stringHead, List.append_assoc]
  exact header_head hs (by simp) _

theorem header_bytes {b : Bytes} (hb : b.length < 0x10000000000000000) (rest : Bytes) :
    header (stringHead 2 b ++ rest) = some (.bytes (some b.length), b ++ rest) := by
  rw [stringHead, List.append_assoc]
  exact header_head hb (by simp) _

theorem textReader_text {s : String} (hs : (Utf8.encode s).length < 0x10000000000000000) (depth : Nat)
    (rest : Bytes) : textReader depth (stringHead 3 (Utf8.encode s) ++ rest) = some (s, rest) := by
  simp only [textReader, headerPastTags_of_header (header_text hs rest) (by simp), textContent_text]

theorem shortText_text {s : String} (hs : (Utf8.encode s).length ≤ bufferSize) (rest : Bytes) :
    shortText (stringHead 3 (Utf8.encode s) ++ rest) = some (s, rest) := by
  have hlt : (Utf8.encode s).length < 0x10000000000000000 := Nat.lt_of_le_of_lt hs (by decide)
  simp only [shortText, headerPastTags_of_header (header_text hlt rest) (by simp), hs, if_true, textContent_text]

theorem name_text {s : String} (hs : (Utf8.encode s).length ≤ bufferSize) (rest : Bytes) :
    name (stringHead 3 (Utf8.encode s) ++ rest) = some (Utf8.encode s, rest) := by
  have hlt : (Utf8.encode s).length < 0x10000000000000000 := Nat.lt_of_le_of_lt hs (by decide)
  simp only [name, headerPastTags_of_header (header_text hlt rest) (by simp), hs, if_true, content_text]

theorem header_int {i : Int} (hlo : -0x8000000000000000 ≤ i) (hhi : i < 0x10000000000000000) (rest : Bytes) :
    header (intBytes i ++ rest) =
      some (if 0 ≤ i then .positive i.toNat else .negative (-1 - i).toNat, rest) := by
  unfold intBytes
  split_ifs
  · exact header_head (by omega) (by simp) _
  · exact header_head (by omega) (by simp) _

theorem anyInteger_int {i : Int} (hlo : -0x8000000000000000 ≤ i) (hhi : i < 0x10000000000000000) (fuel : Nat)
    (rest : Bytes) : anyInteger (fuel + 1) (intBytes i ++ rest) = some (i, rest) := by
  rw [anyInteger, header_int hlo hhi]
  split_ifs with hi
  · simp only [Int.toNat_of_nonneg hi]
  · simp only [Option.some.injEq, Prod.mk.injEq, and_true]
    omega

/-! ## Containers -/

theorem items_of_run {item : σ → Bytes → Option (σ × Bytes)} {step : σ → β → σ → Prop} {spell : β → Bytes}
    (hspell : ∀ x, spell x ≠ [])
    (hitem : ∀ acc x acc', step acc x acc' → ∀ rest, item acc (spell x ++ rest) = some (acc', rest))
    {acc acc' : σ} {xs : List β} (h : Run step acc xs acc') (rest : Bytes) :
    items item (rounds (xs.flatMap spell ++ rest)) (some xs.length) acc (xs.flatMap spell ++ rest) =
      some (acc', rest) := by
  have hfuel (fuel : Nat) (hn : xs.length < fuel) :
      items item fuel (some xs.length) acc (xs.flatMap spell ++ rest) = some (acc', rest) := by
    induction h generalizing fuel with
    | nil =>
      obtain ⟨fuel, rfl⟩ : ∃ m, fuel = m + 1 := ⟨fuel - 1, by omega⟩
      rfl
    | cons hstep _ ih =>
      rw [List.length_cons] at hn ⊢
      obtain ⟨fuel, rfl⟩ : ∃ m, fuel = m + 1 := ⟨fuel - 1, by omega⟩
      rw [List.flatMap_cons, List.append_assoc, items, hitem _ _ _ hstep]
      exact ih fuel (by omega)
  have hlen : xs.length ≤ (xs.flatMap spell).length := by
    clear h hfuel
    induction xs with
    | nil => exact Nat.le_refl 0
    | cons x xs ih =>
      have hx := List.length_pos_iff.mpr (hspell x)
      rw [List.flatMap_cons, List.length_append, List.length_cons]
      omega
  refine hfuel _ ?_
  rw [rounds, List.length_append]
  omega

/-- The format, with the lengths that headers hold. -/
def format : Format where
  Place := Unit
  spell _ := write
  passedOn := write
  holds n := n < 0x10000000000000000
  buffers n := n ≤ bufferSize
  ends _ := True

theorem write_ne_nil (v : Value) : write v ≠ [] := by
  have hhead (major n : Nat) : head major n ≠ [] := by
    unfold head
    split_ifs <;> exact List.cons_ne_nil _ _
  have happend {major n : Nat} (s : Bytes) : head major n ++ s ≠ [] := List.append_ne_nil_of_left_ne_nil (hhead _ _) s
  cases v <;> rw [write]
  case int =>
    unfold intBytes
    split_ifs <;> exact hhead _ _
  case float =>
    unfold floatBytes
    dsimp only
    split_ifs <;> exact List.cons_ne_nil _ _
  case text | bytes | list | table => exact happend _
  all_goals exact List.cons_ne_nil _ _

/-- The bytes of an entry. -/
def entryBytes (e : String × Value) : Bytes := stringHead 3 (Utf8.encode e.1) ++ write e.2

theorem writeList_eq (xs : List Value) : writeList xs = xs.flatMap write := by
  induction xs with
  | nil => rfl
  | cons x xs ih => rw [writeList, ih, List.flatMap_cons]

theorem writeEntries_eq (es : List (String × Value)) : writeEntries es = es.flatMap entryBytes := by
  induction es with
  | nil => rfl
  | cons e es ih => rw [writeEntries, ih, List.flatMap_cons, entryBytes]

theorem entryBytes_ne_nil (e : String × Value) : entryBytes e ≠ [] :=
  List.append_ne_nil_of_right_ne_nil _ (write_ne_nil e.2)

theorem listOf_spelled {read : Bytes → Option (α × Bytes)} {spell : β → Bytes} (hspell : ∀ x, spell x ≠ [])
    {xs : List β} {as : List α} (h : List.Forall₂ (fun x a => ∀ rest, read (spell x ++ rest) = some (a, rest)) xs as)
    (rest : Bytes) : listOf read (some xs.length) (xs.flatMap spell ++ rest) = some (as, rest) := by
  refine Option.map_eq_some_iff.mpr ⟨(as.reverse ++ [], rest), ?_, by simp⟩
  refine items_of_run hspell (fun acc x acc' hstep rest => ?_) (run_of_forall₂ h []) rest
  obtain ⟨a, ha, hacc⟩ := hstep
  rw [ha rest, hacc, Option.map_some]

theorem header_list {n : Nat} {xs : List Value} (h : (Value.list xs).Fits format.holds n) (rest : Bytes) :
    header (write (.list xs) ++ rest) = some (.array (some xs.length), xs.flatMap write ++ rest) := by
  cases h with
  | list hlen _ =>
    rw [write, List.append_assoc, writeList_eq]
    exact header_head hlen (by simp) _

theorem header_table {n : Nat} {es : List (String × Value)} (h : (Value.table es).Fits format.holds n) (rest : Bytes) :
    header (write (.table es) ++ rest) = some (.map (some es.length), es.flatMap entryBytes ++ rest) := by
  cases h with
  | table hlen _ _ =>
    rw [write, List.append_assoc, writeEntries_eq]
    exact header_head hlen (by simp) _

/-! ## Values -/

theorem reads_value {v : Value} (h : v.IsJson fun k => (Utf8.encode k).length ≤ bufferSize) :
    format.Reads value v v := by
  induction h with
  | null =>
    intro n depth hv hdepth place rest _
    rw [value]
    rfl
  | bool b =>
    intro n depth hv hdepth place rest _
    rw [value]
    cases b <;> rfl
  | int i =>
    intro n depth hv hdepth place rest _
    cases hv with
    | int hlo hhi =>
      change value depth (intBytes i ++ rest) = _
      rw [value, header_int hlo hhi]
      split_ifs with hi
      · simp only [Int.toNat_of_nonneg hi]
      · have hneg : -1 - ((-1 - i).toNat : Int) = i := by omega
        simp only [hneg, jsonInt, hlo, hhi, and_self, if_true, Option.map_some]
  | text s =>
    intro n depth hv hdepth place rest _
    cases hv with
    | text hs =>
      change value depth (stringHead 3 (Utf8.encode s) ++ rest) = _
      rw [value, header_text hs]
      simp only [textContent_text, Option.map_some]
  | @list xs _ ih =>
    intro n depth hv hdepth place rest _
    change value depth (write (.list xs) ++ rest) = _
    rw [value, header_list hv]
    cases hv with
    | list hlen hxs =>
      obtain ⟨depth, rfl⟩ : ∃ d, depth = d + 1 := ⟨depth - 1, by omega⟩
      have hread : List.Forall₂ (fun v a => ∀ rest, value depth (write v ++ rest) = some (a, rest)) xs xs :=
        List.forall₂_same.mpr fun x hx rest => ih x hx (hxs x hx) (by omega) place rest trivial
      simp only [listOf_spelled write_ne_nil hread, Option.map_some]
  | @table es hsorted hfirst _ ih =>
    intro n depth hv hdepth place rest _
    change value depth (write (.table es) ++ rest) = _
    rw [value, header_table hv]
    cases hv with
    | table hlen hkeys hes =>
      obtain ⟨depth, rfl⟩ : ∃ d, depth = d + 1 := ⟨depth - 1, by omega⟩
      have hrun : Run (fun acc (e : String × Value) acc' => ((Utf8.encode e.1).length < 0x10000000000000000 ∧
          ∀ rest, value depth (write e.2 ++ rest) = some (e.2, rest)) ∧
          (acc = [] → (Utf8.encode e.1).length ≤ bufferSize) ∧ acc' = e :: acc) [] es (es.reverse ++ []) :=
        run_of_forall (fun e he => ⟨hkeys e he, fun rest => ih e he (hes e he) (by omega) place rest trivial⟩) []
          fun _ => hfirst
      refine Option.map_eq_some_iff.mpr ⟨(es.reverse ++ [], rest), ?_,
        by simp [Value.ofEntries, sortedOfEntries_of_sorted hsorted]⟩
      refine items_of_run entryBytes_ne_nil (fun acc e acc' hstep rest => ?_) hrun rest
      obtain ⟨⟨hkey, hread⟩, hshort, hacc⟩ := hstep
      rw [entryBytes, List.append_assoc, hacc]
      cases acc with
      | nil => simp [shortText_text (hshort rfl), hread]
      | cons => simp [textReader_text hkey, hread]

theorem item_text {s : String} (hs : (Utf8.encode s).length < 0x10000000000000000) (depth : Nat) (rest : Bytes) :
    item depth (stringHead 3 (Utf8.encode s) ++ rest) = some (.text s, rest) := by
  rw [item, header_text hs]
  simp only [textContent_text, Option.map_some]

/-- Any item is written again as it was. -/
theorem exists_item {n : Nat} {v : Value} (h : v.Fits format.holds n) {depth : Nat} (hdepth : n ≤ depth) :
    ∃ x, (∀ rest, item depth (write v ++ rest) = some (x, rest)) ∧ x.write = write v := by
  induction h generalizing depth with
  | null =>
    refine ⟨.null, fun rest => ?_, rfl⟩
    rw [item]
    rfl
  | unit =>
    refine ⟨.null, fun rest => ?_, rfl⟩
    rw [item]
    rfl
  | bool b =>
    refine ⟨.bool b, fun rest => ?_, rfl⟩
    rw [item]
    cases b <;> rfl
  | @int _ i hlo hhi =>
    refine ⟨.int i, fun rest => ?_, rfl⟩
    rw [write, item, header_int hlo hhi]
    split_ifs with hi
    · simp only [Int.toNat_of_nonneg hi]
    · have hneg : -1 - ((-1 - i).toNat : Int) = i := by omega
      simp only [hneg]
  | @text _ s hs => exact ⟨.text s, item_text hs depth, rfl⟩
  | @bytes _ b hb =>
    refine ⟨.bytes b, fun rest => ?_, rfl⟩
    rw [write, item, header_bytes hb]
    simp [content, takeBytes_append, Kind.accepts]
  | @list n xs hlen hxs ih =>
    obtain ⟨depth, rfl⟩ : ∃ d, depth = d + 1 := ⟨depth - 1, by omega⟩
    obtain ⟨ys, hys⟩ := exists_forall₂ fun x hx => ih x hx (show n ≤ depth by omega)
    refine ⟨.list ys, fun rest => ?_, ?_⟩
    · rw [item, header_list (.list hlen hxs)]
      simp only [listOf_spelled write_ne_nil (hys.imp fun _ _ h => h.1), Option.map_some]
    · have hwrite : writeItems ys = writeList xs := by
        clear hlen hxs ih hdepth
        induction hys with
        | nil => rfl
        | cons hy _ ih => rw [writeItems, writeList, hy.2, ih]
      rw [Item.write, write, ← hys.length_eq, hwrite]
  | @table n es hlen hkeys hes ih =>
    obtain ⟨depth, rfl⟩ : ∃ d, depth = d + 1 := ⟨depth - 1, by omega⟩
    have hpair : ∀ e ∈ es, ∃ y : Item × Item,
        (∀ rest, item depth (entryBytes e ++ rest) = some (y.1, write e.2 ++ rest) ∧
          item depth (write e.2 ++ rest) = some (y.2, rest)) ∧ y.1.write ++ y.2.write = entryBytes e := by
      intro e he
      obtain ⟨y, hread, hwrite⟩ := ih e he (show n ≤ depth by omega)
      refine ⟨(.text e.1, y), fun rest => ⟨?_, hread rest⟩, by rw [Item.write, hwrite, entryBytes]⟩
      rw [entryBytes, List.append_assoc]
      exact item_text (hkeys e he) depth _
    obtain ⟨ys, hys⟩ := exists_forall₂ hpair
    refine ⟨.map ys, fun rest => ?_, ?_⟩
    · rw [item, header_table (.table hlen hkeys hes)]
      refine Option.map_eq_some_iff.mpr ⟨(ys, rest), ?_, rfl⟩
      refine listOf_spelled entryBytes_ne_nil (hys.imp fun e y h rest => ?_) rest
      simp [h.1 rest]
    · have hwrite : writePairs ys = writeEntries es := by
        clear hlen hkeys hes ih hdepth hpair
        induction hys with
        | nil => rfl
        | cons hy _ ih => rw [writePairs, writeEntries, hy.2, ih, entryBytes]
      rw [Item.write, write, ← hys.length_eq, hwrite]

/-! ## Dialect -/

theorem reads_text (s : String) : format.Reads textReader (.text s) s := by
  intro n depth hv _ place rest _
  cases hv with
  | text hs => exact textReader_text hs depth rest

theorem reads_bool (b : Bool) : format.Reads boolReader (.bool b) b := by
  intro n depth _ _ place rest _
  have hheader : header (write (.bool b) ++ rest) = some (.simple (if b then 21 else 20), rest) := by
    cases b <;> rfl
  change boolReader depth (write (.bool b) ++ rest) = _
  rw [boolReader, headerPastTags_of_header hheader (by simp)]
  cases b <;> rfl

theorem reads_unit : format.Reads unitReader .unit () := by
  intro n depth _ _ place rest _
  have hheader : header (write .unit ++ rest) = some (.simple 22, rest) := rfl
  change unitReader depth (write .unit ++ rest) = _
  simp only [unitReader, headerPastTags_of_header hheader (by simp)]

theorem reads_integerIn {ok : Int → Bool} {i : Int} (hok : ok i = true) : format.Reads (integerIn ok) (.int i) i := by
  intro n depth hv _ place rest _
  cases hv with
  | int hlo hhi =>
    change integerIn ok depth (intBytes i ++ rest) = _
    rw [integerIn, anyInteger_int hlo hhi]
    exact if_pos hok

theorem reads_natural (n : Nat) : format.Reads dialect.natural (.nat n) n :=
  .of_int fun _ hhi =>
    (reads_integerIn (by simp only [Int.natCast_nonneg, hhi, decide_true, Bool.and_self])).map Int.toNat

theorem reads_integer {i : Int} (h : i < 0x8000000000000000) : format.Reads dialect.integer (.int i) i :=
  .of_int fun hlo _ => reads_integerIn (by simp only [hlo, h, decide_true, Bool.and_self])

theorem reads_source {b : Bytes} (h : b.length ≤ bufferSize) : format.Reads sourceReader (.bytes b) b := by
  intro n depth hv _ place rest _
  cases hv with
  | bytes hb =>
    change sourceReader depth (stringHead 2 b ++ rest) = _
    simp only [sourceReader, headerPastTags_of_header (header_bytes hb rest) (by simp), h, if_true,
      takeBytes_append]

theorem reads_native (v : Value) : format.Reads dialect.native v (write v) := by
  intro n depth hv hdepth place rest _
  obtain ⟨x, hx, hwrite⟩ := exists_item hv (show n ≤ depth by omega)
  change (item depth (write v ++ rest)).map (fun x => (x.1.write, x.2)) = _
  rw [hx, Option.map_some, hwrite]

/-- A name is found where its bytes are. -/
theorem encode_beq (s t : String) : (Utf8.encode s == Utf8.encode t) = (s == t) := by
  rw [Bool.eq_iff_iff, beq_iff_eq, beq_iff_eq]
  exact ⟨Utf8.encode_injective, congrArg Utf8.encode⟩

theorem reads_choice {names : List String} {s : String} {i : Nat} (hs : (Utf8.encode s).length ≤ bufferSize)
    (h : names.idxOf? s = some i) : format.Reads (choiceReader names) (.text s) i := by
  intro n depth hv hdepth place rest _
  cases hv with
  | text hlt =>
    change choiceReader names depth (stringHead 3 (Utf8.encode s) ++ rest) = _
    have hdepth : depth ≠ 0 := by omega
    simp only [choiceReader, headerPastTags_of_header (header_text hlt rest) (by simp), if_neg hdepth, name_text hs,
      encode_beq]
    rw [List.idxOf?] at h
    rw [h]
    rfl

theorem reads_absent (r : Reader α) : format.Reads (optionalReader r) .null none := by
  intro n depth _ _ place rest _
  have hheader : header (write .null ++ rest) = some (.simple 22, rest) := rfl
  change optionalReader r depth (write .null ++ rest) = _
  simp only [optionalReader, hheader]

/-- Only what is nothing is spelled as nothing. -/
theorem header_write_ne {n : Nat} {v : Value} (hv : v.Fits format.holds n) (hnull : v ≠ .null) (hunit : v ≠ .unit)
    (rest : Bytes) : ∃ x r, header (write v ++ rest) = some (x, r) ∧ x ≠ .simple 22 ∧ x ≠ .simple 23 := by
  cases hv with
  | null => exact absurd rfl hnull
  | unit => exact absurd rfl hunit
  | bool b => cases b <;> exact ⟨_, _, rfl, by decide, by decide⟩
  | int hlo hhi =>
    refine ⟨_, _, header_int hlo hhi rest, ?_⟩
    split_ifs <;> exact ⟨nofun, nofun⟩
  | text hs => exact ⟨_, _, header_text hs rest, nofun, nofun⟩
  | bytes hb => exact ⟨_, _, header_bytes hb rest, nofun, nofun⟩
  | list hlen hxs => exact ⟨_, _, header_list (.list hlen hxs) rest, nofun, nofun⟩
  | table hlen hkeys hes => exact ⟨_, _, header_table (.table hlen hkeys hes) rest, nofun, nofun⟩

theorem reads_present {r : Reader α} {v : Value} {a : α} (hnull : v ≠ .null) (hunit : v ≠ .unit)
    (h : format.Reads r v a) : format.Reads (optionalReader r) v (some a) := by
  intro n depth hv hdepth place rest hrest
  have hread : r depth (write v ++ rest) = some (a, rest) := h hv hdepth place rest hrest
  obtain ⟨x, t, hheader, hx, hx'⟩ := header_write_ne hv hnull hunit rest
  change optionalReader r depth (write v ++ rest) = _
  rw [optionalReader, hheader, hread]
  split
  · next heq =>
    cases heq
    exact absurd rfl hx
  · next heq =>
    cases heq
    exact absurd rfl hx'
  · rfl

theorem reads_list {r : Reader α} {vs : List Value} {as : List α} (h : List.Forall₂ (format.Reads r) vs as) :
    format.Reads (listReader r) (.list vs) as := by
  intro n depth hv hdepth place rest _
  change listReader r depth (write (.list vs) ++ rest) = _
  rw [listReader, headerPastTags_of_header (header_list hv rest) (by simp)]
  cases hv with
  | list hlen hvs =>
    have hread : List.Forall₂ (fun v a => ∀ rest, r (depth - 1) (write v ++ rest) = some (a, rest)) vs as :=
      ((List.forall₂_and_left _ _).mpr ⟨hvs, h⟩).imp fun v a hva rest => hva.2 hva.1 (by omega) place rest trivial
    exact (if_neg (by omega)).trans (listOf_spelled write_ne_nil hread rest)

theorem reads_table {r : Reader α} {es : List (String × Value)} {as : List (String × α)}
    (h : List.Forall₂ (fun e a => e.1 = a.1 ∧ format.Reads r e.2 a.2) es as) :
    format.Reads (tableReader r) (.table es) as := by
  intro n depth hv hdepth place rest _
  change tableReader r depth (write (.table es) ++ rest) = _
  rw [tableReader, headerPastTags_of_header (header_table hv rest) (by simp)]
  cases hv with
  | table hlen hkeys hes =>
    refine (if_neg (by omega)).trans (listOf_spelled entryBytes_ne_nil ?_ rest)
    refine ((List.forall₂_and_left _ _).mpr ⟨fun e he => And.intro (hkeys e he) (hes e he), h⟩).imp ?_
    rintro ⟨k, v⟩ ⟨k', a⟩ ⟨⟨hkey, hv⟩, ⟨⟩, hr⟩ rest
    have hread : r (depth - 1) (write v ++ rest) = some (a, rest) := hr hv (by omega) place rest trivial
    rw [entryBytes, List.append_assoc]
    simp [textReader_text hkey, hread]

section Records

variable {fields : List (Field σ)}

/-- An entry of a record: a field, or an item that is passed over. -/
def recordEntry (fields : List (Field σ)) (depth : Nat) (p : Draft σ) (s : Bytes) : Option (Draft σ × Bytes) :=
  match name s with
  | some (b, r) => match fields.find? fun f => Utf8.encode f.name == b with
    | some f => p.enter f depth r
    | none => (item depth r).map fun x => (p, x.2)
  | none => none

theorem reads_record {zero : σ} {es : List (String × Value)} {p : Draft σ}
    (hoptional : ∀ f ∈ fields, f.required = false)
    (hnames : ∀ f ∈ fields, (Utf8.encode f.name).length ≤ bufferSize)
    (h : Run (format.Enters fields) ⟨zero, []⟩ es p) : format.Reads (recordReader fields zero) (.table es) p.value := by
  intro n depth hv hdepth place rest _
  change recordReader fields zero depth (write (.table es) ++ rest) = _
  rw [recordReader, headerPastTags_of_header (header_table hv rest) (by simp)]
  cases hv with
  | @table m _ hlen hkeys hes =>
    have hitem (p : Draft σ) (e : String × Value) (p' : Draft σ)
        (hstep : e.2.Fits format.holds m ∧ format.Enters fields p e p') (rest : Bytes) :
        recordEntry fields (depth - 1) p (entryBytes e ++ rest) = some (p', rest) := by
      obtain ⟨hv, hstep⟩ := hstep
      obtain ⟨f, hfind, hname, henter⟩ := hstep.enter
      have hf := hnames f (List.mem_of_find?_eq_some hfind)
      rw [hname] at hf
      have henter : p.enter f (depth - 1) (write e.2 ++ rest) = some (p', rest) :=
        henter hv (by omega) place rest trivial
      rw [recordEntry, entryBytes, List.append_assoc, name_text hf]
      simp only [encode_beq, hfind, henter]
    have hitems := items_of_run entryBytes_ne_nil hitem (h.and_forall hes) rest
    refine (if_neg (by omega)).trans ?_
    dsimp only
    split
    · next hitems' =>
      cases hitems'.symm.trans hitems
      rw [Draft.finish_of_optional hoptional]
      rfl
    · next hitems' => cases hitems'.symm.trans hitems

end Records

theorem faithful : dialect.Faithful format where
  short h := h.trans (show 16 ≤ bufferSize by decide)
  text := reads_text
  bool := reads_bool
  natural := reads_natural
  integer := reads_integer
  source := reads_source
  unit := reads_unit
  choice := reads_choice
  value := reads_value
  native := reads_native
  absent := reads_absent
  present := reads_present
  list := reads_list
  table := reads_table
  record := reads_record

end Cbor
end EditorAgent

import EditorAgent.Go.Importer
import EditorAgent.Proofs.Path.Normal
import EditorAgent.Proofs.Text.Encoding
import Mathlib.Data.List.Pairwise

/-!
# What the digest of replaced sources tells

The digest is taken of one byte string, in which a zero byte closes each path and each source. Two sets of sources that
are told apart by it differ in this string, and the string tells no more than the pieces between zero bytes: without
zero bytes in them, these are the paths and the sources, in the order of the paths. A source with a zero byte can be the
end of one source, a path and the beginning of another.
-/

namespace EditorAgent

namespace Path

theorem Component.rank_injective {c c' : Component} (h : c.rank = c'.rank) : c = c' := by
  have hnames {s t : String} (hst : s.toList.map Char.toNat = t.toList.map Char.toNat) : s = t :=
    String.toList_injective (List.map_injective_iff.mpr (fun _ _ => Char.toNat_inj.mp) hst)
  cases c <;> cases c' <;> simp [rank] at h ⊢
  exact hnames h

theorem components_eq_of_precedes {p q : String} (hpq : precedes p q = true) (hqp : precedes q p = true) :
    components p = components q := by
  have heq := Std.LawfulEqCmp.eq_of_compare (Std.OrientedCmp.isLE_antisymm hpq hqp)
  exact List.map_injective_iff.mpr (fun _ _ => Component.rank_injective) heq

theorem precedes_trans {p q r : String} (hpq : precedes p q = true) (hqr : precedes q r = true) :
    precedes p r = true :=
  Std.TransCmp.isLE_trans hpq hqr

theorem precedes_total (p q : String) : (precedes p q || precedes q p) = true := by
  rw [precedes, precedes, Std.OrientedOrd.eq_swap]
  cases compare ((components q).map Component.rank) ((components p).map Component.rank) <;> rfl

end Path

/-! ## Pieces between zero bytes -/

theorem flatMap_splitOnP (s : Bytes) : (s.splitOnP (· == 0)).flatMap (· ++ [0]) = s ++ [0] := by
  induction s with
  | nil => rfl
  | cons b s ih =>
    obtain ⟨piece, pieces, hs⟩ := List.exists_cons_of_ne_nil (List.splitOnP_ne_nil (· == 0) s)
    rw [hs] at ih
    rw [List.splitOnP_cons_eq_if_modifyHead, hs]
    split
    · next hb => simpa [beq_iff_eq.mp hb] using ih
    · simpa using ih

theorem not_mem_of_mem_splitOnP {s piece : Bytes} (h : piece ∈ s.splitOnP (· == 0)) : 0 ∉ piece := by
  induction s generalizing piece with
  | nil => simp_all
  | cons b s ih =>
    obtain ⟨first, pieces, hs⟩ := List.exists_cons_of_ne_nil (List.splitOnP_ne_nil (· == 0) s)
    rw [hs, List.forall_mem_cons] at ih
    rw [List.splitOnP_cons_eq_if_modifyHead, hs] at h
    split at h
    · rcases List.mem_cons.mp h with rfl | h
      · simp
      · rcases List.mem_cons.mp h with rfl | h
        · exact ih.1
        · exact ih.2 piece h
    · next hb =>
      rcases List.mem_cons.mp h with rfl | h
      · simp at hb
        simp [ih.1, Ne.symm hb]
      · exact ih.2 piece h

/-- Pieces without zero bytes are told by the string in which each is closed by one. -/
theorem eq_of_flatMap_eq {xs ys : List Bytes} (hx : ∀ x ∈ xs, 0 ∉ x) (hy : ∀ y ∈ ys, 0 ∉ y)
    (h : xs.flatMap (· ++ [0]) = ys.flatMap (· ++ [0])) : xs = ys := by
  induction xs generalizing ys with
  | nil =>
    cases ys with
    | nil => rfl
    | cons y ys => simp at h
  | cons x xs ih =>
    cases ys with
    | nil => simp at h
    | cons y ys =>
      rw [List.forall_mem_cons] at hx hy
      simp only [List.flatMap_cons, List.append_assoc, List.singleton_append] at h
      have hfirst {z : Bytes} (hz : 0 ∉ z) (r : Bytes) : (z ++ 0 :: r).takeWhile (· != 0) = z := by
        have hne : ∀ b ∈ z, (b != 0) = true := fun b hb => by simpa using ne_of_mem_of_not_mem hb hz
        rw [List.takeWhile_append_of_pos hne]
        simp
      obtain rfl : x = y := by rw [← hfirst hx.1, h, hfirst hy.1]
      rw [ih hx.2 hy.2 (by simpa using h)]

namespace Go.Overrides

variable {o o' : Overrides}

/-! ## What the string tells -/

/-- The pieces between zero bytes of the paths and the sources, in the order of the paths. -/
def pieces (o : Overrides) : List Bytes :=
  o.sorted.flatMap fun e => (Utf8.encode e.1).splitOnP (· == 0) ++ e.2.splitOnP (· == 0)

theorem serial_eq (o : Overrides) : o.serial = o.pieces.flatMap (· ++ [0]) := by
  have hentry (e : String × Bytes) : Utf8.encode e.1 ++ [0] ++ e.2 ++ [0] =
      ((Utf8.encode e.1).splitOnP (· == 0) ++ e.2.splitOnP (· == 0)).flatMap (· ++ [0]) := by
    rw [List.flatMap_append, flatMap_splitOnP, flatMap_splitOnP, List.append_assoc]
  simp only [serial, pieces, hentry, List.flatMap_assoc]

theorem serial_eq_iff : o.serial = o'.serial ↔ o.pieces = o'.pieces := by
  have hpiece (o : Overrides) : ∀ x ∈ o.pieces, 0 ∉ x := by
    intro x hx
    obtain ⟨e, -, hx⟩ := List.mem_flatMap.mp hx
    rcases List.mem_append.mp hx with hx | hx <;> exact not_mem_of_mem_splitOnP hx
  rw [serial_eq, serial_eq]
  exact ⟨eq_of_flatMap_eq (hpiece o) (hpiece o'), fun h => by rw [h]⟩

theorem pieces_eq_nil_iff : o.pieces = [] ↔ o = [] := by
  rw [pieces, List.flatMap_eq_nil_iff]
  constructor
  · intro h
    refine List.eq_nil_iff_forall_not_mem.mpr fun e he => ?_
    have hnil := h e (List.mem_mergeSort.mpr he)
    exact List.splitOnP_ne_nil _ _ (List.append_eq_nil_iff.mp hnil).1
  · rintro rfl
    simp [sorted]

/-! ## The digest -/

theorem length_sha256 (s : Bytes) : (Digest.sha256 s).length = 32 := by
  rw [Digest.sha256, Digest.hash, List.length_flatMap]
  simp [Digest.Chain.toList, Digest.wordBytes]

theorem hash_eq_of_ne_nil (h : o ≠ []) :
    o.hash = Base64.encodeUnpadded Base64.urlSafe (Digest.sha256 o.serial) := by
  rw [hash, if_neg (by simpa using h)]

theorem hash_eq_empty_iff : o.hash = "" ↔ o = [] := by
  constructor
  · intro h
    by_contra hne
    rw [hash_eq_of_ne_nil hne] at h
    have hempty : Base64.encodeUnpadded Base64.urlSafe [] = "" := rfl
    have hnil := Base64.encodeUnpadded_injective Base64.legible_urlSafe (h.trans hempty.symm)
    have hlength := length_sha256 o.serial
    simp [hnil] at hlength
  · rintro rfl
    rfl

/-- Where the digest of the two strings is not the same for different ones, it tells the pieces and nothing else. -/
theorem hash_eq_iff (hdigest : Digest.sha256 o.serial = Digest.sha256 o'.serial → o.serial = o'.serial) :
    o.hash = o'.hash ↔ o.pieces = o'.pieces := by
  by_cases ho : o = []
  · subst ho
    rw [hash_eq_empty_iff.mpr rfl, eq_comm, hash_eq_empty_iff, pieces_eq_nil_iff.mpr rfl, eq_comm (a := []),
      pieces_eq_nil_iff]
  · by_cases ho' : o' = []
    · subst ho'
      rw [hash_eq_empty_iff.mpr rfl, hash_eq_empty_iff, pieces_eq_nil_iff.mpr rfl, pieces_eq_nil_iff]
    · rw [← serial_eq_iff, hash_eq_of_ne_nil ho, hash_eq_of_ne_nil ho']
      constructor
      · exact fun h => hdigest (Base64.encodeUnpadded_injective Base64.legible_urlSafe h)
      · intro h
        rw [h]

/-! ## Different paths -/

/-- No path is there twice. -/
def Distinct (o : Overrides) : Prop := o.Pairwise fun x y => Path.same x.1 y.1 = false

instance (o : Overrides) : Decidable o.Distinct := inferInstanceAs (Decidable (o.Pairwise _))

theorem same_comm (p q : String) : Path.same p q = Path.same q p := Bool.beq_comm

instance : Std.Symm fun x y : String × Bytes => Path.same x.1 y.1 = false := ⟨fun x y h => by rwa [same_comm]⟩

/-- The order of different paths does not depend on the order in which they are given. -/
theorem Distinct.sorted_eq (ho : o.Distinct) (h : o.Perm o') : o.sorted = o'.sorted := by
  have htrans (x y z : String × Bytes) (hxy : Path.precedes x.1 y.1 = true) (hyz : Path.precedes y.1 z.1 = true) :
      Path.precedes x.1 z.1 = true := Path.precedes_trans hxy hyz
  have htotal (x y : String × Bytes) : (Path.precedes x.1 y.1 || Path.precedes y.1 x.1) = true :=
    Path.precedes_total x.1 y.1
  have hsorted (o : Overrides) : o.sorted.Pairwise fun x y => Path.precedes x.1 y.1 = true :=
    List.pairwise_mergeSort htrans htotal o
  refine List.Perm.eq_of_pairwise (fun x y hx hy hxy hyx => ?_) (hsorted o) (hsorted o') ?_
  · by_contra hne
    have hdiffer := List.Pairwise.forall ho (List.mem_mergeSort.mp hx) (h.mem_iff.mpr (List.mem_mergeSort.mp hy)) hne
    simp [Path.same, Path.components_eq_of_precedes hxy hyx] at hdiffer
  · exact (List.mergeSort_perm o _).trans (h.trans (List.mergeSort_perm o' _).symm)

/-- The sources that are set one after another. -/
def ofEntries (es : List (String × Bytes)) : Overrides := es.foldl (fun o e => o.insert e.1 e.2) []

theorem Distinct.insert (ho : o.Distinct) (path : String) (src : Bytes) : (o.insert path src).Distinct := by
  rw [Overrides.insert]
  split
  · have hkey (e : String × Bytes) : (if Path.same e.1 path = true then (e.1, src) else e).1 = e.1 := by
      split <;> rfl
    refine List.pairwise_map.mpr (ho.imp fun hxy => ?_)
    rwa [hkey, hkey]
  · next hnone =>
    simp only [List.any_eq_true, not_exists, not_and, Bool.not_eq_true] at hnone
    exact List.pairwise_append.mpr ⟨ho, List.pairwise_singleton _ _, by simpa using hnone⟩

/-- Sources that are set are at different paths. -/
theorem distinct_ofEntries (es : List (String × Bytes)) : (ofEntries es).Distinct :=
  List.foldlRecOn es _ List.Pairwise.nil fun _ ho e _ => ho.insert e.1 e.2

theorem foldl_insert_eq {es : List (String × Bytes)} (h : Distinct (o ++ es)) :
    es.foldl (fun o e => o.insert e.1 e.2) o = o ++ es := by
  induction es generalizing o with
  | nil => simp
  | cons e es ih =>
    have hnone : ¬(o.any fun x => Path.same x.1 e.1) = true := by
      simp only [List.any_eq_true, not_exists, not_and, Bool.not_eq_true]
      exact fun x hx => (List.pairwise_append.mp h).2.2 x hx e List.mem_cons_self
    have hinsert : o.insert e.1 e.2 = o ++ [e] := by rw [Overrides.insert, if_neg hnone]
    have happend : o ++ e :: es = o ++ [e] ++ es := by simp
    rw [List.foldl_cons, hinsert, ih (happend ▸ h), happend]

/-! ## Sources without zero bytes -/

/-- No path and no source has a zero byte. -/
def ZeroFree (o : Overrides) : Prop := ∀ e ∈ o, 0 ∉ Utf8.encode e.1 ∧ 0 ∉ e.2

instance (o : Overrides) : Decidable o.ZeroFree := inferInstanceAs (Decidable (∀ _ ∈ o, _))

theorem ZeroFree.pieces_eq (ho : o.ZeroFree) : o.pieces = o.sorted.flatMap fun e => [Utf8.encode e.1, e.2] := by
  have hone {s : Bytes} (hs : 0 ∉ s) : s.splitOnP (· == 0) = [s] :=
    List.splitOnP_eq_singleton fun b hb => beq_eq_false_iff_ne.mpr (ne_of_mem_of_not_mem hb hs)
  rw [pieces]
  refine List.flatMap_congr fun e he => ?_
  have hzero := ho e (List.mem_mergeSort.mp he)
  rw [hone hzero.1, hone hzero.2]
  rfl

/-- Pairs of a path and a source are told by their pieces. -/
theorem eq_of_flatMap_pair {es es' : List (String × Bytes)}
    (h : (es.flatMap fun e => [Utf8.encode e.1, e.2]) = es'.flatMap fun e => [Utf8.encode e.1, e.2]) : es = es' := by
  induction es generalizing es' with
  | nil => cases es' <;> simp_all
  | cons e es ih =>
    cases es' with
    | nil => simp at h
    | cons e' es' =>
      simp only [List.flatMap_cons, List.cons_append, List.nil_append, List.cons.injEq] at h
      rw [Prod.ext (Utf8.encode_injective h.1) h.2.1, ih h.2.2]

/-- Unless two strings collide, the digest tells the pieces and nothing else. Without zero bytes it tells the paths and
the sources, and the order in which different paths are set does not matter. -/
theorem hash_identifies (ho : o.Distinct)
    (hdigest : Digest.sha256 o.serial = Digest.sha256 o'.serial → o.serial = o'.serial) :
    (o.hash = o'.hash ↔ o.pieces = o'.pieces) ∧
      (o.ZeroFree → o'.ZeroFree → (o.hash = o'.hash ↔ o.Perm o')) ∧
      ∀ es : List (String × Bytes), es.Perm o → (ofEntries es).hash = o.hash := by
  have hsame {o o' : Overrides} (ho : o.Distinct) (h : o.Perm o') : o.hash = o'.hash := by
    have hempty : o.isEmpty = o'.isEmpty := by rw [Bool.eq_iff_iff, List.isEmpty_iff_length_eq_zero, h.length_eq, List.isEmpty_iff_length_eq_zero]
    rw [hash, hash, serial, serial, ho.sorted_eq h, hempty]
  refine ⟨hash_eq_iff hdigest, fun hzero hzero' => ⟨fun h => ?_, hsame ho⟩, fun es h => ?_⟩
  · rw [hash_eq_iff hdigest, hzero.pieces_eq, hzero'.pieces_eq] at h
    have hsorted : o.sorted = o'.sorted := eq_of_flatMap_pair h
    have hperm : o.sorted.Perm o' := by
      rw [hsorted]
      exact List.mergeSort_perm o' _
    exact (List.mergeSort_perm o _).symm.trans hperm
  · have hes : Distinct es := h.symm.pairwise ho fun hxy => by rwa [same_comm]
    have hof : ofEntries es = es := foldl_insert_eq (o := []) hes
    rw [hof]
    exact hsame hes h

/-- Two files that are set in either order. -/
theorem hash_identifies_swapped :
    Distinct [("/a.go", [112, 1]), ("/b.go", [113])] ∧
      ((ofEntries [("/b.go", [113]), ("/a.go", [112, 1])]).hash = hash [("/a.go", [112, 1]), ("/b.go", [113])]) ∧
      (hash [("/a.go", [112, 1]), ("/b.go", [113])] = hash [("/b.go", [113]), ("/a.go", [112, 1])] ↔
        List.Perm [("/a.go", ([112, 1] : Bytes)), ("/b.go", [113])] [("/b.go", [113]), ("/a.go", [112, 1])]) := by
  have hdistinct : Distinct [("/a.go", [112, 1]), ("/b.go", [113])] := by decide
  have hperm : List.Perm [("/a.go", ([112, 1] : Bytes)), ("/b.go", [113])] [("/b.go", [113]), ("/a.go", [112, 1])] :=
    List.Perm.swap _ _ _
  have hserial : serial [("/a.go", [112, 1]), ("/b.go", [113])] = serial [("/b.go", [113]), ("/a.go", [112, 1])] := by
    rw [serial, serial, hdistinct.sorted_eq hperm]
  have hall := hash_identifies hdistinct fun _ => hserial
  exact ⟨hdistinct, hall.2.2 _ hperm.symm, hall.2.1 (by decide) (by decide)⟩

/-- A source with a zero byte in it and two sources have one digest. -/
example : hash [("/a", [120, 0, 47, 98, 0, 121])] = hash [("/a", [120]), ("/b", [121])] := by
  have hsorted (o : Overrides) (h : o.Pairwise fun x y => Path.precedes x.1 y.1 = true) : o.sorted = o := by
    rw [sorted, List.mergeSort_of_pairwise h]
  have hserial : serial [("/a", [120, 0, 47, 98, 0, 121])] = serial [("/a", [120]), ("/b", [121])] := by
    rw [serial, serial, hsorted _ (by decide), hsorted _ (by decide)]
    decide
  rw [hash_eq_of_ne_nil (by simp), hash_eq_of_ne_nil (by simp), hserial]

end Go.Overrides
end EditorAgent

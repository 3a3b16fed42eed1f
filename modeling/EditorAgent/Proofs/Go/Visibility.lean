import EditorAgent.Go.Package
import EditorAgent.Proofs.Path.Segments

/-!
# Who may import a package

A package below a directory named `internal` or `vendor` has its importers below the directory that holds that one. The
search for such a directory goes by the text of a path. Here it is told by the path's segments, and so is what it means
for an importing directory to lie below another.
-/

namespace EditorAgent.Go.PackageInfo

open EditorAgent.Path EditorAgent.Vfs

variable {p : PackageInfo} {x w src : String} {ns base : List String}

/-! ## The directory above a name -/

/-- The segments above a name: above its last place in the middle, or above the end if it stands nowhere else. -/
def segmentsAbove? (x : String) (ns : List String) : Option (List String) :=
  (namesBefore? x ns.dropLast).or (namesBefore? x ns)

example : segmentsAbove? "internal" ["a", "internal", "x", "internal"] = some ["a"] := by decide

theorem segmentsAbove?_eq_none_iff : segmentsAbove? x ns = none ↔ x ∉ ns := by
  rw [segmentsAbove?, Option.or_eq_none_iff, namesBefore?_eq_none_iff, namesBefore?_eq_none_iff]
  exact and_iff_right_of_imp fun h hx => h (List.dropLast_subset ns hx)

theorem isPrefix_of_segmentsAbove? (h : segmentsAbove? x ns = some base) : base ++ [x] <+: ns := by
  rw [segmentsAbove?] at h
  have hpre : ∀ ms, namesBefore? x ms = some base → base ++ [x] <+: ms := by
    intro ms hms
    obtain ⟨rest, rfl, -⟩ := exists_of_namesBefore? hms
    exact ⟨rest, by simp⟩
  cases hmiddle : namesBefore? x ns.dropLast with
  | some bs =>
    obtain rfl : bs = base := by simpa [hmiddle] using h
    exact (hpre _ hmiddle).trans (List.dropLast_prefix ns)
  | none => exact hpre _ (by simpa [hmiddle] using h)

/-- Unless a name stands at the end and before it, its last place counts. -/
theorem segmentsAbove?_eq (h : ns.getLast? = some x → x ∉ ns.dropLast) : segmentsAbove? x ns = namesBefore? x ns := by
  rw [segmentsAbove?]
  rcases List.eq_nil_or_concat' ns with rfl | ⟨init, n, rfl⟩
  · rfl
  · rw [List.dropLast_concat, namesBefore?_concat] at *
    split
    · next hn =>
      have hnone := namesBefore?_eq_none_iff.mpr (h (by simp [hn]))
      rw [hnone]
      rfl
    · cases namesBefore? x init <;> rfl

/-- The search for a name in a path finds the segments above it. -/
theorem above?_trail (hx : IsSegment x) (hw : IsSegment w) (hns : ∀ n ∈ ns, IsSegment n) :
    above? (w ++ trail ns) x = (segmentsAbove? x ns).map fun base => w ++ trail base ++ "/" := by
  have habove : above? (w ++ trail ns) x = (((Text.cutLast? (w ++ trail ns) ("/" ++ x ++ "/")).map Prod.fst).or
      (Text.before? (w ++ trail ns) ("/" ++ x))).map (· ++ "/") := by
    rw [above?]
    cases Text.cutLast? (w ++ trail ns) ("/" ++ x ++ "/") <;> rfl
  rw [habove, cutLast?_trail hx hw hns, before?_trail hx hw hns, segmentsAbove?]
  cases hmiddle : namesBefore? x ns.dropLast with
  | some bs => rfl
  | none =>
    rcases List.eq_nil_or_concat' ns with rfl | ⟨init, n, rfl⟩
    · rfl
    · rw [List.dropLast_concat] at hmiddle
      rw [namesBefore?_concat, List.getLast?_concat, List.dropLast_concat, hmiddle]
      by_cases hn : n = x <;> simp [hn]

/-! ## Importers -/

/-- The segments of the directory below which the importers are. -/
def importersBelow? (ns : List String) : Option (List String) :=
  (segmentsAbove? "internal" ns).or (segmentsAbove? "vendor" ns)

theorem importersBelow?_eq_none_iff : importersBelow? ns = none ↔ "internal" ∉ ns ∧ "vendor" ∉ ns := by
  rw [importersBelow?, Option.or_eq_none_iff, segmentsAbove?_eq_none_iff, segmentsAbove?_eq_none_iff]

theorem exists_of_importersBelow? (h : importersBelow? ns = some base) : ∃ n, base ++ [n] <+: ns := by
  rw [importersBelow?] at h
  cases hinternal : segmentsAbove? "internal" ns with
  | some bs =>
    obtain rfl : bs = base := by simpa [hinternal] using h
    exact ⟨_, isPrefix_of_segmentsAbove? hinternal⟩
  | none => exact ⟨_, isPrefix_of_segmentsAbove? (by simpa [hinternal] using h)⟩

/-- What the importers' directories begin with, in a directory whose first segment follows `w`. -/
theorem importers_eq (hw : IsSegment w) (hdir : p.finalize.dir = w ++ trail (segments p.finalize.dir)) :
    p.finalize.importers =
      ((importersBelow? (segments p.finalize.dir)).map fun base => w ++ trail base ++ "/").getD "" := by
  have hns : ∀ n ∈ segments p.finalize.dir, IsSegment n := fun n => isSegment_of_mem_segments
  have habove : ∀ x, IsSegment x → above? p.finalize.dir x =
      (segmentsAbove? x (segments p.finalize.dir)).map fun base => w ++ trail base ++ "/" := by
    intro x hx
    have htrail := above?_trail hx hw hns
    rwa [← hdir] at htrail
  have himporters : p.finalize.importers =
      ((above? p.finalize.dir "internal").orElse fun _ => above? p.finalize.dir "vendor").getD "" := rfl
  rw [himporters, habove _ (by decide), habove _ (by decide), importersBelow?]
  cases segmentsAbove? "internal" (segments p.finalize.dir) <;> simp

theorem importers_eq_empty_iff : p.finalize.importers = "" ↔
    "internal" ∉ segments p.finalize.dir ∧ "vendor" ∉ segments p.finalize.dir := by
  obtain ⟨w, hw, -, hdir⟩ := exists_eq_append_trail p.finalize.dir
  rw [importers_eq hw hdir, ← importersBelow?_eq_none_iff]
  cases importersBelow? (segments p.finalize.dir) <;> simp

/-- The package itself lies where its importers lie. -/
theorem startsWith_dir_importers (p : PackageInfo) :
    Text.startsWith p.finalize.dir p.finalize.importers = true := by
  obtain ⟨w, hw, hns, hdir⟩ := exists_eq_append_trail p.finalize.dir
  rw [importers_eq hw hdir]
  cases hbelow : importersBelow? (segments p.finalize.dir) with
  | none => simp [Text.startsWith]
  | some base =>
    obtain ⟨n, hn⟩ := exists_of_importersBelow? hbelow
    have hbase : ∀ m ∈ base, IsSegment m := fun m hm => hns m (hn.subset (List.mem_append_left _ hm))
    rw [hdir]
    exact (startsWith_trail_iff hw hbase hw hns).mpr ⟨rfl, n, hn⟩

section Importable

variable (hcommand : p.isCommand = false) (hpath : p.importPath ≠ ".")
include hcommand hpath

theorem importable_of_importers (hne : p.importers ≠ "") :
    p.importable src = true ↔ Text.startsWith src p.importers = true ∨ Text.before? p.importers "/" = some src := by
  rw [importable, if_neg (by simp [hpath, hcommand]), if_pos (by simpa using hne)]
  simp

theorem importable_of_no_importers (h : p.importers = "") : p.importable src = !Path.same p.dir src := by
  rw [importable, if_neg (by simp [hpath, hcommand]), if_neg (by simp [h])]

/-- Code may import a package if its directory is the one that holds the `internal` or `vendor` directory, or below. -/
theorem importable_iff_isPrefix (himporters : p.importers = trail base ++ "/") (hbase : ∀ n ∈ base, IsSegment n) (hsrc : isAbsolute src = true) :
    p.importable src = true ↔ base <+: segments src := by
  have hbelow := startsWith_trail_iff (w := "") (v := "") (by decide) hbase (by decide)
    fun n => isSegment_of_mem_segments (p := src)
  rw [String.empty_append, String.empty_append, trail_segments hsrc, and_iff_right rfl] at hbelow
  rw [importable_of_importers hcommand hpath (by simp [himporters]), himporters, hbelow, Text.before?_eq_some_iff,
    String.append_left_inj, trail_eq_iff hbase hsrc]
  constructor
  · rintro (⟨n, hn⟩ | hsame)
    · exact (List.prefix_append base [n]).trans hn
    · rw [hsame]
  · rintro ⟨rest, hrest⟩
    cases rest with
    | nil => exact .inr (by simpa using hrest.symm)
    | cons n rest => exact .inl ⟨n, rest, by rw [← hrest]; simp⟩

end Importable

/-! ## After a package is finalized -/

/-- In an absolute directory the importers of a package are below the directory that holds the last `internal` or, if
there is none, the last `vendor`, unless that name is the last segment and stands before it too: then the place before
the end counts. Below it is said segment by segment. -/
theorem importers_finalize (habs : isAbsolute p.dir = true) :
    p.finalize.importers = ((importersBelow? (segments p.finalize.dir)).map (trail · ++ "/")).getD "" ∧
    ((∀ x ∈ ["internal", "vendor"], (segments p.finalize.dir).getLast? = some x →
        x ∉ (segments p.finalize.dir).dropLast) →
      importersBelow? (segments p.finalize.dir) = (namesBefore? "internal" (segments p.finalize.dir)).or
        (namesBefore? "vendor" (segments p.finalize.dir))) ∧
    ∀ base, importersBelow? (segments p.finalize.dir) = some base → p.isCommand = false → p.finalize.importPath ≠ "." →
      ∀ src, isAbsolute src = true → (p.finalize.importable src = true ↔ base <+: segments src) := by
  have hdir : p.finalize.dir = "" ++ trail (segments p.finalize.dir) := by
    rw [String.empty_append]
    exact (trail_segments (isAbsolute_clean habs)).symm
  have himporters := importers_eq (by decide) hdir
  simp only [String.empty_append] at himporters
  refine ⟨himporters, fun hlast => ?_, fun base hbase hcommand hpath src hsrc => ?_⟩
  · rw [importersBelow?, segmentsAbove?_eq (hlast _ (by simp)), segmentsAbove?_eq (hlast _ (by simp))]
  · obtain ⟨n, hn⟩ := exists_of_importersBelow? hbase
    refine importable_iff_isPrefix hcommand hpath (by rw [himporters, hbase]; rfl) (fun m hm => ?_) hsrc
    exact isSegment_of_mem_segments (hn.subset (List.mem_append_left _ hm))

theorem importers_finalize_nested :
    let p : PackageInfo := { dir := "/go/vendor/m/internal/y", name := "y", importPath := "m/internal/y" }
    p.finalize.importers = "/go/vendor/m/" ∧ p.finalize.importable "/go/vendor/m/z" = true := by
  obtain ⟨himporters, hlast, himportable⟩ := importers_finalize
    (p := { dir := "/go/vendor/m/internal/y", name := "y", importPath := "m/internal/y" }) (by decide)
  have hbelow := (hlast (by decide)).trans (by decide : _ = some ["go", "vendor", "m"])
  exact ⟨himporters.trans (by decide), (himportable _ hbelow (by decide) (by decide) _ (by decide)).mpr (by decide)⟩

/-- A package may be imported from its own directory if that lies at or below an `internal` or `vendor` directory, unless
it is a command or has no path to be imported by; no other package may. -/
theorem importable_finalize_dir (p : PackageInfo) : p.finalize.importable p.finalize.dir = true ↔
    p.isCommand = false ∧ p.finalize.importPath ≠ "." ∧
      ("internal" ∈ segments p.finalize.dir ∨ "vendor" ∈ segments p.finalize.dir) := by
  have hcommand : p.finalize.isCommand = p.isCommand := rfl
  by_cases hcode : p.isCommand = false ∧ p.finalize.importPath ≠ "."
  · rw [and_iff_right hcode.1, and_iff_right hcode.2]
    by_cases hnone : p.finalize.importers = ""
    · have hplain : p.finalize.importable p.finalize.dir = false := by
        rw [importable_of_no_importers (hcommand.trans hcode.1) hcode.2 hnone]
        simp [Path.same]
      obtain ⟨hinternal, hvendor⟩ := importers_eq_empty_iff.mp hnone
      simp [hplain, hinternal, hvendor]
    · have hmem := mt importers_eq_empty_iff.mpr hnone
      rw [not_and_or, not_not, not_not] at hmem
      rw [importable_of_importers (hcommand.trans hcode.1) hcode.2 hnone]
      exact iff_of_true (.inl (startsWith_dir_importers p)) hmem
  · have hnever : p.finalize.importable p.finalize.dir = false := by
      rw [importable, if_pos (by rw [hcommand]; grind)]
    rw [hnever]
    exact iff_of_false Bool.false_ne_true fun h => hcode ⟨h.1, h.2.1⟩

end EditorAgent.Go.PackageInfo

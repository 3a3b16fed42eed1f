import EditorAgent.Go.Build

/-!
# Which lines constrain a file

A source's lines up to its package clause are cut off line by line. Here the comments of a source are read as they
stand, character by character, and the two agree as long as block comments keep apart from what is around them. Of such
sources the verdict depends on the lines that consist of a `//` comment before the package clause, and on nothing else.
-/

namespace EditorAgent.Go

/-! ## Comments -/

/-- How a line goes on to its end: with nothing but white space, inside a block comment, with a `//` comment, or with
the package clause, whichever comes first. -/
inductive LineEnd where
  | blank
  | block
  | comment
  | code
deriving DecidableEq

-- the equations of `lineEnd` are not to unfold what is blank
attribute [local irreducible] Text.isBlank

/-- Reads a line up to its first `//` comment or its first token; `inBlock` tells whether a block comment is open. -/
def lineEnd : (inBlock : Bool) → List Char → LineEnd
  | true, [] => .block
  | true, '*' :: '/' :: r => lineEnd false r
  | true, _ :: r => lineEnd true r
  | false, [] => .blank
  | false, '/' :: '/' :: _ => .comment
  | false, '/' :: '*' :: r => lineEnd true r
  | false, c :: r => if Text.isBlank c then lineEnd false r else .code

/-- The lines that consist of a `//` comment, outside block comments and before the package clause. -/
def commentLines (inBlock : Bool) : List String → List String
  | [] => []
  | t :: rest => match lineEnd inBlock t.toList with
    | .blank => commentLines false rest
    | .block => commentLines true rest
    | .comment => (if !inBlock && Text.startsWith t "//" then [t] else []) ++ commentLines false rest
    | .code => []

/-- A line that is read as a constraint where it stands in the header. -/
def isConstraint (t : String) : Bool := (goBuild? t).isSome || (plusBuild? t).isSome

/-- Block comments keep apart from what is around them: no line that begins in one reads as a constraint, no line on
which one has been closed leaves one open, and the package clause does not follow one on its line. -/
def Apart (inBlock : Bool) : List String → Prop
  | [] => True
  | t :: rest =>
    (inBlock = true → isConstraint t = false) ∧
    (lineEnd inBlock t.toList = .block → Text.contains t "*/" = false) ∧
    (lineEnd inBlock t.toList = .code → inBlock = false ∧ Text.startsWith t "/*" = false) ∧
    (lineEnd inBlock t.toList ≠ .code → Apart (lineEnd inBlock t.toList = .block) rest)

instance decidableApart : (inBlock : Bool) → (lines : List String) → Decidable (Apart inBlock lines)
  | _, [] => inferInstanceAs (Decidable True)
  | inBlock, t :: rest =>
    have := decidableApart (lineEnd inBlock t.toList = .block) rest
    inferInstanceAs (Decidable (_ ∧ _ ∧ _ ∧ (_ → _)))

/-- The lines of a source, trimmed. -/
def sourceLines (src : Bytes) : List String := (splitLines src).map fun l => Text.trim (Utf8.lossy l)

variable {t : String} {cs : List Char} {inBlock : Bool}

/-! ## Beginnings -/

theorem startsWith_iff {s p : String} : Text.startsWith s p = true ↔ ∃ r, s.toList = p.toList ++ r := by
  rw [Text.startsWith, List.isPrefixOf_iff_prefix]
  exact ⟨fun ⟨r, h⟩ => ⟨r, h.symm⟩, fun ⟨r, h⟩ => ⟨r, h.symm⟩⟩

theorem startsWith_of_after? {s p r : String} (h : Text.after? s p = some r) : Text.startsWith s p = true := by
  rw [Text.after?] at h
  split at h
  · assumption
  · cases h

theorem startsWith_of_isConstraint (h : isConstraint t = true) : Text.startsWith t "//" = true := by
  rw [isConstraint, Bool.or_eq_true] at h
  rcases h with h | h
  · obtain ⟨expr, h⟩ := Option.isSome_iff_exists.mp h
    obtain ⟨r, hr⟩ := startsWith_iff.mp (startsWith_of_after? (Option.filter_eq_some_iff.mp h).1)
    exact startsWith_iff.mpr ⟨"go:build".toList ++ r, hr⟩
  · obtain ⟨words, h⟩ := Option.isSome_iff_exists.mp h
    obtain ⟨r, hr, -⟩ := Option.bind_eq_some_iff.mp h
    exact startsWith_of_after? hr

theorem opens_iff : Text.startsWith t "/*" = true ↔ ∃ r, t.toList = '/' :: '*' :: r := startsWith_iff

theorem comments_iff : Text.startsWith t "//" = true ↔ ∃ r, t.toList = '/' :: '/' :: r := startsWith_iff

theorem not_comments_of_opens (h : Text.startsWith t "/*" = true) : Text.startsWith t "//" = false := by
  obtain ⟨r, hr⟩ := opens_iff.mp h
  refine Bool.eq_false_iff.mpr fun hcomments => ?_
  obtain ⟨u, hu⟩ := comments_iff.mp hcomments
  simp [hr] at hu

/-! ## One line -/

theorem cutChars_eq_none_of_cons {p r : List Char} {c : Char} (h : Text.cutChars p (c :: r) = none) :
    p.isPrefixOf (c :: r) = false ∧ Text.cutChars p r = none := by
  rw [Text.cutChars] at h
  split at h
  · cases h
  · next hp => exact ⟨Bool.eq_false_iff.mpr hp, Option.map_eq_none_iff.mp h⟩

theorem lineEnd_true (h : Text.cutChars ['*', '/'] cs = none) : lineEnd true cs = .block := by
  induction cs with
  | nil => rfl
  | cons c r ih =>
    obtain ⟨hp, hr⟩ := cutChars_eq_none_of_cons h
    rw [lineEnd]
    · exact ih hr
    · rintro r rfl rfl
      simp at hp

/-- If a line that begins in a block comment, or with one, does not end in one, it closes one. -/
theorem contains_of_lineEnd (hin : inBlock = true ∨ Text.startsWith t "/*" = true)
    (hend : lineEnd inBlock t.toList ≠ .block) : Text.contains t "*/" = true := by
  rw [Text.contains, Option.isSome_iff_ne_none]
  intro hnone
  cases inBlock with
  | true => exact hend (lineEnd_true hnone)
  | false =>
    obtain ⟨r, hr⟩ := opens_iff.mp (hin.resolve_left Bool.false_ne_true)
    rw [hr] at hnone hend
    have hrest := (cutChars_eq_none_of_cons (cutChars_eq_none_of_cons hnone).2).2
    exact hend (by rw [lineEnd, lineEnd_true hrest])

/-- Where no block comment is open or begins, a trimmed line is empty, a comment or the package clause. -/
theorem lineEnd_false (ht : ∀ c ∈ t.toList.head?, Text.isBlank c = false) (hopens : Text.startsWith t "/*" = false) :
    lineEnd false t.toList = if t = "" then .blank else if Text.startsWith t "//" then .comment else .code := by
  split
  · next h => rw [h]; rfl
  · next hne =>
    split
    · next h =>
      obtain ⟨r, hr⟩ := comments_iff.mp h
      rw [hr, lineEnd]
    · next h =>
      match hcs : t.toList with
      | [] => exact absurd (String.toList_eq_nil_iff.mp hcs) hne
      | c :: r =>
        rw [lineEnd, if_neg (by simp [ht c (by rw [hcs]; rfl)])]
        · rintro r rfl rfl
          exact h (comments_iff.mpr ⟨_, hcs⟩)
        · rintro r rfl rfl
          rw [opens_iff.mpr ⟨_, hcs⟩] at hopens
          cases hopens

/-! ## The header -/

theorem isConstraint_of_opens (h : Text.startsWith t "/*" = true) : isConstraint t = false := by
  refine Bool.eq_false_iff.mpr fun hconstraint => ?_
  simpa [not_comments_of_opens h] using startsWith_of_isConstraint hconstraint

theorem takeHeader_block (hin : inBlock = true ∨ Text.startsWith t "/*" = true) (rest : List String) :
    takeHeader inBlock (t :: rest) = t :: takeHeader (!Text.contains t "*/") rest := by
  rw [takeHeader]
  rcases hin with hin | hin <;> simp [hin]

/-- A line that begins in a block comment, or with one, is no comment line. -/
theorem not_whole_of_block (hin : inBlock = true ∨ Text.startsWith t "/*" = true) :
    (!inBlock && Text.startsWith t "//") = false := by
  rcases hin with hin | hin
  · rw [hin]
    rfl
  · rw [not_comments_of_opens hin, Bool.and_false]

/-- If block comments keep apart, the header's constraints are those of its comments. -/
theorem filter_takeHeader {lines : List String} (hlines : ∀ t ∈ lines, ∀ c ∈ t.toList.head?, Text.isBlank c = false)
    (h : Apart inBlock lines) :
    (takeHeader inBlock lines).filter isConstraint = (commentLines inBlock lines).filter isConstraint := by
  induction lines generalizing inBlock with
  | nil => rfl
  | cons t rest ih =>
    obtain ⟨ht, hrest⟩ := List.forall_mem_cons.mp hlines
    obtain ⟨hplain, hblock, hcode, hnext⟩ := h
    by_cases hin : inBlock = true ∨ Text.startsWith t "/*" = true
    · -- the line is kept, and reads as nothing
      have hnone : isConstraint t = false := hin.elim hplain isConstraint_of_opens
      have hclosed := contains_of_lineEnd hin
      rw [takeHeader_block hin, List.filter_cons, hnone, if_neg Bool.false_ne_true, commentLines,
        not_whole_of_block hin]
      cases hline : lineEnd inBlock t.toList with
      | blank | comment =>
        rw [hline] at hclosed hnext
        rw [hclosed nofun]
        exact ih hrest (hnext nofun)
      | block =>
        rw [hline] at hnext
        rw [hblock hline]
        exact ih hrest (hnext nofun)
      | code =>
        obtain ⟨hfalse, hopens⟩ := hcode hline
        rw [hfalse, hopens] at hin
        exact absurd hin (by decide)
    · obtain ⟨hin, hopens⟩ := not_or.mp hin
      rw [Bool.not_eq_true] at hin hopens
      subst hin
      rw [lineEnd_false ht hopens] at hnext
      rw [takeHeader, commentLines, lineEnd_false ht hopens, if_neg Bool.false_ne_true, if_neg (by simp [hopens])]
      by_cases hempty : t = ""
      · have hnone : isConstraint "" = false := by decide
        subst hempty
        simpa [hnone] using ih hrest (hnext nofun)
      · by_cases hcomment : Text.startsWith t "//" = true
        · rw [if_neg hempty, if_pos hcomment] at hnext
          have htail : (takeHeader false rest).filter isConstraint = (commentLines false rest).filter isConstraint :=
            ih hrest (hnext nofun)
          simp [hempty, hcomment, List.filter_cons, htail]
        · simp [hempty, hcomment]

theorem head_trimChars (p : Char → Bool) (s : List Char) : ∀ c ∈ (Text.trimChars p s).head?, p c = false := by
  intro c hc
  have hcut : Text.trimChars p s <+: s.dropWhile p := by
    rw [Text.trimChars, ← List.reverse_suffix, List.reverse_reverse]
    exact List.dropWhile_suffix p
  obtain ⟨u, hu⟩ := hcut
  have hhead := List.head?_dropWhile_not p s
  rwa [← hu, List.head?_append, Option.mem_def.mp hc, Option.some_or] at hhead

theorem head_of_mem_sourceLines {src : Bytes} (ht : t ∈ sourceLines src) :
    ∀ c ∈ t.toList.head?, Text.isBlank c = false := by
  obtain ⟨l, -, rfl⟩ := List.mem_map.mp ht
  rw [Text.trim, String.toList_ofList]
  exact head_trimChars _ _

/-! ## Verdicts -/

namespace BuildContext

/-- What a header's lines say. -/
def verdict (b : BuildContext) (lines : List String) : Bool :=
  match lines.findSome? goBuild? with
  | some expr => match Constraint.parse expr with
    | some c => c.eval b.matchTag
    | none => false
  | none => (lines.filterMap plusBuild?).all b.matchPlusBuild

theorem matchConstraints_eq (b : BuildContext) (src : Bytes) :
    b.matchConstraints src = b.verdict (takeHeader false (sourceLines src)) := rfl

/-- Lines that are no constraints say nothing. -/
theorem verdict_filter (b : BuildContext) (lines : List String) :
    b.verdict (lines.filter isConstraint) = b.verdict lines := by
  have hfilter {β : Type} {f : String → Option β} (hf : ∀ t, (f t).isSome = true → isConstraint t = true) :
      (lines.filter isConstraint).filterMap f = lines.filterMap f := by
    rw [List.filterMap_filter]
    refine congrArg (lines.filterMap ·) (funext fun t => ?_)
    split
    · rfl
    · next hne => exact (Option.not_isSome_iff_eq_none.mp (mt (hf t) hne)).symm
  rw [verdict, verdict, ← List.head?_filterMap, ← List.head?_filterMap,
    hfilter fun t h => by simp [isConstraint, h], hfilter fun t h => by simp [isConstraint, h]]

/-- If block comments keep apart, the comment lines before the package clause decide. -/
theorem matchConstraints_eq_verdict (b : BuildContext) {src : Bytes} (h : Apart false (sourceLines src)) :
    b.matchConstraints src = b.verdict (commentLines false (sourceLines src)) := by
  rw [matchConstraints_eq, ← verdict_filter, filter_takeHeader (fun t => head_of_mem_sourceLines) h, verdict_filter]

/-- Of sources whose block comments keep apart, those with the same comment lines before the package clause get the same
verdict, and it is what these lines say. -/
theorem matchConstraints_congr (b : BuildContext) {src₁ src₂ : Bytes} (h₁ : Apart false (sourceLines src₁))
    (h₂ : Apart false (sourceLines src₂))
    (h : commentLines false (sourceLines src₁) = commentLines false (sourceLines src₂)) :
    b.matchConstraints src₁ = b.matchConstraints src₂ ∧
      b.matchConstraints src₁ = b.verdict (commentLines false (sourceLines src₁)) := by
  have hverdict := matchConstraints_eq_verdict b h₁
  refine ⟨?_, hverdict⟩
  rw [hverdict, matchConstraints_eq_verdict b h₂, h]

theorem matchConstraints_congr_moved :
    let src₁ := Utf8.encode "/*\n//x */\n//go:build cgo\npackage a"
    let src₂ := Utf8.encode "//go:build cgo\npackage b\n//go:build x"
    Apart false (sourceLines src₁) ∧ Apart false (sourceLines src₂) ∧
      commentLines false (sourceLines src₁) = commentLines false (sourceLines src₂) ∧
      ∀ b : BuildContext, b.matchConstraints src₁ = b.matchConstraints src₂ ∧
        b.matchConstraints src₁ = b.verdict (commentLines false (sourceLines src₁)) := by
  intro src₁ src₂
  have h₁ : Apart false (sourceLines src₁) := by decide +kernel
  have h₂ : Apart false (sourceLines src₂) := by decide +kernel
  have hlines : commentLines false (sourceLines src₁) = commentLines false (sourceLines src₂) := by decide +kernel
  exact ⟨h₁, h₂, hlines, fun b => matchConstraints_congr b h₁ h₂ hlines⟩

end BuildContext
end EditorAgent.Go

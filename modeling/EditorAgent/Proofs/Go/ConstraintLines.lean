import EditorAgent.Proofs.Go.Header
import EditorAgent.Proofs.Path.Below
import EditorAgent.Proofs.Text.Words

/-!
# What constraint lines mean

Before a package clause that only comments and blank lines precede, the first `//go:build` line decides alone. Without
one, the `+build` comments do, and those are told by their words: the first word begins with `+build`, and the others are
the alternatives. What else the first word holds is one alternative more.
-/

namespace EditorAgent

namespace Text

theorem after?_eq_some_iff {s p t : String} : after? s p = some t ↔ s = p ++ t :=
  ⟨after?_eq, fun h => h ▸ after?_append p t⟩

end Text

namespace Go

/-! ## Comments that constrain -/

/-- The line is `//go:build` alone, or white space and an expression follow. -/
def GoBuild (t expr : String) : Prop :=
  t = "//go:build" ++ expr ∧ ∀ c ∈ expr.toList.head?, Text.isBlank c = true

/-- The words of a `//` comment. -/
def commentWords (t : String) : List String := ((Text.after? t "//").map Text.words).getD []

variable {t expr : String} {alternatives : List String}

theorem goBuild?_eq_some_iff : goBuild? t = some expr ↔ GoBuild t expr := by
  rw [goBuild?, Option.filter_eq_some_iff, Text.after?_eq_some_iff, GoBuild]
  simp [Option.all_eq_true]

theorem goBuild?_eq_none_iff : goBuild? t = none ↔ ∀ expr, ¬ GoBuild t expr := by
  simp [Option.eq_none_iff_forall_ne_some, goBuild?_eq_some_iff]

/-- A `+build` comment is told by its first word. -/
theorem plusBuild?_eq_some_iff : plusBuild? t = some alternatives ↔
    ∃ more ws, commentWords t = ("+build" ++ more) :: ws ∧ alternatives = if more = "" then ws else more :: ws := by
  have hplus : ∀ c ∈ "+build".toList, Text.isBlank c = false := by
    simpa using (by decide : ("+build".toList.all fun c => !Text.isBlank c) = true)
  cases hcomment : Text.after? t "//" with
  | none => simp [plusBuild?, commentWords, hcomment]
  | some rest =>
    have hwords : commentWords t = Text.words (Text.trimStart rest) := by
      rw [commentWords, hcomment, Text.words_trimStart]
      rfl
    have hplusBuild : plusBuild? t = (Text.after? (Text.trimStart rest) "+build").map Text.words := by
      rw [plusBuild?, hcomment]
      exact Option.map_eq_bind.symm
    rw [hplusBuild, hwords, Option.map_eq_some_iff]
    constructor
    · rintro ⟨s, hs, rfl⟩
      rw [Text.after?_eq_some_iff] at hs
      rw [hs]
      exact Text.words_prepend (by decide) hplus s
    · rintro ⟨more, ws, hcons, rfl⟩
      obtain ⟨s, hs⟩ := Text.exists_trimStart_eq_append ((Text.words_trimStart rest).symm.trans hcons)
      rw [String.append_assoc] at hs
      obtain ⟨more', ws', hcons', hwords'⟩ := Text.words_prepend (by decide) hplus (more ++ s)
      rw [← hs, hcons, List.cons.injEq, String.append_right_inj] at hcons'
      obtain ⟨rfl, rfl⟩ := hcons'
      exact ⟨_, Text.after?_eq_some_iff.mpr hs, hwords'⟩

example : plusBuild? "// +builder notes" = some ["er", "notes"] := by decide

/-! ## Headers of comments -/

/-- Comments and blank lines up to a package clause are a header. -/
theorem takeHeader_comments {header rest : List String} {clause : String}
    (hheader : ∀ t ∈ header, t = "" ∨ Text.startsWith t "//" = true) (hclause : Text.startsWith clause "package" = true) :
    takeHeader false (header ++ clause :: rest) = header := by
  induction header with
  | nil =>
    obtain ⟨r, hr⟩ := startsWith_iff.mp hclause
    rw [List.nil_append, takeHeader]
    have hne : clause ≠ "" := by
      rintro rfl
      cases hr
    simp [Text.startsWith, hr, hne]
  | cons t header ih =>
    obtain ⟨ht, hheader⟩ := List.forall_mem_cons.mp hheader
    have hopens : Text.startsWith t "/*" = false := by
      refine Bool.eq_false_iff.mpr fun hopens => ?_
      rcases ht with rfl | ht
      · cases hopens
      · simp [not_comments_of_opens hopens] at ht
    rw [List.cons_append, takeHeader, ih hheader]
    rcases ht with rfl | ht
    · rfl
    · simp [hopens, ht]

namespace BuildContext

/-- A term holds if its tag does or, where `!` precedes it, does not. -/
def TermHolds (b : BuildContext) (term : String) : Prop :=
  (∀ tag, term = "!" ++ tag → b.matchTag tag = false) ∧ ((∀ tag, term ≠ "!" ++ tag) → b.matchTag term = true)

theorem matchTerm_iff {b : BuildContext} {term : String} : b.matchTerm term = true ↔ b.TermHolds term := by
  rw [matchTerm, TermHolds]
  cases hbang : Text.after? term "!" with
  | some tag =>
    obtain rfl := Text.after?_eq_some_iff.mp hbang
    simp [String.append_right_inj]
  | none =>
    have hplain : ∀ tag, term ≠ "!" ++ tag := fun tag htag => by
      simp [Text.after?_eq_some_iff.mpr htag] at hbang
    simp [hplain]

/-- Of a source whose package clause follows comments and blank lines only, the first `//go:build` line decides, whatever
the `+build` comments are. Without one all `+build` comments have to hold: of each, an alternative, all of whose terms
hold. A comment is one of these if its first word begins with `+build`, and what is left of that word is an alternative. -/
theorem matchConstraints_header (b : BuildContext) {src : Bytes} {header rest : List String} {clause : String}
    (hlines : sourceLines src = header ++ clause :: rest)
    (hheader : ∀ t ∈ header, t = "" ∨ Text.startsWith t "//" = true) (hclause : Text.startsWith clause "package" = true) :
    (∀ before t after expr, header = before ++ t :: after → (∀ u ∈ before, ∀ e, ¬ GoBuild u e) → GoBuild t expr →
      b.matchConstraints src = ((Constraint.parse expr).map (·.eval b.matchTag)).getD false) ∧
    ((∀ t ∈ header, ∀ e, ¬ GoBuild t e) →
      (b.matchConstraints src = true ↔ ∀ t ∈ header, ∀ more ws, commentWords t = ("+build" ++ more) :: ws →
        ∃ alt ∈ if more = "" then ws else more :: ws, ∀ term ∈ Text.split (· == ',') alt, b.TermHolds term)) := by
  have hverdict : b.matchConstraints src = b.verdict header := by
    rw [matchConstraints_eq, hlines, takeHeader_comments hheader hclause]
  rw [hverdict, verdict]
  constructor
  · rintro before t after expr rfl hbefore ht
    have hnone : before.findSome? goBuild? = none :=
      List.findSome?_eq_none_iff.mpr fun u hu => goBuild?_eq_none_iff.mpr (hbefore u hu)
    have hfirst : (before ++ t :: after).findSome? goBuild? = some expr := by
      rw [List.findSome?_append, hnone, Option.none_or, List.findSome?_cons_of_isSome] <;>
        simp [goBuild?_eq_some_iff.mpr ht]
    rw [hfirst]
    dsimp only
    cases Constraint.parse expr <;> rfl
  · intro hnone
    rw [List.findSome?_eq_none_iff.mpr fun u hu => goBuild?_eq_none_iff.mpr (hnone u hu), List.all_eq_true]
    simp only [List.mem_filterMap, plusBuild?_eq_some_iff, matchPlusBuild, List.any_eq_true, List.all_eq_true,
      matchTerm_iff]
    constructor
    · exact fun h t ht more ws hwords => h _ ⟨t, ht, more, ws, hwords, rfl⟩
    · rintro h _ ⟨t, ht, more, ws, hwords, rfl⟩
      exact h t ht more ws hwords

theorem matchConstraints_header_both :
    (∀ b : BuildContext, b.matchConstraints (Utf8.encode "// +build x\n//go:build !cgo\npackage a") = !b.matchTag "cgo") ∧
    ∀ b : BuildContext, b.matchTag "y" = true →
      b.matchConstraints (Utf8.encode "// +build x,!cgo y\n\n// z\npackage a") = true := by
  constructor
  · intro b
    have hparse : Constraint.parse " !cgo" = some (.not (.tag "cgo")) := by
      have hlex : Constraint.lex " !cgo" = some [.not, .tag "cgo"] := by decide
      simp [Constraint.parse, hlex, Constraint.parseOr, Constraint.parseOrs, Constraint.parseAnd, Constraint.parseAnds,
        Constraint.parseNot]
    have hlines : sourceLines (Utf8.encode "// +build x\n//go:build !cgo\npackage a") =
        ["// +build x", "//go:build !cgo"] ++ "package a" :: [] := by decide +kernel
    have h := (matchConstraints_header b hlines (by decide) (by decide)).1 ["// +build x"] _ [] " !cgo" rfl
      (by simpa using goBuild?_eq_none_iff.mp (by decide)) (goBuild?_eq_some_iff.mp (by decide))
    rw [h, hparse]
    rfl
  · intro b hy
    have hnone : ∀ t ∈ ["// +build x,!cgo y", "", "// z"], goBuild? t = none := by decide
    have hlines : sourceLines (Utf8.encode "// +build x,!cgo y\n\n// z\npackage a") =
        ["// +build x,!cgo y", "", "// z"] ++ "package a" :: [] := by decide +kernel
    refine ((matchConstraints_header b hlines (by decide) (by decide)).2 fun t ht =>
      goBuild?_eq_none_iff.mp (hnone t ht)).mpr ?_
    intro t ht more ws hwords
    have hread : plusBuild? t = some (if more = "" then ws else more :: ws) :=
      plusBuild?_eq_some_iff.mpr ⟨more, ws, hwords, rfl⟩
    simp only [List.mem_cons, List.not_mem_nil, or_false] at ht
    rcases ht with rfl | rfl | rfl
    · have hy' : b.TermHolds "y" := matchTerm_iff.mp (by rwa [matchTerm, (by decide : Text.after? "y" "!" = none)])
      have halts := (by decide : plusBuild? "// +build x,!cgo y" = some ["x,!cgo", "y"]).symm.trans hread
      rw [← Option.some.inj halts]
      exact ⟨"y", by simp, by simpa [(by decide : Text.split (· == ',') "y" = ["y"])] using hy'⟩
    · cases hread
    · cases (by decide : plusBuild? "// z" = none).symm.trans hread

end BuildContext

end Go
end EditorAgent

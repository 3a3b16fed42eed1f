import EditorAgent.Proofs.Go.Sources
import Mathlib.Data.List.TakeWhile

/-!
# Packages that pass the shallow check

When no source has a mistake and every import is at hand, the shallow check asks for nothing and has only package clauses
and declared names to object to. It takes the first name that a clause gives and holds every later clause against it, so
sources without a clause pass in front of the first that has one and nowhere else. Where all sources have a clause, or
none has, the check accepts just the sources that agree, in whatever order they come.
-/

namespace EditorAgent.Go

/-! ## What sources say -/

/-- The files that are not empty sources. -/
def written (fs : List PackageFile) : List PackageFile := fs.filter fun f => !f.parsed.stub

/-- The names in the package clauses of files, empty where there is no clause. -/
def clauseNames (fs : List PackageFile) : List String := (written fs).map (·.parsed.package)

/-- The names that files declare, as often as they do. -/
def declaredNames (fs : List PackageFile) : List String := (written fs).flatMap fun f => f.parsed.decls.map (·.name)

/-- The first name that a clause gives. -/
def firstName (clauses : List String) : String := (clauses.find? (· != "")).getD ""

/-- From the first clause with a name on, all clauses give that name. -/
def InStep (clauses : List String) : Prop := ∀ c ∈ clauses.dropWhile (· == ""), c = firstName clauses

instance (clauses : List String) : Decidable (InStep clauses) := inferInstanceAs (Decidable (∀ c ∈ _, _))

/-- If one of the files has no package clause, none has. -/
def AllOrNone (fs : List PackageFile) : Prop := ∀ c ∈ clauseNames fs, ∀ c' ∈ clauseNames fs, c = "" → c' = ""

/-- The files agree on a package name, and no name is declared twice over all of them. -/
structure Concordant (fs : List PackageFile) : Prop where
  clauses : ∀ c ∈ clauseNames fs, ∀ c' ∈ clauseNames fs, c = c'
  names : (declaredNames fs).Nodup

/-- The files have no mistakes, and what they import is at hand. -/
structure CheckRequest.Stocked (r : CheckRequest) : Prop where
  parsed : ∀ f ∈ r.files, f.parsed.error = none
  imports : ∀ f ∈ r.files, ∀ spec ∈ f.parsed.imports,
    spec.path = "C" ∧ r.config.fakeImportC = true ∨ ∃ dep, (spec.path, dep) ∈ r.imports

section

variable {clauses : List String} {c : String} {fs gs : List PackageFile} {f : PackageFile}

theorem written_concat_of_stub (hf : f.parsed.stub = true) : written (fs ++ [f]) = written fs := by
  simp [written, hf]

theorem written_concat (hf : f.parsed.stub = false) : written (fs ++ [f]) = written fs ++ [f] := by
  simp [written, hf]

theorem firstName_concat (clauses : List String) (c : String) :
    firstName (clauses ++ [c]) = if firstName clauses = "" then c else firstName clauses := by
  rw [firstName, firstName, List.find?_append]
  cases hfind : clauses.find? (· != "") with
  | some name =>
    have hname : name ≠ "" := by simpa using List.find?_some hfind
    simp [hname]
  | none => by_cases hc : c = "" <;> simp [hc]

theorem firstName_eq_empty_iff : firstName clauses = "" ↔ ∀ c ∈ clauses, c = "" := by
  rw [firstName]
  cases hfind : clauses.find? (· != "") with
  | some name =>
    have hname : name ≠ "" := by simpa using List.find?_some hfind
    exact ⟨fun h => absurd h hname, fun h => h name (List.mem_of_find?_eq_some hfind)⟩
  | none => simpa using hfind

theorem inStep_concat : InStep (clauses ++ [c]) ↔ InStep clauses ∧ (firstName clauses = "" ∨ c = firstName clauses) := by
  rw [InStep, InStep, firstName_concat, List.dropWhile_append]
  by_cases hfirst : firstName clauses = ""
  · -- No clause gave a name yet, so the new one is the first that counts.
    have hall := firstName_eq_empty_iff.mp hfirst
    have hdrop : clauses.dropWhile (· == "") = [] := List.dropWhile_eq_nil_iff.mpr (by simpa using hall)
    by_cases hc : c = "" <;> simp [hdrop, hfirst, hc]
  · have hdrop : clauses.dropWhile (· == "") ≠ [] := fun h =>
      hfirst (firstName_eq_empty_iff.mpr (by simpa using List.dropWhile_eq_nil_iff.mp h))
    simp only [List.isEmpty_iff, hdrop, if_false, hfirst, false_or, List.mem_append, List.mem_singleton]
    exact ⟨fun h => ⟨fun x hx => h x (.inl hx), h c (.inr rfl)⟩,
      fun ⟨h, hc⟩ x hx => hx.elim (h x) fun hx => hx.trans hc⟩

/-- A source without a clause passes in front of the first that has one, and not behind it. -/
example : InStep ["", "p"] ∧ ¬InStep ["p", ""] := by decide

/-- Clauses that all give a name, or all give none, are in step just if they are equal. -/
theorem inStep_iff_of_allOrNone (h : AllOrNone fs) :
    InStep (clauseNames fs) ↔ ∀ c ∈ clauseNames fs, ∀ c' ∈ clauseNames fs, c = c' := by
  by_cases hfirst : firstName (clauseNames fs) = ""
  · have hall := firstName_eq_empty_iff.mp hfirst
    have hdrop : (clauseNames fs).dropWhile (· == "") = [] := List.dropWhile_eq_nil_iff.mpr (by simpa using hall)
    rw [InStep, hdrop]
    exact ⟨fun _ c hc c' hc' => (hall c hc).trans (hall c' hc').symm, fun _ c hc => absurd hc (by simp)⟩
  · have hnone : ∀ c ∈ clauseNames fs, c ≠ "" := fun c hc hempty =>
      hfirst (firstName_eq_empty_iff.mpr fun c' hc' => h c hc c' hc' hempty)
    have hdrop : (clauseNames fs).dropWhile (· == "") = clauseNames fs := by
      cases hcs : clauseNames fs with
      | nil => rfl
      | cons c cs =>
        have hc : c ≠ "" := hnone c (by simp [hcs])
        simp [hc]
    have hmem : firstName (clauseNames fs) ∈ clauseNames fs := by
      rw [firstName] at hfirst ⊢
      cases hfind : (clauseNames fs).find? (· != "") with
      | some name => exact List.mem_of_find?_eq_some hfind
      | none => simp [hfind] at hfirst
    rw [InStep, hdrop]
    exact ⟨fun h c hc c' hc' => (h c hc).trans (h c' hc').symm, fun h c hc => h c hc _ hmem⟩

/-- Whether files are concordant does not depend on their order. -/
theorem Concordant.perm (h : Concordant fs) (hperm : fs.Perm gs) : Concordant gs := by
  have hwritten : (written fs).Perm (written gs) := hperm.filter _
  have hclauses : (clauseNames fs).Perm (clauseNames gs) := hwritten.map _
  exact ⟨fun c hc c' hc' => h.clauses c (hclauses.mem_iff.mpr hc) c' (hclauses.mem_iff.mpr hc'),
    (hwritten.flatMap_right _).nodup_iff.mp h.names⟩

theorem AllOrNone.perm (h : AllOrNone fs) (hperm : fs.Perm gs) : AllOrNone gs := by
  have hclauses : (clauseNames fs).Perm (clauseNames gs) := (hperm.filter _).map _
  exact fun c hc c' hc' => h c (hclauses.mem_iff.mpr hc) c' (hclauses.mem_iff.mpr hc')

end

namespace Shallow

/-! ## What each part of the check reports -/

/-- Nothing in a list of errors fails a package. -/
def Passing (errors : List TypeError) : Prop := ∀ e ∈ errors, e.soft = true

namespace Draft

variable {c c' c'' : Draft} {f : PackageFile} {fs : List PackageFile} {names : List String} {P : Prop}

theorem passing_report (c : Draft) (path : String) (row col : Nat) (message : String) (soft : Bool) :
    Passing (c.report path row col message soft).errors ↔ Passing c.errors ∧ soft = true := by
  simp [Passing, report, or_imp, forall_and]

theorem passing_clause (c : Draft) (f : PackageFile) :
    Passing (c.clause f).errors ↔
      Passing c.errors ∧ (c.package.name = "" ∨ f.parsed.package = c.package.name) := by
  unfold clause
  split
  · simp [*]
  · split
    · simp_all [passing_report]
    · simp_all

theorem name_clause (c : Draft) (f : PackageFile) :
    (c.clause f).package.name = if c.package.name = "" then f.parsed.package else c.package.name := by
  unfold clause
  split
  · rfl
  · split <;> rfl

theorem passing_declare (path : String) (c : Draft) (d : Decl) :
    Passing (c.declare path d).errors ↔ Passing c.errors ∧ d.name ∉ c.declared.map (·.1) := by
  unfold declare
  cases hfind : c.declared.find? (·.1 == d.name) with
  | some before =>
    have hmem : d.name ∈ c.declared.map (·.1) :=
      List.mem_map.mpr ⟨before, List.mem_of_find?_eq_some hfind, by simpa using List.find?_some hfind⟩
    simp [passing_report, hmem]
  | none =>
    have hnone : d.name ∉ c.declared.map (·.1) := fun hmem => by
      obtain ⟨before, hbefore, hname⟩ := List.mem_map.mp hmem
      simpa [hname] using List.find?_eq_none.mp hfind before hbefore
    simp [hnone]

/-- The names that a draft has taken in, the last one first. -/
structure Lists (c : Draft) (names : List String) : Prop where
  declared : c.declared.map (·.1) = names.reverse
  scope : c.package.scope = names.reverse

theorem Lists.clause (h : c.Lists names) (f : PackageFile) : (c.clause f).Lists names := by
  unfold Draft.clause
  split
  · exact ⟨h.declared, h.scope⟩
  · split <;> exact ⟨h.declared, h.scope⟩

theorem Lists.declare (h : c.Lists names) (path : String) (d : Decl) :
    (c.declare path d).Lists (names ++ [d.name]) ∧ (c.declare path d).package.name = c.package.name := by
  unfold Draft.declare
  split <;> exact ⟨⟨by simp [h.declared, report], by simp [h.scope, report]⟩, rfl⟩

/-- Declarations pass as long as no name comes twice. -/
theorem Lists.foldl_declare (h : c.Lists names) (hpass : Passing c.errors ↔ P ∧ names.Nodup) (path : String)
    (ds : List Decl) :
    let after := ds.foldl (Draft.declare path) c
    after.Lists (names ++ ds.map (·.name)) ∧ after.package.name = c.package.name ∧
      (Passing after.errors ↔ P ∧ (names ++ ds.map (·.name)).Nodup) := by
  induction ds generalizing c names with
  | nil => exact ⟨by simpa using h, rfl, by simpa using hpass⟩
  | cons d ds ih =>
    obtain ⟨hlists, hname⟩ := h.declare path d
    have hstep : Passing (c.declare path d).errors ↔ P ∧ (names ++ [d.name]).Nodup := by
      rw [passing_declare, hpass, h.declared, List.mem_reverse, ← List.concat_eq_append, List.nodup_concat]
      tauto
    have hrest := ih hlists hstep
    rw [List.append_assoc] at hrest
    exact ⟨hrest.1, hrest.2.1.trans hname, hrest.2.2⟩

/-- The name, the names taken in and the verdict stay. -/
structure Agrees (c c' : Draft) : Prop where
  name : c'.package.name = c.package.name
  declared : c'.declared = c.declared
  scope : c'.package.scope = c.package.scope
  passing : Passing c'.errors ↔ Passing c.errors

namespace Agrees

theorem refl (c : Draft) : c.Agrees c := ⟨rfl, rfl, rfl, Iff.rfl⟩

theorem trans (h : c.Agrees c') (h' : c'.Agrees c'') : c.Agrees c'' :=
  ⟨h'.name.trans h.name, h'.declared.trans h.declared, h'.scope.trans h.scope, h'.passing.trans h.passing⟩

theorem lists (h : c.Agrees c') (hc : c.Lists names) : c'.Lists names :=
  ⟨h.declared ▸ hc.declared, h.scope ▸ hc.scope⟩

/-- An import that is not used is a soft error only. -/
theorem depend (config : CheckConfig) (f : PackageFile) (c : Draft) (spec : ImportSpec) (dep : Package) :
    c.Agrees (c.depend config f spec dep) := by
  unfold Draft.depend
  extract_lets name checked c₁
  have hunused : c.Agrees c₁ := by
    unfold c₁
    split
    · exact ⟨rfl, rfl, rfl, by simp [passing_report]⟩
    · exact refl c
  split
  · exact hunused
  · exact hunused.trans ⟨rfl, rfl, rfl, Iff.rfl⟩

end Agrees
end Draft

/-! ## The whole check -/

variable {m : Type → Type} [Monad m] {r : CheckRequest} (find : String → m (Except ImportError Package)) {c : Draft}
  {f : PackageFile} {fs : List PackageFile}

/-- Imports at hand are taken in without asking for any, and change no verdict. -/
theorem imports_of_stocked (f : PackageFile) (c : Draft) {specs : List ImportSpec}
    (h : ∀ spec ∈ specs, spec.path = "C" ∧ r.config.fakeImportC = true ∨ ∃ dep, (spec.path, dep) ∈ r.imports) :
    ∃ c', imports r find f c specs = pure c' ∧ c.Agrees c' := by
  induction specs generalizing c with
  | nil => exact ⟨c, by rw [imports], .refl c⟩
  | cons spec specs ih =>
    have hrest : ∀ spec ∈ specs, _ := fun spec hspec => h spec (List.mem_cons_of_mem _ hspec)
    rw [imports]
    split
    · exact ih c hrest
    · next hfake =>
      have hmem : ∃ dep, (spec.path, dep) ∈ r.imports :=
        (h spec List.mem_cons_self).resolve_left (by simpa using hfake)
      cases hfind : r.imports.find? (·.1 == spec.path) with
      | some entry =>
        obtain ⟨c', hc', hagrees⟩ := ih (c.depend r.config f spec entry.2) hrest
        exact ⟨c', hc', (Draft.Agrees.depend ..).trans hagrees⟩
      | none =>
        obtain ⟨dep, hdep⟩ := hmem
        simpa using List.find?_eq_none.mp hfind _ hdep

/-- A draft tells of the files it is made from: the first name, the names declared, and whether they are in order. -/
structure Draft.Tells (c : Draft) (fs : List PackageFile) : Prop where
  name : c.package.name = firstName (clauseNames fs)
  lists : c.Lists (declaredNames fs)
  passing : Passing c.errors ↔ InStep (clauseNames fs) ∧ (declaredNames fs).Nodup

theorem tells_of_stub (h : c.Tells fs) (hf : f.parsed.stub = true) : c.Tells (fs ++ [f]) := by
  have hwritten : written (fs ++ [f]) = written fs := written_concat_of_stub hf
  have hclauses : clauseNames (fs ++ [f]) = clauseNames fs := congrArg (List.map _) hwritten
  have hnames : declaredNames (fs ++ [f]) = declaredNames fs := congrArg (List.flatMap _) hwritten
  exact ⟨hclauses ▸ h.name, hnames ▸ h.lists, by rw [hclauses, hnames]; exact h.passing⟩

/-- A file takes a draft of the files before it to one of the files with it. -/
theorem file_of_stocked (h : c.Tells fs) (herror : f.parsed.error = none)
    (himports : ∀ spec ∈ f.parsed.imports,
      spec.path = "C" ∧ r.config.fakeImportC = true ∨ ∃ dep, (spec.path, dep) ∈ r.imports) :
    ∃ c', file r find c f = pure c' ∧ c'.Tells (fs ++ [f]) := by
  unfold file
  extract_lets _ c₁ c₂ c₃
  have hc₁ : c₁.Tells fs := ⟨h.name, ⟨h.lists.declared, h.lists.scope⟩, h.passing⟩
  cases hstub : f.parsed.stub with
  | true => exact ⟨c₁, by simp, tells_of_stub hc₁ hstub⟩
  | false =>
    have hc₃ : c₃ = f.parsed.decls.foldl (Draft.declare f.path) (c₁.clause f) := by
      unfold c₃ c₂
      rw [herror]
    have hclauses : clauseNames (fs ++ [f]) = clauseNames fs ++ [f.parsed.package] := by
      simp [clauseNames, written_concat hstub]
    have hnames : declaredNames (fs ++ [f]) = declaredNames fs ++ f.parsed.decls.map (·.name) := by
      simp [declaredNames, written_concat hstub]
    have hclause : Passing (c₁.clause f).errors ↔ InStep (clauseNames (fs ++ [f])) ∧ (declaredNames fs).Nodup := by
      rw [Draft.passing_clause, hc₁.passing, hclauses, inStep_concat, hc₁.name]
      tauto
    obtain ⟨hlists, hname, hpass⟩ := (hc₁.lists.clause f).foldl_declare hclause f.path f.parsed.decls
    rw [← hc₃] at hlists hname hpass
    obtain ⟨c', hc', hagrees⟩ := imports_of_stocked find f c₃ himports
    refine ⟨c', by simpa using hc', ?_, hnames ▸ hagrees.lists hlists, ?_⟩
    · rw [hagrees.name, hname, Draft.name_clause, hc₁.name, hclauses, firstName_concat]
    · rw [hagrees.passing, hpass, hnames]

variable [LawfulMonad m]

theorem files_of_stocked {more : List PackageFile} (h : c.Tells fs) (herror : ∀ f ∈ more, f.parsed.error = none)
    (himports : ∀ f ∈ more, ∀ spec ∈ f.parsed.imports,
      spec.path = "C" ∧ r.config.fakeImportC = true ∨ ∃ dep, (spec.path, dep) ∈ r.imports) :
    ∃ c', files r find c more = pure c' ∧ c'.Tells (fs ++ more) := by
  induction more generalizing c fs with
  | nil => exact ⟨c, by rw [files], (List.append_nil fs).symm ▸ h⟩
  | cons f more ih =>
    obtain ⟨c₁, hc₁, htells⟩ := file_of_stocked find h (herror f List.mem_cons_self)
      (himports f List.mem_cons_self)
    obtain ⟨c', hc', htells'⟩ := ih htells (fun g hg => herror g (List.mem_cons_of_mem _ hg))
      fun g hg => himports g (List.mem_cons_of_mem _ hg)
    rw [List.append_assoc] at htells'
    exact ⟨c', by rw [files, hc₁, pure_bind, hc'], htells'⟩

/-- What the check of a stocked request comes to. -/
theorem check_of_stocked (h : r.Stocked) (find : String → m (Except ImportError Package)) :
    ∃ p errors, check r find = pure (p, errors) ∧
      (Passing errors ↔ InStep (clauseNames r.files) ∧ (declaredNames r.files).Nodup) ∧
      p.scope.Pairwise (· < ·) ∧ ∀ name, name ∈ p.scope ↔ name ∈ declaredNames r.files := by
  have hstart : Draft.Tells { package := { path := r.importPath, name := "" } } [] :=
    ⟨rfl, ⟨rfl, rfl⟩, by simp [Passing, InStep, clauseNames, declaredNames, written]⟩
  obtain ⟨c, hc, htells⟩ := files_of_stocked find hstart h.parsed h.imports
  obtain ⟨hsorted, hmem⟩ := SourceFile.nameSet_spec c.package.scope
  refine ⟨_, _, by rw [check, hc, pure_bind], htells.passing, hsorted, fun name => ?_⟩
  rw [hmem, htells.lists.scope, List.mem_reverse]
  rfl

/-- Of a stocked request the check reports no hard error just if the clauses are in step and no name is declared twice.
If all sources have a clause, or none has, this is that they are concordant, and no order of the files changes it. -/
theorem passing_iff_of_stocked (h : r.Stocked) (find : String → m (Except ImportError Package)) :
    ∃ p errors, check r find = pure (p, errors) ∧
      p.scope.Pairwise (· < ·) ∧ (∀ name, name ∈ p.scope ↔ name ∈ declaredNames r.files) ∧
      (Passing errors ↔ InStep (clauseNames r.files) ∧ (declaredNames r.files).Nodup) ∧
      (AllOrNone r.files → (Passing errors ↔ Concordant r.files) ∧
        ∀ fs, r.files.Perm fs → ∃ p' errors', check { r with files := fs } find = pure (p', errors') ∧
          (Passing errors' ↔ Passing errors)) := by
  obtain ⟨p, errors, hcheck, hpass, hsorted, hscope⟩ := check_of_stocked h find
  have hconcordant : ∀ {fs : List PackageFile}, AllOrNone fs →
      (InStep (clauseNames fs) ∧ (declaredNames fs).Nodup ↔ Concordant fs) := fun hall =>
    ⟨fun ⟨hstep, hnodup⟩ => ⟨(inStep_iff_of_allOrNone hall).mp hstep, hnodup⟩,
      fun hc => ⟨(inStep_iff_of_allOrNone hall).mpr hc.clauses, hc.names⟩⟩
  refine ⟨p, errors, hcheck, hsorted, hscope, hpass, fun hall => ⟨hpass.trans (hconcordant hall), fun fs hperm => ?_⟩⟩
  have hstocked : CheckRequest.Stocked { r with files := fs } :=
    ⟨fun f hf => h.parsed f (hperm.mem_iff.mpr hf), fun f hf => h.imports f (hperm.mem_iff.mpr hf)⟩
  obtain ⟨p', errors', hcheck', hpass', -, -⟩ := check_of_stocked hstocked find
  refine ⟨p', errors', hcheck', hpass'.trans ?_⟩
  rw [hpass]
  exact ((hconcordant (hall.perm hperm)).trans ⟨fun hc => hc.perm hperm.symm, fun hc => hc.perm hperm⟩).trans
    (hconcordant hall).symm

/-- Two sources of a package and an empty one. Both sources declare `A`, and the first imports `fmt`. -/
def twice : CheckRequest where
  importPath := "p"
  dir := "/p"
  files := [⟨"/p/doc.go", { stub := true }⟩,
    ⟨"/p/a.go", { package := "p", imports := [⟨"fmt", none, 2, 7⟩], decls := [⟨"A", 4, 4⟩], uses := ["fmt"] }⟩,
    ⟨"/p/b.go", { package := "p", decls := [⟨"B", 2, 4⟩, ⟨"A", 3, 4⟩] }⟩]
  imports := [("fmt", { path := "fmt", name := "fmt" })]
  config := {}

/-- What finds nothing. -/
def nowhere (path : String) : Id (Except ImportError Package) := .error (.notFound path)

theorem passing_iff_of_stocked_twice :
    twice.Stocked ∧ AllOrNone twice.files ∧ ∃ p errors, check twice nowhere = pure (p, errors) ∧ "B" ∈ p.scope ∧
      ¬Passing errors ∧ ∃ p' errors', check { twice with files := twice.files.reverse } nowhere = pure (p', errors') ∧
        ¬Passing errors' := by
  have hclauses : clauseNames twice.files = ["p", "p"] := rfl
  have hnames : declaredNames twice.files = ["A", "B", "A"] := rfl
  have hall : AllOrNone twice.files := by
    rw [AllOrNone, hclauses]
    decide
  have hstocked : twice.Stocked := by
    refine ⟨by decide, fun f hf spec hspec => .inr ⟨{ path := "fmt", name := "fmt" }, ?_⟩⟩
    have hfmt : spec.path = "fmt" := by
      revert f
      simp [twice]
      grind
    rw [hfmt]
    exact List.mem_singleton.mpr rfl
  obtain ⟨p, errors, hcheck, -, hscope, -, hverdict⟩ := passing_iff_of_stocked hstocked nowhere
  obtain ⟨hconcordant, horder⟩ := hverdict hall
  have hfails : ¬Passing errors := fun hpass => by
    have hnodup := (hconcordant.mp hpass).names
    rw [hnames] at hnodup
    exact absurd hnodup (by decide)
  obtain ⟨p', errors', hcheck', hsame⟩ := horder _ (List.reverse_perm _).symm
  refine ⟨hstocked, hall, p, errors, hcheck, (hscope "B").mpr ?_, hfails, p', errors', hcheck', fun h => hfails (hsame.mp h)⟩
  rw [hnames]
  decide

end Shallow
end EditorAgent.Go

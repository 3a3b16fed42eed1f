import EditorAgent.Proofs.Go.Readers

/-!
# The files that a package tells

A package that was checked tells the paths of all files that were checked, in their order, whatever was found wrong with
them. One that was read from its export data tells none.
-/

namespace EditorAgent.Go

variable {α β : Type} {d : Disk} {i : Importer} {p : PackagePath}

namespace Shallow

/-- What a draft tells of where it comes from: the import path and the files. -/
def Draft.roster (c : Draft) : String × List String := (c.package.path, c.package.files)

namespace Draft

@[simp] theorem roster_report (c : Draft) (path : String) (row col : Nat) (message : String) (soft : Bool) :
    (c.report path row col message soft).roster = c.roster := rfl

@[simp] theorem roster_clause (c : Draft) (f : PackageFile) : (c.clause f).roster = c.roster := by
  unfold clause
  split_ifs <;> rfl

@[simp] theorem roster_declare (path : String) (c : Draft) (decl : Decl) : (c.declare path decl).roster = c.roster := by
  unfold declare
  split <;> rfl

@[simp] theorem roster_foldl_declare (path : String) (c : Draft) (decls : List Decl) :
    (decls.foldl (declare path) c).roster = c.roster := by
  induction decls generalizing c with
  | nil => rfl
  | cons decl decls ih => rw [List.foldl_cons, ih, roster_declare]

@[simp] theorem roster_depend (config : CheckConfig) (f : PackageFile) (c : Draft) (spec : ImportSpec) (dep : Package) :
    (c.depend config f spec dep).roster = c.roster := by
  unfold depend
  extract_lets name checked c₁
  have hunused : c₁.roster = c.roster := by
    unfold c₁
    split <;> rfl
  split
  · exact hunused
  · exact hunused

end Draft

variable {r : CheckRequest} {find : String → Id (Except ImportError Package)}

@[simp] theorem roster_imports (f : PackageFile) (c : Draft) (specs : List ImportSpec) :
    (Id.run (imports r find f c specs)).roster = c.roster := by
  induction specs generalizing c with
  | nil => rfl
  | cons spec specs ih =>
    rw [imports]
    split
    · exact ih c
    · split
      · exact (ih _).trans (by simp)
      · rw [Id.run_bind]
        split
        · exact (ih _).trans (by simp)
        · exact (ih _).trans (by simp)

theorem roster_file (c : Draft) (f : PackageFile) :
    (Id.run (file r find c f)).roster = (c.package.path, c.package.files ++ [f.path]) := by
  cases hf : f.parsed.stub with
  | true =>
    rw [file, if_pos hf]
    rfl
  | false =>
    unfold file
    rw [if_neg (by simp [hf])]
    extract_lets c₁ c₂ c₃
    have hfirst : c₂.roster = (c.package.path, c.package.files ++ [f.path]) := by
      unfold c₂
      split <;> rfl
    rw [roster_imports, Draft.roster_foldl_declare, Draft.roster_clause, hfirst]

theorem roster_files (c : Draft) (fs : List PackageFile) :
    (Id.run (files r find c fs)).roster = (c.package.path, c.package.files ++ fs.map (·.path)) := by
  induction fs generalizing c with
  | nil => simp [files, Draft.roster]
  | cons f fs ih =>
    have hfile := @roster_file r find c f
    rw [Draft.roster, Prod.mk.injEq] at hfile
    rw [files, Id.run_bind, ih, hfile.1, hfile.2]
    simp

/-- A package that was checked tells the paths of the files that were checked. -/
theorem check_path_files : (Id.run (check r find)).1.path = r.importPath ∧
    (Id.run (check r find)).1.files = r.files.map (·.path) := by
  have hroster := @roster_files r find { package := { path := r.importPath, name := "" } } r.files
  rw [Draft.roster, Prod.mk.injEq] at hroster
  rw [check, Id.run_bind]
  exact hroster

end Shallow

/-! ## Packages of an import -/

namespace Importer

variable {files : List PackageFile} {imports : List (String × Package)} {pkg : Package} {s : Session}

theorem path_of_read {importPath path : String} {deps : List Package} (h : Archive.read d importPath path deps = .ok pkg) :
    pkg.path = importPath := by
  unfold Archive.read at h
  dsimp only at h
  split at h
  · cases h
  · cases h
  · split_ifs at h
    split at h
    · cases h
      rfl
    all_goals cases h

theorem roster_of_runChecker (hchecker : i.checker = .shallow) (h : (i.runChecker p files imports s).1 = .ok pkg) :
    pkg.path = p.importPath ∧ pkg.files = files.map (·.path) := by
  let checked := Id.run (Shallow.check (i.request p files imports) fun path => pure (.error (.notFound path)))
  have hcheck : i.checker.check (i.request p files imports) = (.ok checked.1, checked.2) := by rw [hchecker]; rfl
  rw [runChecker_fst, hcheck] at h
  split at h
  · cases h
  · obtain rfl : checked.1 = pkg := Except.ok.inj h
    exact Shallow.check_path_files

/-- What is known of a package that was made of files: it has the import path, and tells the files unless it was read
from an archive. -/
structure Made (d : Disk) (p : PackagePath) (files : List String) (pkg : Package) : Prop where
  path : pkg.path = p.importPath
  files : (∃ archive imports, Archive.read d p.importPath archive imports = .ok pkg) ∨ pkg.files = files

theorem made_of_conclude (hchecker : i.checker = .shallow) (h : (i.conclude d p files imports s).1 = .ok pkg) :
    Made d p (files.map (·.path)) pkg := by
  rcases conclude_cases h with ⟨-, archive, -, hread⟩ | ⟨s', hchecked⟩
  · exact ⟨path_of_read hread, .inl ⟨archive, _, hread⟩⟩
  · obtain ⟨hpath, hfiles⟩ := roster_of_runChecker hchecker hchecked
    exact ⟨hpath, .inr hfiles⟩

end Importer

end EditorAgent.Go

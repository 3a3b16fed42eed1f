import EditorAgent.Go.Check

/-!
# The name of a package that passes the check

A file with a package clause names the package if nothing did before, and is a hard error if its clause says something
else. So the files of a package that passes have one name between them, as far as they have one.
-/

namespace EditorAgent.Go.Shallow

namespace Draft

variable {c c' c'' : Draft} {fs : List PackageFile} {f : PackageFile}

/-- The name stays, and so does what was reported. -/
structure Keeps (c c' : Draft) : Prop where
  name : c'.package.name = c.package.name
  errors : c.errors <+: c'.errors

namespace Keeps

theorem refl (c : Draft) : c.Keeps c := ⟨rfl, List.prefix_refl _⟩

theorem trans (h : c.Keeps c') (h' : c'.Keeps c'') : c.Keeps c'' :=
  ⟨h'.name.trans h.name, h.errors.trans h'.errors⟩

theorem report (c : Draft) (path : String) (row col : Nat) (message : String) (soft : Bool) :
    c.Keeps (c.report path row col message soft) :=
  ⟨rfl, List.prefix_append _ _⟩

theorem declare (path : String) (c : Draft) (d : Decl) : c.Keeps (c.declare path d) := by
  unfold Draft.declare
  split
  · exact ⟨rfl, List.prefix_append _ _⟩
  · exact ⟨rfl, List.prefix_refl _⟩

theorem foldl_declare (path : String) (c : Draft) (ds : List Decl) : c.Keeps (ds.foldl (Draft.declare path) c) := by
  induction ds generalizing c with
  | nil => exact refl c
  | cons d ds ih => exact (declare path c d).trans (ih _)

theorem depend (config : CheckConfig) (f : PackageFile) (c : Draft) (spec : ImportSpec) (dep : Package) :
    c.Keeps (c.depend config f spec dep) := by
  unfold Draft.depend
  extract_lets name checked c₁
  have hunused : c.Keeps c₁ := by
    unfold c₁
    split
    · exact report ..
    · exact refl c
  split
  · exact hunused
  · exact hunused.trans ⟨rfl, List.prefix_refl _⟩

theorem imports (r : CheckRequest) (find : String → Id (Except ImportError Package)) (f : PackageFile) (c : Draft)
    (specs : List ImportSpec) : c.Keeps (Id.run (Shallow.imports r find f c specs)) := by
  induction specs generalizing c with
  | nil => exact refl c
  | cons spec specs ih =>
    rw [Shallow.imports]
    split
    · exact ih c
    · split
      · exact (depend ..).trans (ih _)
      · rw [Id.run_bind]
        split
        · exact (depend ..).trans (ih _)
        · exact (report ..).trans (ih _)

end Keeps

theorem errors_clause (c : Draft) (f : PackageFile) : c.errors <+: (c.clause f).errors := by
  unfold Draft.clause
  split
  · exact List.prefix_refl _
  · split
    · exact List.prefix_append _ _
    · exact List.prefix_refl _

end Draft

variable {r : CheckRequest} {find : String → Id (Except ImportError Package)} {c c' : Draft} {fs : List PackageFile}
  {f : PackageFile} {name : String}

/-- Files go by a name if they have none other, and the name, if any, comes from one of them. -/
structure NamedBy (name : String) (fs : List PackageFile) : Prop where
  given : name = "" ∨ ∃ f ∈ fs, f.parsed.package = name
  agree : ∀ f ∈ fs, f.parsed.stub = false → f.parsed.package = "" ∨ f.parsed.package = name

namespace NamedBy

theorem keep (h : NamedBy c.package.name fs) (hkeeps : c.Keeps c') : NamedBy c'.package.name fs := hkeeps.name ▸ h

/-- A file without a clause of its own changes nothing. -/
theorem concat_of_stub (h : NamedBy name fs) (hf : f.parsed.stub = true) : NamedBy name (fs ++ [f]) where
  given := h.given.imp_right fun ⟨g, hg, hname⟩ => ⟨g, List.mem_append_left _ hg, hname⟩
  agree g hg hstub := by
    rcases List.mem_append.mp hg with hg | hg
    · exact h.agree g hg hstub
    · rw [List.mem_singleton.mp hg, hf] at hstub
      cases hstub

theorem clause (h : NamedBy c.package.name fs) (hsoft : ∀ e ∈ (c.clause f).errors, e.soft = true) :
    NamedBy (c.clause f).package.name (fs ++ [f]) := by
  unfold Draft.clause at hsoft ⊢
  split
  · next hnone =>
    refine ⟨.inr ⟨f, by simp, rfl⟩, fun g hg hstub => ?_⟩
    rcases List.mem_append.mp hg with hg | hg
    · rcases h.agree g hg hstub with hempty | hname
      · exact .inl hempty
      · exact .inl (hname.trans hnone)
    · rw [List.mem_singleton.mp hg]
      exact .inr rfl
  · next hsome =>
    rw [if_neg hsome] at hsoft
    split
    · next hother =>
      -- Another clause is reported, and not as a soft error.
      rw [if_pos hother] at hsoft
      have hhard := hsoft _ (List.mem_append_right _ (List.mem_singleton.mpr rfl))
      cases hhard
    · next hsame =>
      refine ⟨h.given.imp_right fun ⟨g, hg, hname⟩ => ⟨g, List.mem_append_left _ hg, hname⟩, fun g hg hstub => ?_⟩
      rcases List.mem_append.mp hg with hg | hg
      · exact h.agree g hg hstub
      · rw [List.mem_singleton.mp hg]
        exact .inr (by simpa using hsame)

end NamedBy

theorem keeps_file_of_stub (hf : f.parsed.stub = true) : c.Keeps (Id.run (file r find c f)) := by
  rw [file, if_pos hf]
  exact ⟨rfl, List.prefix_refl _⟩

/-- A file is checked by its clause, and then by what keeps the name. -/
theorem exists_clause_of_file (r : CheckRequest) (find : String → Id (Except ImportError Package)) (c : Draft)
    (hf : f.parsed.stub = false) :
    ∃ c₁ : Draft, c.Keeps c₁ ∧ (c₁.clause f).Keeps (Id.run (file r find c f)) := by
  unfold file
  rw [if_neg (by simp [hf])]
  extract_lets c₁ c₂ c₃
  refine ⟨c₂, ?_, (Draft.Keeps.foldl_declare ..).trans (.imports ..)⟩
  unfold c₂
  split
  · exact ⟨rfl, List.prefix_append _ _⟩
  · exact ⟨rfl, List.prefix_refl _⟩

theorem errors_file : c.errors <+: (Id.run (file r find c f)).errors := by
  cases hf : f.parsed.stub with
  | true => exact (keeps_file_of_stub hf).errors
  | false =>
    obtain ⟨c₁, hbefore, hafter⟩ := exists_clause_of_file r find c hf
    exact hbefore.errors.trans ((c₁.errors_clause f).trans hafter.errors)

theorem namedBy_file (h : NamedBy c.package.name fs)
    (hsoft : ∀ e ∈ (Id.run (file r find c f)).errors, e.soft = true) :
    NamedBy (Id.run (file r find c f)).package.name (fs ++ [f]) := by
  cases hf : f.parsed.stub with
  | true => exact (h.concat_of_stub hf).keep (keeps_file_of_stub hf)
  | false =>
    obtain ⟨c₁, hbefore, hafter⟩ := exists_clause_of_file r find c hf
    exact ((h.keep hbefore).clause fun e he => hsoft e (hafter.errors.subset he)).keep hafter

theorem errors_files (more : List PackageFile) : c.errors <+: (Id.run (files r find c more)).errors := by
  induction more generalizing c with
  | nil => exact List.prefix_refl _
  | cons f more ih =>
    rw [files, Id.run_bind]
    exact errors_file.trans ih

theorem namedBy_files {more : List PackageFile} (h : NamedBy c.package.name fs)
    (hsoft : ∀ e ∈ (Id.run (files r find c more)).errors, e.soft = true) :
    NamedBy (Id.run (files r find c more)).package.name (fs ++ more) := by
  induction more generalizing c fs with
  | nil => exact (List.append_nil fs).symm ▸ h
  | cons f more ih =>
    rw [files, Id.run_bind] at hsoft ⊢
    have hfile : NamedBy (Id.run (file r find c f)).package.name (fs ++ [f]) :=
      namedBy_file h fun e he => hsoft e ((errors_files more).subset he)
    have hrest := ih hfile hsoft
    rwa [List.append_assoc] at hrest

/-- The files of a package that passes the check go by its name. -/
theorem namedBy_check (hsoft : ∀ e ∈ (Id.run (check r find)).2, e.soft = true) :
    NamedBy (Id.run (check r find)).1.name r.files := by
  have hstart : NamedBy "" [] := ⟨.inl rfl, by simp⟩
  rw [check, Id.run_bind] at hsoft ⊢
  exact namedBy_files (c := { package := { path := r.importPath, name := "" } }) hstart hsoft

end EditorAgent.Go.Shallow

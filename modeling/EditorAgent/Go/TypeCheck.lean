import EditorAgent.Go.Importer

/-!
# Checking the package of a view

The package in the view's directory is imported when the view is loaded, activated or saved. What went
wrong is kept, and repeated for the same file.
-/

namespace EditorAgent.Go

structure TypeCheck where
  /-- How many dependencies are imported at a time; zero is the default of the process. -/
  workers : Nat := 0
  /-- The file of the last check. -/
  path : String := ""
  issues : List Issue := []
deriving DecidableEq, Repr, Inhabited

namespace TypeCheck

def label : String := "go/types"

/-- The issue of a failed check; without a place of its own it stands at the file. -/
def issueOf (path : String) (e : ImportError) : Issue :=
  { (e.issue?.getD { path, message := e.message }) with label }

/-- Looks at a saved file again. -/
def refresh (d : Disk) (path : String) : StateM Tree Unit := do
  let n ← Vfs.nodeAt path
  modify (Vfs.expire n)
  let _ ← Vfs.stat d n

def importer (env : Env) (view : View) (cancelled : Bool) : Importer :=
  let i := Importer.make (.ofEnv env) { flags := ⟨true, true, true⟩ }
  { i.withView view with sharing := true, cancelled }

/-- Checks the package of a view. -/
def check (d : Disk) (c : TypeCheck) (env : Env) (view : View) (saved cancelled : Bool) :
    StateM Session TypeCheck := do
  let path := view.filename
  if saved then Session.onTree (refresh d path)
  match ← (importer env view cancelled).importFrom d "." view.dir 0 with
  | .ok _ => return { c with path, issues := [] }
  | .error e => return { c with path, issues := [issueOf path e] }

/-- Forgets the last check. -/
def reset (c : TypeCheck) : TypeCheck := { c with path := "", issues := [] }

/-- The issues for a view's file. -/
def issuesFor (c : TypeCheck) (view : View) : List Issue :=
  if Path.same c.path view.filename then c.issues else []

end TypeCheck
end EditorAgent.Go

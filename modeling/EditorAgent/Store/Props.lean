import EditorAgent.Store.State

/-!
# Properties

What an editor sends along with an action: its environment and its view.
-/

namespace EditorAgent

structure Props where
  env : Option Env := none
  view : Option View := none
deriving DecidableEq, Repr, Inhabited

namespace Props

def reader (d : Dialect) : Reader Props :=
  d.record [
    .opt "Env" (d.optional (Env.reader d)) fun x p => { p with env := x },
    .opt "View" (d.optional (View.reader d)) fun x p => { p with view := x }] {}

/-- The state with what was sent. -/
def apply (p : Props) (s : State) : State :=
  { s with env := p.env.getD s.env, view := (p.view.map View.finalize).getD s.view }

end Props
end EditorAgent

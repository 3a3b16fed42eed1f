import EditorAgent.Go.TypeCheck
import EditorAgent.Store.Reducer

/-!
# Built-in reducers

One fills the environment's gaps, one says that the agent is ready, one checks Go packages.
-/

namespace EditorAgent

inductive Builtin where
  /-- Holds the environment that the agent started with. -/
  | envDefaults (base : Env)
  | ready (name : String)
  | typeCheck (c : Go.TypeCheck)
deriving DecidableEq, Repr, Inhabited

namespace Builtin

/-- A variable unless it is missing or empty. -/
def given? (e : Env) (k : String) : Option String := (e.get? k).filter (· != "")

/-- Sets a variable that has no value. -/
def fill (e : Env) (k : String) (v : Option String) : Env :=
  match given? e k, v with
  | none, some v => e.insert k v
  | _, _ => e

/-- An environment whose roots default to those of the start, and whose platform defaults to the host. -/
def fillEnv (base e : Env) : Env :=
  let e := fill e "GOROOT" (given? base "GOROOT")
  let e := fill e "GOPATH" (given? base "GOPATH")
  fill (fill e "GOOS" (some Go.hostOs)) "GOARCH" (some Go.hostArch)

/-- Actions on which a package is checked. -/
def isCheckAction (a : Action) : Bool :=
  a = .signal "ViewSaved" || a = .signal "ViewLoaded" || a = .signal "ViewActivated"

/-- A check breaks off if a stat has no time to expire at. A saved file is looked at first of all, so only other checks
have taken their file by then. -/
def breakOff (c : Go.TypeCheck) (x : Ctx) : ExceptT Fault (StateM (Builtin × Services Builtin)) State := do
  if x.action != .signal "ViewSaved" then
    Hook.onSession (Go.Session.framed "findPkg" (pure ()))
    modify fun (_, s) => (.typeCheck { c with path := x.state.view.filename }, s)
  throw (some "overflow when adding duration to instant")

/-- The part of the package check in a reduction. -/
def reduceCheck (c : Go.TypeCheck) : Hook Builtin State := fun x => do
  if isCheckAction x.action then
    let (_, s) ← get
    let saved := x.action = .signal "ViewSaved"
    if !s.session.expiryFits && (saved || x.state.view.dir != "") then breakOff c x
    else
      let c ← Hook.onSession (c.check x.disk x.state.env x.state.view saved s.cancelled)
      modify fun (_, s) => (.typeCheck c, s)
      return x.state.addIssues (c.issuesFor x.state.view)
  else if x.action = .signal "QueryIssues" then return x.state.addIssues (c.issuesFor x.state.view)
  else return x.state

instance : Reducer Builtin where
  label
    | .envDefaults _ => "EnvDefaults"
    | .ready _ => "Ready"
    | .typeCheck _ => "GoTypeCheck"
  cond x := do
    match (← get).1 with
    | .typeCheck _ => return x.state.view.langIs ["go"]
    | _ => return true
  unmount _ := modify fun (r, s) => match r with
    | .typeCheck c => (.typeCheck c.reset, s)
    | r => (r, s)
  reduce x := do
    match (← get).1 with
    | .envDefaults base => return { x.state with env := fillEnv base x.state.env }
    | .ready name =>
      return if x.action = .started then x.state.addStatus s!"ready {name}" else x.state
    | .typeCheck c => reduceCheck c x

end Builtin
end EditorAgent

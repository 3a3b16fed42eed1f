import EditorAgent.Agent.Builtin
import EditorAgent.Proofs.Store.Lifecycle
import Mathlib

/-!
# The issues of package checks

A reducer that checks packages tells the outcome of a check again when it is asked for the same file. What it adds to a
reduction is read off the reductions before: the file that a check took last and the outcome of the check that ended last,
both since there was another language. A check takes its file before it ends. So one that breaks off has the outcome of an
earlier check told for its own file; if every check ends, what is told again is the outcome of the last one.
-/

namespace EditorAgent

namespace Go.TypeCheck

/-! ## Checks -/

/-- What the check of a view's package says. -/
def verdict (d : Disk) (env : Env) (view : View) (saved cancelled : Bool) : Import := do
  if saved then Session.onTree (refresh d view.filename)
  (importer env view cancelled).importFrom d "." view.dir 0

/-- What is shown of a check: nothing, or what went wrong. -/
def issuesOf (path : String) : Except ImportError Package → List Issue
  | .ok _ => []
  | .error e => [issueOf path e]

theorem check_eq (d : Disk) (c : TypeCheck) (env : Env) (view : View) (saved cancelled : Bool) (s : Session) :
    c.check d env view saved cancelled s =
      let r := verdict d env view saved cancelled s
      ({ c with path := view.filename, issues := issuesOf view.filename r.1 }, r.2) := by
  unfold check verdict
  generalize (importer env view cancelled).importFrom d "." view.dir 0 = act
  cases saved with
  | false =>
    simp only [bind, StateT.bind, Bool.false_eq_true, if_false]
    rcases act s with ⟨_ | _, _⟩ <;> rfl
  | true =>
    simp only [bind, StateT.bind, if_true]
    obtain ⟨⟨⟩, s'⟩ := Session.onTree (refresh d view.filename) s
    dsimp only
    rcases act s' with ⟨_ | _, _⟩ <;> rfl

/-- A view without a directory has no package. -/
theorem verdict_of_no_dir (d : Disk) (env : Env) {view : View} (h : view.dir = "") (cancelled : Bool) (s : Session) :
    verdict d env view false cancelled s = (.error (.io "cannot make an empty path absolute"), s) := by
  rw [verdict, h]
  rfl

theorem issuesFor_self (c : TypeCheck) {view : View} (h : c.path = view.filename) : c.issuesFor view = c.issues := by
  simp [issuesFor, h, Path.same]

/-! ## Rounds -/

/-- A reduction as a package check takes part in it. -/
structure Round where
  action : Action
  view : View
  /-- What the check in this reduction said, if there was one and it ended. -/
  verdict : Option (Except ImportError Package)

namespace Round

def isGo (r : Round) : Bool := r.view.langIs ["go"]

def checks (r : Round) : Bool := Builtin.isCheckAction r.action

/-- What is shown of the check in this reduction. -/
def outcome (r : Round) : List Issue := r.verdict.elim [] (issuesOf r.view.filename)

/-- What is kept after reductions, the last one first: the file that was taken last, and what came of the check that
ended last. -/
def kept : List Round → Option (String × List Issue)
  | [] => none
  | r :: rounds =>
    if !r.isGo then none
    else if !r.checks then kept rounds
    else if r.verdict.isSome then some (r.view.filename, r.outcome)
    else if r.action = .signal "ViewSaved" then kept rounds
    else some (r.view.filename, (kept rounds).elim [] (·.2))

/-- The last check, unless there was another language since. -/
def lastCheck? (rounds : List Round) : Option Round := (rounds.takeWhile isGo).find? checks

/-- What is told again for a file. -/
def replay (kept : Option (String × List Issue)) (file : String) : List Issue :=
  kept.elim [] fun x => if Path.same x.1 file then x.2 else []

/-- The issues of a reduction, given what is kept from those before it. -/
def adds (r : Round) (kept : Option (String × List Issue)) : List Issue :=
  if !r.isGo then []
  else if r.checks then r.outcome
  else if r.action = .signal "QueryIssues" then replay kept r.view.filename
  else []

variable {r : Round} {rounds : List Round}

/-- A check has nothing to show, or one issue under its label. -/
theorem outcome_cases (r : Round) :
    r.outcome = [] ∧ (∀ e, r.verdict ≠ some (.error e)) ∨
      ∃ e i, r.verdict = some (.error e) ∧ r.outcome = [i] ∧ i.label = label := by
  rw [outcome]
  rcases r.verdict with _ | _ | _
  · exact .inl ⟨rfl, by simp⟩
  · exact .inr ⟨_, _, rfl, rfl, rfl⟩
  · exact .inl ⟨rfl, by simp⟩

/-- Nothing is kept while there is another language. -/
theorem kept_eq_none (h : (rounds.head?.any isGo) = false) : kept rounds = none := by
  cases rounds with
  | nil => rfl
  | cons r rounds =>
    rw [List.head?_cons, Option.any_some] at h
    simp [kept, h]

/-- If every check ends, the last one is kept. -/
theorem kept_of_ended (h : ∀ r ∈ rounds.takeWhile isGo, r.checks = true → r.verdict.isSome = true) :
    kept rounds = (lastCheck? rounds).map fun r => (r.view.filename, r.outcome) := by
  induction rounds with
  | nil => rfl
  | cons r rounds ih =>
    rw [kept, lastCheck?]
    cases hgo : r.isGo with
    | false => simp [hgo]
    | true =>
      rw [List.takeWhile_cons_of_pos hgo] at h ⊢
      cases hchecks : r.checks with
      | false => simpa [hchecks, lastCheck?] using ih fun r' hr' => h r' (List.mem_cons_of_mem r hr')
      | true => simp [hchecks, h r List.mem_cons_self hchecks]

end Round

/-- What a package check remembers of reductions. -/
structure Recalls (c : TypeCheck) (rounds : List Round) : Prop where
  path : c.path = (Round.kept rounds).elim "" (·.1)
  issues : c.issues = (Round.kept rounds).elim [] (·.2)

theorem Recalls.replay {c : TypeCheck} {rounds : List Round} (h : c.Recalls rounds) (view : View) :
    c.issuesFor view = Round.replay (Round.kept rounds) view.filename := by
  rw [issuesFor, h.path, h.issues, Round.replay]
  cases Round.kept rounds with
  | none => exact ite_self _
  | some x => rfl

end Go.TypeCheck

open Go (TypeCheck)
open Go.TypeCheck (Round verdict issuesOf)

variable {ρ α : Type}

/-! ## Reductions -/

/-- Whether a check breaks off. -/
def Builtin.breaksOff (x : Ctx) (s : Go.Session) : Bool :=
  !s.expiryFits && (x.action = .signal "ViewSaved" || x.state.view.dir != "")

/-- The round of a check whose turn it is. -/
def Turn.round (t : Turn ρ) : Round where
  action := t.ctx.action
  view := t.ctx.state.view
  verdict :=
    if t.ctx.state.view.langIs ["go"] && Builtin.isCheckAction t.ctx.action &&
        !Builtin.breaksOff t.ctx t.services.session then
      some (verdict t.ctx.disk t.ctx.state.env t.ctx.state.view (t.ctx.action = .signal "ViewSaved")
        t.services.cancelled t.services.session).1
    else none

theorem Turn.isSome_verdict (t : Turn ρ) (hgo : t.round.isGo = true) (hchecks : t.round.checks = true)
    (hfits : t.services.session.expiryFits = true) : t.round.verdict.isSome = true := by
  have hgo : t.ctx.state.view.langIs ["go"] = true := hgo
  have hchecks : Builtin.isCheckAction t.ctx.action = true := hchecks
  simp [Turn.round, hgo, hchecks, Builtin.breaksOff, hfits]

namespace Hook

variable {β : Type}

theorem run_get_bind (f : ρ × Services ρ → ExceptT Fault (StateM (ρ × Services ρ)) α) (x : ρ × Services ρ) :
    (get >>= f).run.run x = (f x).run.run x := rfl

theorem run_onSession_bind (act : StateM Go.Session β) (f : β → ExceptT Fault (StateM (ρ × Services ρ)) α) (r : ρ)
    (s : Services ρ) : (onSession act >>= f).run.run (r, s) =
      (f (act s.session).1).run.run (r, { s with session := (act s.session).2 }) := rfl

end Hook

namespace Builtin

variable {c : TypeCheck} {x : Ctx} {s : Services Builtin}

theorem run_reduceCheck_of_breaksOff (hchecks : isCheckAction x.action = true) (hbreaks : breaksOff x s.session = true) :
    ∃ fault s', (reduceCheck c x).run.run (.typeCheck c, s) = (.error fault,
      .typeCheck (if x.action = .signal "ViewSaved" then c else { c with path := x.state.view.filename }), s') := by
  rw [breaksOff] at hbreaks
  have hrun : (reduceCheck c x).run.run (.typeCheck c, s) = (breakOff c x).run.run (.typeCheck c, s) := by
    unfold reduceCheck
    rw [if_pos hchecks, Hook.run_get_bind]
    dsimp only
    rw [if_pos hbreaks]
  rw [hrun, breakOff]
  by_cases hsaved : x.action = .signal "ViewSaved"
  · exact ⟨_, s, by simp [hsaved]; rfl⟩
  · exact ⟨_, _, by simp [hsaved]; rfl⟩

theorem run_reduceCheck_of_ends (hchecks : isCheckAction x.action = true) (hends : breaksOff x s.session = false) :
    let issues := issuesOf x.state.view.filename (verdict x.disk x.state.env x.state.view
      (x.action = .signal "ViewSaved") s.cancelled s.session).1
    ∃ s', (reduceCheck c x).run.run (.typeCheck c, s) = (.ok (x.state.addIssues issues),
      .typeCheck { c with path := x.state.view.filename, issues }, s') := by
  unfold reduceCheck
  rw [if_pos hchecks, Hook.run_get_bind]
  dsimp only
  rw [if_neg (by rwa [Bool.not_eq_true, ← breaksOff]), Hook.run_onSession_bind, TypeCheck.check_eq]
  dsimp only
  rw [TypeCheck.issuesFor_self _ rfl]
  exact ⟨_, rfl⟩

theorem run_reduceCheck_of_other (hother : isCheckAction x.action = false) :
    (reduceCheck c x).run.run (.typeCheck c, s) = (.ok
      (if x.action = .signal "QueryIssues" then x.state.addIssues (c.issuesFor x.state.view) else x.state),
      .typeCheck c, s) := by
  unfold reduceCheck
  rw [if_neg (by simp [hother])]
  split <;> rfl

end Builtin

namespace Station

variable {β : Type} {place : Nat} {c : TypeCheck}

theorem run_either_inl (f : Hook β α) (g : Hook ρ α) (x : Ctx) (b : β) (s : Services (β ⊕ ρ)) :
    (Hook.either f g x).run.run (.inl b, s) =
      let r := (f x).run.run (b, ⟨s.session, s.cancelled, s.dispatched, []⟩)
      (r.1, .inl r.2.1, ⟨r.2.2.session, r.2.2.cancelled, r.2.2.dispatched, s.added ++ r.2.2.added.map .inl⟩) := rfl

/-- Calling a hook of a built-in reducer that does nothing with the services. -/
theorem exists_call_idle {h : Hook (β ⊕ ρ) α} {f : Hook β α} {g : Hook ρ α} (hh : h = Hook.either f g) {b b' : β} {a : α}
    {s : Station (β ⊕ ρ)} {t : Turn (β ⊕ ρ)} (hs : s.reducer = .inl b)
    (hrun : ∀ s, (f t.ctx).run.run (b, s) = (.ok a, b', s)) (place : Nat) (stage : Stage) :
    ∃ trace, call place stage h s t = (some a, { s with reducer := .inl b' }, { t with trace }) := by
  refine ⟨t.trace ++ [.hook place s.label stage t.ctx.label], ?_⟩
  rw [call, hs, hh, run_either_inl, hrun]
  simp

theorem eq_of_reducer {r : ρ} {s : Station ρ} (hs : s.reducer = r) : { s with reducer := r } = s := hs ▸ rfl

variable [Reducer ρ] {s : Station (Builtin ⊕ ρ)} (hs : s.reducer = .inl (.typeCheck c))

include hs

theorem exists_ensureInit (place : Nat) (t : Turn (Builtin ⊕ ρ)) :
    ∃ trace, ensureInit place s t = ({ s with initialized := true }, { t with trace }) := by
  unfold ensureInit
  split
  · next hinit => exact ⟨t.trace, by rw [← hinit]⟩
  · obtain ⟨trace, hcall⟩ := exists_call_idle (h := Reducer.init) rfl (a := ()) (t := t)
      (s := { s with initialized := true }) hs (fun _ => rfl) place .init
    exact ⟨trace, by rw [hcall, ← hs]⟩

/-- A check is mounted for views in its language, and forgets what it kept when there is another one. -/
theorem exists_settle (place : Nat) (t : Turn (Builtin ⊕ ρ)) :
    ∃ trace, settle place s t = ({ s with
      reducer := .inl (.typeCheck (if t.ctx.state.view.langIs ["go"] || !s.mounted then c else c.reset))
      mounted := t.ctx.state.view.langIs ["go"] }, { t with trace }) := by
  obtain ⟨trace, hcond⟩ := exists_call_idle (h := Reducer.cond) rfl (a := t.ctx.state.view.langIs ["go"]) (t := t) hs
    (fun _ => rfl) place .cond
  unfold settle
  rw [hcond]
  cases hgo : t.ctx.state.view.langIs ["go"] <;> cases hm : s.mounted
  case false.false => exact ⟨trace, by simp⟩
  case true.true => exact ⟨trace, by simp⟩
  case true.false =>
    obtain ⟨trace', hmount⟩ := exists_call_idle (h := Reducer.mount) rfl (a := ()) (t := { t with trace })
      (s := { s with reducer := .inl (.typeCheck c), mounted := true }) rfl (fun _ => rfl) place .mount
    exact ⟨trace', by simp [hmount]⟩
  case false.true =>
    obtain ⟨trace', hunmount⟩ := exists_call_idle (h := Reducer.unmount) rfl (a := ()) (t := { t with trace })
      (s := { s with reducer := .inl (.typeCheck c), mounted := false }) rfl (fun _ => rfl) place .unmount
    exact ⟨trace', by simp [hunmount]⟩

theorem exists_configure (place : Nat) (t : Turn (Builtin ⊕ ρ)) :
    ∃ trace, configure place s t = (s, { t with trace }) := by
  obtain ⟨trace, hcall⟩ := exists_call_idle (h := Reducer.config) rfl (a := none) (t := t) hs (fun _ => rfl) place .config
  unfold configure
  rw [hcall, eq_of_reducer hs]
  exact ⟨trace, rfl⟩

/-- What a check keeps and adds is told by how its last hook ends. -/
theorem reduce_of_run {t : Turn (Builtin ⊕ ρ)} {r : Except Fault State} {c' : TypeCheck} {s' : Services Builtin}
    (hrun : (Builtin.reduceCheck c t.ctx).run.run
      (.typeCheck c, ⟨t.services.session, t.services.cancelled, t.services.dispatched, []⟩) =
        (r, .typeCheck c', s')) (place : Nat) :
    (reduce place s t).1 = { s with reducer := .inl (.typeCheck c') } ∧
      (reduce place s t).2.ctx.state.issues = (r.toOption.getD t.ctx.state).issues := by
  have heither : (Reducer.reduce t.ctx : ExceptT Fault _ State).run.run (.inl (.typeCheck c), t.services) =
      (r, .inl (.typeCheck c'), ⟨s'.session, s'.cancelled, s'.dispatched, t.services.added ++ s'.added.map .inl⟩) := by
    refine (run_either_inl Reducer.reduce Reducer.reduce t.ctx (.typeCheck c) t.services).trans ?_
    have hreduce : (Reducer.reduce t.ctx : ExceptT Fault (StateM (Builtin × Services Builtin)) State).run.run
        (.typeCheck c, ⟨t.services.session, t.services.cancelled, t.services.dispatched, []⟩) = _ := hrun
    rw [hreduce]
  unfold reduce call
  rw [hs, heither]
  cases r with
  | ok state => exact ⟨rfl, rfl⟩
  | error fault =>
    refine ⟨rfl, ?_⟩
    dsimp only [Turn.setState, State.addError]
    split <;> rfl

theorem reduce_typeCheck {rounds : List Round} (hrecalls : c.Recalls rounds) {t : Turn (Builtin ⊕ ρ)}
    (hgo : t.ctx.state.view.langIs ["go"] = true) (place : Nat) :
    ∃ c' : TypeCheck, (reduce place s t).1 = { s with reducer := .inl (.typeCheck c') } ∧
      c'.Recalls (t.round :: rounds) ∧
      (reduce place s t).2.ctx.state.issues = t.ctx.state.issues ++ t.round.adds (Round.kept rounds) := by
  have hisGo : t.round.isGo = true := hgo
  cases hchecks : Builtin.isCheckAction t.ctx.action with
  | false =>
    have hround : t.round.checks = false := hchecks
    obtain ⟨hstation, hissues⟩ := reduce_of_run hs (Builtin.run_reduceCheck_of_other hchecks) place
    refine ⟨c, hstation, ⟨?_, ?_⟩, ?_⟩
    · simpa [Round.kept, hisGo, hround] using hrecalls.path
    · simpa [Round.kept, hisGo, hround] using hrecalls.issues
    · have hadds : t.round.adds (Round.kept rounds) =
          if t.ctx.action = .signal "QueryIssues" then c.issuesFor t.ctx.state.view else [] := by
        simp only [Round.adds, hisGo, hround, hrecalls.replay, Bool.not_true, Bool.false_eq_true, if_false]
        rfl
      rw [hissues, hadds, Except.toOption, Option.getD_some]
      split <;> simp [State.addIssues]
  | true =>
    have hround : t.round.checks = true := hchecks
    cases hbreaks : Builtin.breaksOff t.ctx t.services.session with
    | false =>
      obtain ⟨s', hrun⟩ := Builtin.run_reduceCheck_of_ends (c := c) (x := t.ctx)
        (s := ⟨t.services.session, t.services.cancelled, t.services.dispatched, []⟩) hchecks hbreaks
      obtain ⟨hstation, hissues⟩ := reduce_of_run hs hrun place
      have hverdict : t.round.verdict = some (verdict t.ctx.disk t.ctx.state.env t.ctx.state.view
        (t.ctx.action = .signal "ViewSaved") t.services.cancelled t.services.session).1 := by
        simp [Turn.round, hgo, hchecks, hbreaks]
      refine ⟨_, hstation, ⟨?_, ?_⟩, ?_⟩
      · simp [Round.kept, hisGo, hround, hverdict]
        rfl
      · simp [Round.kept, hisGo, hround, hverdict, Round.outcome]
        rfl
      · rw [hissues]
        simp [Round.adds, hisGo, hround, hverdict, Round.outcome, State.addIssues, Except.toOption]
        rfl
    | true =>
      obtain ⟨fault, s', hrun⟩ := Builtin.run_reduceCheck_of_breaksOff (c := c) (x := t.ctx)
        (s := ⟨t.services.session, t.services.cancelled, t.services.dispatched, []⟩) hchecks hbreaks
      obtain ⟨hstation, hissues⟩ := reduce_of_run hs hrun place
      have hverdict : t.round.verdict = none := by simp [Turn.round, hbreaks]
      refine ⟨_, hstation, ?_, ?_⟩
      · by_cases hsaved : t.ctx.action = .signal "ViewSaved"
        · have hkept : Round.kept (t.round :: rounds) = Round.kept rounds := by
            simp [Round.kept, hisGo, hround, hverdict, show t.round.action = .signal "ViewSaved" from hsaved]
          rw [if_pos hsaved]
          exact ⟨hkept ▸ hrecalls.path, hkept ▸ hrecalls.issues⟩
        · have hkept : Round.kept (t.round :: rounds) =
              some (t.ctx.state.view.filename, (Round.kept rounds).elim [] (·.2)) := by
            simp [Round.kept, hisGo, hround, hverdict, show t.round.action ≠ .signal "ViewSaved" from hsaved]
            rfl
          rw [if_neg hsaved]
          exact ⟨by rw [hkept]; rfl, by rw [hkept]; exact hrecalls.issues⟩
      · rw [hissues]
        simp [Round.adds, hisGo, hround, hverdict, Round.outcome, Except.toOption]

/-- The part of a check in a reduction. -/
theorem step_typeCheck {rounds : List Round} (hrecalls : c.Recalls rounds)
    (hmounted : s.mounted = rounds.head?.any Round.isGo) (place : Nat) (t : Turn (Builtin ⊕ ρ)) :
    ∃ c' : TypeCheck, (step place s t).1.reducer = .inl (.typeCheck c') ∧ (step place s t).1.mounted = t.round.isGo ∧
      c'.Recalls (t.round :: rounds) ∧
      (step place s t).2.ctx.state.issues = t.ctx.state.issues ++ t.round.adds (Round.kept rounds) := by
  obtain ⟨trace₁, hinit⟩ := exists_ensureInit hs place t
  obtain ⟨trace₂, hsettle⟩ := exists_settle (s := { s with initialized := true }) hs place { t with trace := trace₁ }
  unfold step
  rw [hinit]
  dsimp only
  rw [hsettle]
  dsimp only
  cases hgo : t.ctx.state.view.langIs ["go"] with
  | false =>
    have hisGo : t.round.isGo = false := hgo
    have hkept : Round.kept (t.round :: rounds) = none := Round.kept_eq_none hisGo
    refine ⟨_, rfl, hisGo.symm, ?_, by simp [Round.adds, hisGo]⟩
    cases hm : s.mounted with
    | true => exact ⟨by rw [hkept]; rfl, by rw [hkept]; rfl⟩
    | false =>
      -- What was not mounted has kept nothing.
      have hbefore : Round.kept rounds = none := Round.kept_eq_none (hmounted ▸ hm)
      exact ⟨by rw [hkept, ← hbefore]; exact hrecalls.path, by rw [hkept, ← hbefore]; exact hrecalls.issues⟩
  | true =>
    let s₂ : Station (Builtin ⊕ ρ) := { s with reducer := .inl (.typeCheck c), initialized := true, mounted := true }
    obtain ⟨trace₃, hconfigure⟩ := exists_configure (s := s₂) rfl place { t with trace := trace₂ }
    obtain ⟨c', hstation, hrecalls', hissues⟩ := reduce_typeCheck (s := s₂) rfl hrecalls
      (t := { t with trace := trace₃ }) hgo place
    simp only [Bool.true_or, if_true]
    rw [hconfigure]
    exact ⟨c', congrArg Station.reducer hstation, (congrArg Station.mounted hstation).trans hgo.symm, hrecalls', hissues⟩

end Station

/-! ## Runs -/

theorem Station.all_append (f : Nat → Station ρ → Turn ρ → Station ρ × Turn ρ) (place : Nat) (xs ys : List (Station ρ))
    (t : Turn ρ) : all f place (xs ++ ys) t =
      let (xs', t') := all f place xs t
      let (ys', t'') := all f (place + xs.length) ys t'
      (xs' ++ ys', t'') := by
  induction xs generalizing place t with
  | nil => rfl
  | cons x xs ih =>
    simp only [List.cons_append, all, ih, List.length_cons, Nat.add_assoc, Nat.add_comm 1]

namespace Store

section Turns

variable [Reducer ρ] (d : Disk) (s : Store ρ) (action : Action) (cookie : String) (props : Props) {p : Nat}
  {st : Station ρ}

/-- A reduction in which the reducers before a place have taken their part. -/
def reaching (p : Nat) : Turn ρ :=
  (Station.all Station.step 0 ((s.stations ++ s.incoming).take p) (s.opening d action cookie props)).2

theorem reaching_zero : s.reaching d action cookie props 0 = s.opening d action cookie props := rfl

/-- The reducer at a place takes its part in what those before it have left. -/
theorem all_at (h : (s.stations ++ s.incoming)[p]? = some st) :
    s.reaching d action cookie props (p + 1) = (Station.step p st (s.reaching d action cookie props p)).2 ∧
      (s.reduce d action cookie props).stations[p]? = some (Station.step p st (s.reaching d action cookie props p)).1 := by
  obtain ⟨hp, rfl⟩ := List.getElem?_eq_some_iff.mp h
  generalize hss : s.stations ++ s.incoming = ss at hp
  have hlength : (ss.take p).length = p := List.length_take_of_le (Nat.le_of_lt hp)
  constructor
  · rw [reaching, reaching, hss, ← List.take_append_getElem hp, Station.all_append, hlength, Nat.zero_add]
    rfl
  · have hsplit : ss = ss.take p ++ ss[p] :: ss.drop (p + 1) := by
      rw [← List.drop_eq_getElem_cons hp, List.take_append_drop]
    have hstations : (s.reduce d action cookie props).stations =
        (Station.all Station.step 0 ss (s.opening d action cookie props)).1 := by
      rw [reduce_eq_turn, turn, hss]
      rfl
    have hfirst := Station.length_all Station.step 0 (ss.take p) (s.opening d action cookie props)
    rw [hstations, reaching, hss]
    conv_lhs => rw [hsplit, Station.all_append]
    rw [List.getElem?_append_right (by omega), hfirst, hlength, Nat.sub_self, Nat.zero_add]
    rfl

/-- A reduction leaves the state that the last reducer has left. -/
theorem state_reduce : (s.reduce d action cookie props).state =
    (s.reaching d action cookie props (s.stations ++ s.incoming).length).ctx.state := by
  rw [reduce_eq_turn, reaching, List.take_length]
  rfl

end Turns

variable [Reducer ρ] {p : Nat} {rounds : List Round} {s s' : Store (Builtin ⊕ ρ)}

/-- Stores with a package check at a place, and the reductions in which it took part, the last one first. It joined as it
was made. Between reductions more reducers may join, and anything may be done that leaves the pipeline alone. -/
inductive Checked (p : Nat) : List Round → Store (Builtin ⊕ ρ) → Prop where
  | join {s : Store (Builtin ⊕ ρ)} {st : Station (Builtin ⊕ ρ)} {workers : Nat}
      (hst : (s.stations ++ s.incoming)[p]? = some st) (hreducer : st.reducer = .inl (.typeCheck { workers }))
      (hmounted : st.mounted = false) : Checked p [] s
  | aside {rounds : List Round} {s s' : Store (Builtin ⊕ ρ)} (h : Checked p rounds s) (hstations : s'.stations = s.stations)
      (hincoming : s.incoming <+: s'.incoming) : Checked p rounds s'
  | reduce {rounds : List Round} {s : Store (Builtin ⊕ ρ)} (d : Disk) (action : Action) (cookie : String) (props : Props)
      (h : Checked p rounds s) :
      Checked p ((s.reaching d action cookie props p).round :: rounds) (s.reduce d action cookie props)

/-- The check remembers the reductions in which it took part. -/
theorem Checked.recalls (h : Checked p rounds s) : ∃ (st : Station (Builtin ⊕ ρ)) (c : TypeCheck),
    (s.stations ++ s.incoming)[p]? = some st ∧ st.reducer = .inl (.typeCheck c) ∧
      st.mounted = rounds.head?.any Round.isGo ∧ c.Recalls rounds := by
  induction h with
  | join hst hreducer hmounted => exact ⟨_, _, hst, hreducer, hmounted, rfl, rfl⟩
  | @aside rounds s s' _ hstations hincoming ih =>
    obtain ⟨st, c, hst, hrest⟩ := ih
    refine ⟨st, c, ?_, hrest⟩
    obtain ⟨more, hmore⟩ := hincoming
    rw [hstations, ← hmore, ← List.append_assoc]
    exact (List.getElem?_append_left (List.getElem?_eq_some_iff.mp hst).1).trans hst
  | @reduce rounds s d action cookie props _ ih =>
    obtain ⟨st, c, hst, hreducer, hmounted, hrecalls⟩ := ih
    obtain ⟨c', hreducer', hmounted', hrecalls', -⟩ :=
      Station.step_typeCheck hreducer hrecalls hmounted p (s.reaching d action cookie props p)
    have hstations := (all_at d s action cookie props hst).2
    exact ⟨_, c', (List.getElem?_append_left (List.getElem?_eq_some_iff.mp hstations).1).trans hstations, hreducer',
      hmounted', hrecalls'⟩

/-- What a package check adds to a reduction, after any reductions on any disks and among any reducers: what the check in
this reduction shows, or for a query what is kept for the file. A check ends if it can be told when a stat expires, and
shows nothing or one issue under its label. If every check since there was another language has ended, the outcome of the
last one is what is kept. -/
theorem Checked.issues_added (h : Checked p rounds s) (d : Disk) (action : Action) (cookie : String) (props : Props) :
    let before := s.reaching d action cookie props p
    (s.reaching d action cookie props (p + 1)).ctx.state.issues =
        before.ctx.state.issues ++ before.round.adds (Round.kept rounds) ∧
      (before.round.isGo = true → before.round.checks = true → before.services.session.expiryFits = true →
        before.round.verdict.isSome = true) ∧
      (before.round.outcome = [] ∧ (∀ e, before.round.verdict ≠ some (.error e)) ∨
        ∃ e i, before.round.verdict = some (.error e) ∧ before.round.outcome = [i] ∧ i.label = "go/types") ∧
      ((∀ r ∈ rounds.takeWhile Round.isGo, r.checks = true → r.verdict.isSome = true) →
        Round.kept rounds = (Round.lastCheck? rounds).map fun r => (r.view.filename, r.outcome)) := by
  intro before
  obtain ⟨st, c, hst, hreducer, hmounted, hrecalls⟩ := h.recalls
  obtain ⟨c', -, -, -, hissues⟩ := Station.step_typeCheck hreducer hrecalls hmounted p before
  exact ⟨by rw [(all_at d s action cookie props hst).1, hissues], before.isSome_verdict, before.round.outcome_cases,
    Round.kept_of_ended⟩

/-! ### A check that breaks off -/

def loadA : Props := { view := some { name := "a.go" } }

def loadB : Props := { view := some { path := "/b.go" } }

/-- A package check in a store that cannot tell when a stat expires. -/
def unclocked : Store (Builtin ⊕ Empty) :=
  let s := (make {} .never (.make "" false)).use (.inl (.typeCheck {}))
  { s with session.expiryFits := false }

/-- A check failed, and one of another file broke off. -/
def strayed : Store (Builtin ⊕ Empty) :=
  (unclocked.reduce ⟨[]⟩ (.signal "ViewLoaded") "" loadA).reduce ⟨[]⟩ (.signal "ViewLoaded") "" loadB

/-- The issue of the first file is told for the second one. -/
theorem issues_added_strayed : ∃ rounds, Checked 0 rounds strayed ∧
    (strayed.reduce ⟨[]⟩ (.signal "QueryIssues") "" loadB).state.issues =
      [TypeCheck.issueOf "a.go" (.io "cannot make an empty path absolute")] := by
  have hgoA : (View.finalize { name := "a.go" }).langIs ["go"] = true := by cbv
  have hgoB : (View.finalize { path := "/b.go" }).langIs ["go"] = true := by cbv
  have hdirA : (View.finalize { name := "a.go" }).dir = "" := by cbv
  have hdirB : (View.finalize { path := "/b.go" }).dir = "/" := by cbv
  have hloadA : (unclocked.reaching ⟨[]⟩ (.signal "ViewLoaded") "" loadA 0).round =
      ⟨.signal "ViewLoaded", View.finalize { name := "a.go" },
        some (.error (.io "cannot make an empty path absolute"))⟩ := by
    have hverdict := TypeCheck.verdict_of_no_dir ⟨[]⟩ .empty hdirA false
    simp [reaching_zero, Turn.round, opening, unclocked, make, use, loadA, Props.apply, State.resetEphemeral, hgoA,
      Builtin.isCheckAction, Builtin.breaksOff, hdirA, hverdict]
  have hloadB : ∀ s : Store (Builtin ⊕ Empty), s.session.expiryFits = false →
      (s.reaching ⟨[]⟩ (.signal "ViewLoaded") "" loadB 0).round =
        ⟨.signal "ViewLoaded", View.finalize { path := "/b.go" }, none⟩ := fun s hs => by
    simp [reaching_zero, Turn.round, opening, loadB, Props.apply, hs, Builtin.breaksOff, hdirB]
  have hquery : ∀ s : Store (Builtin ⊕ Empty), (s.reaching ⟨[]⟩ (.signal "QueryIssues") "" loadB 0).round =
      ⟨.signal "QueryIssues", View.finalize { path := "/b.go" }, none⟩ ∧
      (s.reaching ⟨[]⟩ (.signal "QueryIssues") "" loadB 0).ctx.state.issues = [] := fun s => by
    simp [reaching_zero, Turn.round, opening, loadB, Props.apply, State.resetEphemeral, Builtin.isCheckAction]
  have h : Checked 0 _ strayed := .reduce ⟨[]⟩ (.signal "ViewLoaded") "" loadB
    (.reduce ⟨[]⟩ (.signal "ViewLoaded") "" loadA (.join (s := unclocked) rfl rfl rfl))
  obtain ⟨hissues, -⟩ := h.issues_added ⟨[]⟩ (.signal "QueryIssues") "" loadB
  rw [hloadA, hloadB _ rfl] at h hissues
  refine ⟨_, h, ?_⟩
  rw [state_reduce, show (strayed.stations ++ strayed.incoming).length = 0 + 1 from rfl, hissues, (hquery strayed).1,
    (hquery strayed).2]
  simp [Round.adds, Round.kept, Round.isGo, Round.checks, Round.outcome, Round.replay, Builtin.isCheckAction, hgoA, hgoB,
    Path.same]
  rfl

end Store

end EditorAgent

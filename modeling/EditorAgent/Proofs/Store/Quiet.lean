import EditorAgent.Agent.Basic

/-!
# Reducers that dispatch nothing

A quiet reducer leaves the queue of its store alone, whether its hooks return or break off. Then a reduction
answers once to each listener, and what it does to the state depends neither on the jobs that wait nor on
what was answered before.
-/

namespace EditorAgent

variable {ρ β α : Type}

/-- A piece of a hook that dispatches nothing, whether it returns or breaks off. -/
def Hook.Still (act : ExceptT Fault (StateM (ρ × Services ρ)) α) : Prop :=
  ∀ r s, (act.run.run (r, s)).2.2.dispatched = s.dispatched

/-- A hook that dispatches nothing. -/
def Hook.Quiet (h : Hook ρ α) : Prop := ∀ c, Hook.Still (h c)

/-- Reducers whose hooks dispatch nothing. -/
class Reducer.Quiet (ρ : Type) [Reducer ρ] : Prop where
  init : (Reducer.init : Hook ρ Unit).Quiet
  cond : (Reducer.cond : Hook ρ Bool).Quiet
  mount : (Reducer.mount : Hook ρ Unit).Quiet
  unmount : (Reducer.unmount : Hook ρ Unit).Quiet
  config : (Reducer.config : Hook ρ (Option EditorConfig)).Quiet
  reduce : (Reducer.reduce : Hook ρ State).Quiet

namespace Hook

variable {act : ExceptT Fault (StateM (ρ × Services ρ)) α}
  {next : α → ExceptT Fault (StateM (ρ × Services ρ)) β}

theorem Still.bind (h : Still act) (hnext : ∀ a, Still (next a)) : Still (act >>= next) := by
  intro r s
  have hact := h r s
  rw [ExceptT.run_bind, StateT.run_bind]
  rcases hrun : act.run.run (r, s) with ⟨_ | a, r', s'⟩ <;> rw [hrun] at hact
  · exact hact
  · exact (hnext a r' s').trans hact

theorem Still.onSession (act : StateM Go.Session α) :
    Still (onSession act : ExceptT Fault (StateM (ρ × Services ρ)) α) :=
  fun _ _ => rfl

theorem Still.throw (f : Fault) : Still (throw f : ExceptT Fault (StateM (ρ × Services ρ)) α) :=
  fun _ _ => rfl

theorem Quiet.pure (a : Ctx → α) : Quiet (fun c => Pure.pure (a c) : Hook ρ α) := fun _ _ _ => rfl

theorem Quiet.either {f : Hook β α} {g : Hook ρ α} (hf : f.Quiet) (hg : g.Quiet) :
    (either f g).Quiet := by
  intro c r s
  cases r with
  | inl b => exact hf c b { s with added := [] }
  | inr r => exact hg c r { s with added := [] }

end Hook

instance [Reducer β] [Reducer ρ] [hβ : Reducer.Quiet β] [hρ : Reducer.Quiet ρ] :
    Reducer.Quiet (β ⊕ ρ) where
  init := .either hβ.init hρ.init
  cond := .either hβ.cond hρ.cond
  mount := .either hβ.mount hρ.mount
  unmount := .either hβ.unmount hρ.unmount
  config := .either hβ.config hρ.config
  reduce := .either hβ.reduce hρ.reduce

instance : Reducer.Quiet Empty where
  init := .pure _
  cond := .pure _
  mount := .pure _
  unmount := .pure _
  config := .pure _
  reduce := .pure _

theorem Builtin.breakOff_still (c : Go.TypeCheck) (x : Ctx) : Hook.Still (breakOff c x) := by
  unfold breakOff
  dsimp only
  split
  · exact (Hook.Still.onSession _).bind fun _ => Hook.Still.bind (fun _ _ => rfl) fun _ => .throw _
  · exact .throw _

theorem Builtin.reduceCheck_quiet (c : Go.TypeCheck) : (reduceCheck c).Quiet := by
  intro x
  have hcheck (saved cancelled : Bool) : Hook.Still (do
      let c ← Hook.onSession (c.check x.disk x.state.env x.state.view saved cancelled)
      modify fun p => (Builtin.typeCheck c, p.2)
      return x.state.addIssues (c.issuesFor x.state.view)) :=
    (Hook.Still.onSession _).bind fun _ => Hook.Still.bind (fun _ _ => rfl) fun _ _ _ => rfl
  unfold reduceCheck
  split
  · refine Hook.Still.bind (fun _ _ => rfl) fun y => ?_
    dsimp only
    split
    · exact breakOff_still c x
    · exact hcheck _ _
  · split <;> exact fun _ _ => rfl

instance : Reducer.Quiet Builtin where
  init := .pure _
  cond := by
    intro x r s
    cases r <;> rfl
  mount := .pure _
  unmount := by
    intro x r s
    cases r <;> rfl
  config := .pure _
  reduce := by
    intro x r s
    cases r with
    | envDefaults base => rfl
    | ready name => rfl
    | typeCheck c => exact Builtin.reduceCheck_quiet c x (.typeCheck c) s

/-! ## Turns -/

/-- What quiet reducers leave as it is while a turn goes from one to the next. -/
structure Turn.Calm (t t' : Turn ρ) : Prop where
  cookie : t'.ctx.cookie = t.ctx.cookie
  dispatched : t'.services.dispatched = t.services.dispatched
  responses : Agent.responses t'.trace = Agent.responses t.trace

namespace Turn.Calm

theorem refl (t : Turn ρ) : t.Calm t := ⟨rfl, rfl, rfl⟩

theorem trans {t u v : Turn ρ} (h : t.Calm u) (h' : u.Calm v) : t.Calm v :=
  ⟨h'.cookie.trans h.cookie, h'.dispatched.trans h.dispatched, h'.responses.trans h.responses⟩

theorem setState (t : Turn ρ) (s : State) : t.Calm (t.setState s) := ⟨rfl, rfl, rfl⟩

end Turn.Calm

namespace Station

theorem call_calm {h : Hook ρ α} (hq : h.Quiet) (place : Nat) (stage : Stage) (s : Station ρ)
    (t : Turn ρ) : t.Calm (call place stage h s t).2.2 := by
  have hd := hq t.ctx s.reducer t.services
  unfold call
  rcases hrun : (h t.ctx).run.run (s.reducer, t.services) with ⟨_ | a, r, services⟩ <;>
    rw [hrun] at hd
  · exact ⟨rfl, hd, by simp [Agent.responses, Turn.setState]⟩
  · exact ⟨rfl, hd, by simp [Agent.responses]⟩

variable [Reducer ρ] [hq : Reducer.Quiet ρ]

theorem ensureInit_calm (place : Nat) (s : Station ρ) (t : Turn ρ) :
    t.Calm (ensureInit place s t).2 := by
  unfold ensureInit
  split
  · exact .refl t
  · exact call_calm hq.init ..

theorem settle_calm (place : Nat) (s : Station ρ) (t : Turn ρ) : t.Calm (settle place s t).2 := by
  have hc := call_calm hq.cond place .cond s t
  unfold settle
  dsimp only
  split
  · exact hc.trans (call_calm hq.mount ..)
  · exact hc.trans (call_calm hq.unmount ..)
  · exact hc

theorem configure_calm (place : Nat) (s : Station ρ) (t : Turn ρ) :
    t.Calm (configure place s t).2 := by
  have hc := call_calm hq.config place .config s t
  unfold configure
  split <;> rename_i heq <;> rw [heq] at hc
  · exact hc.trans (.setState _ _)
  · exact hc

theorem reduce_calm (place : Nat) (s : Station ρ) (t : Turn ρ) : t.Calm (reduce place s t).2 := by
  have hc := call_calm hq.reduce place .reduce s t
  unfold reduce
  split <;> rename_i heq <;> rw [heq] at hc
  · exact hc.trans (.setState _ _)
  · exact hc

theorem step_calm (place : Nat) (s : Station ρ) (t : Turn ρ) : t.Calm (step place s t).2 := by
  have h := (ensureInit_calm place s t).trans (settle_calm place (ensureInit place s t).1 _)
  unfold step
  dsimp only
  split
  · exact h.trans ((configure_calm place ..).trans (reduce_calm place ..))
  · exact h

theorem dismount_calm (place : Nat) (s : Station ρ) (t : Turn ρ) :
    t.Calm (dismount place s t).2 := by
  unfold dismount
  split
  · exact call_calm hq.unmount ..
  · exact .refl t

omit [Reducer ρ] hq in
theorem all_calm {f : Nat → Station ρ → Turn ρ → Station ρ × Turn ρ}
    (hf : ∀ place s t, Turn.Calm t (f place s t).2) (place : Nat) (ss : List (Station ρ)) (t : Turn ρ) :
    t.Calm (all f place ss t).2 := by
  induction ss generalizing place t with
  | nil => exact .refl t
  | cons s ss ih => exact (hf place s t).trans (ih (place + 1) _)

end Station

/-! ## Stores -/

namespace Store

/-- A store with other jobs waiting. -/
def holding (s : Store ρ) (queue : List Job) : Store ρ := { s with queue }

@[simp] theorem queue_holding (s : Store ρ) (js : List Job) : (s.holding js).queue = js := rfl

theorem foldl_send {s : Store ρ} (hs : s.stopped = false) (js : List Job) :
    js.foldl send s = s.holding (s.queue ++ js) := by
  induction js generalizing s with
  | nil => simp [holding]
  | cons j js ih =>
    have hsend : s.send j = s.holding (s.queue ++ [j]) := by simp [send, hs, holding]
    have hrest := @ih (s.holding (s.queue ++ [j])) hs
    rw [List.foldl_cons, hsend, hrest]
    simp [holding]

/-- Stores that differ only in the jobs that wait and in what was done so far. -/
def Alike (s s' : Store ρ) : Prop := s' = { s with queue := s'.queue, trace := s'.trace }

theorem Alike.refl (s : Store ρ) : Alike s s := rfl

theorem Alike.holding {s s' : Store ρ} (h : Alike s s') (js : List Job) :
    Alike s (s'.holding js) := by
  rw [Alike, h]
  rfl

theorem Alike.listeners_eq {s s' : Store ρ} (h : Alike s s') : s'.listeners = s.listeners := by
  rw [h]

theorem Alike.state_eq {s s' : Store ρ} (h : Alike s s') : s'.state = s.state := by rw [h]

theorem Alike.started_eq {s s' : Store ρ} (h : Alike s s') : s'.started = s.started := by rw [h]

theorem Alike.stopped_eq {s s' : Store ρ} (h : Alike s s') : s'.stopped = s.stopped := by rw [h]

variable [Reducer ρ]

theorem run_holding (d : Disk) {s : Store ρ} (hstarted : s.started = true)
    (hstopped : s.stopped = false) (j : Job) (js : List Job) (n : Nat) :
    (s.holding (j :: js)).run d (n + 1) = ((s.holding js).perform d j).run d n := by
  simp [run, next?, holding, hstarted, hstopped]

theorem foldl_use (rs : List ρ) (s : Store ρ) :
    rs.foldl use s = { s with incoming := s.incoming ++ rs.map fun r =>
      { reducer := r, label := Reducer.label r } } := by
  induction rs generalizing s with
  | nil => simp
  | cons r rs ih => simp [ih, use]

omit [Reducer ρ] in
theorem foldl_dispatch (as : List Action) (s : Store ρ) : as.foldl dispatch s =
    s.holding (if s.stopped then s.queue else s.queue ++ as.map fun a => .reduce a "" {}) := by
  cases hs : s.stopped with
  | true =>
    induction as with
    | nil => rfl
    | cons a as ih =>
      have hsend : s.dispatch a = s := by rw [dispatch, send, hs]; rfl
      rw [List.foldl_cons, hsend, ih]
      rfl
  | false =>
    have hmap : as.foldl dispatch s = (as.map fun a => Job.reduce a "" {}).foldl send s := by
      rw [List.foldl_map]
      rfl
    rw [hmap, foldl_send hs]
    rfl

theorem settle_eq (s : Store ρ) (t : Turn ρ) : s.settle t = { s with
    session := t.services.session
    trace := s.trace ++ t.trace
    queue := if s.stopped then s.queue else s.queue ++ t.services.dispatched.map fun a => .reduce a "" {}
    incoming := s.incoming ++ t.services.added.map fun r => { reducer := r, label := Reducer.label r } } := by
  rw [settle, foldl_dispatch, foldl_use]
  rfl

/-- What the pipeline makes of an action. -/
def turn (d : Disk) (s : Store ρ) (action : Action) (cookie : String) (props : Props) :
    List (Station ρ) × Turn ρ :=
  Station.all Station.step 0 (s.stations ++ s.incoming)
    { ctx := ⟨d, props.apply s.state.resetEphemeral, action, cookie⟩
      services :=
        { session := { s.session with profile := s.session.profile.push action.name }
          cancelled := s.cancelled } }

/-- A reduction stores what the pipeline made of the state, queues what was dispatched and tells each listener once. -/
theorem reduce_eq_turn (d : Disk) (s : Store ρ) (action : Action) (cookie : String) (props : Props) :
    let t := (s.turn d action cookie props).2
    s.reduce d action cookie props = { s with
      state := t.ctx.state
      stations := (s.turn d action cookie props).1
      incoming := t.services.added.map fun r => { reducer := r, label := Reducer.label r }
      session := { t.services.session with profile := (t.services.session.profile.pop 0).1 }
      queue := if s.stopped then s.queue else s.queue ++ t.services.dispatched.map fun a => .reduce a "" {}
      trace := s.trace ++ t.trace ++
        s.listeners.map fun l => .broadcast l t.ctx.label t.ctx.cookie t.ctx.state } := by
  rw [reduce]
  dsimp only
  rw [settle_eq]
  rfl

section Reduction

variable [hq : Reducer.Quiet ρ] (d : Disk) (s : Store ρ) (action : Action) (cookie : String)
  (props : Props)

theorem turn_calm : (s.turn d action cookie props).2.ctx.cookie = cookie ∧
    (s.turn d action cookie props).2.services.dispatched = [] ∧
    Agent.responses (s.turn d action cookie props).2.trace = [] :=
  have h := Station.all_calm Station.step_calm 0 (s.stations ++ s.incoming)
    { ctx := ⟨d, props.apply s.state.resetEphemeral, action, cookie⟩
      services :=
        { session := { s.session with profile := s.session.profile.push action.name }
          cancelled := s.cancelled } }
  ⟨h.cookie, h.dispatched, h.responses⟩

/-- A reduction by quiet reducers queues nothing and tells each listener once. -/
theorem reduce_eq :
    let t := (s.turn d action cookie props).2
    s.reduce d action cookie props = { s with
      state := t.ctx.state
      stations := (s.turn d action cookie props).1
      incoming := t.services.added.map fun r => { reducer := r, label := Reducer.label r }
      session := { t.services.session with profile := (t.services.session.profile.pop 0).1 }
      trace := s.trace ++ t.trace ++
        s.listeners.map fun l => .broadcast l t.ctx.label t.ctx.cookie t.ctx.state } := by
  rw [reduce_eq_turn, (turn_calm d s action cookie props).2.1]
  simp

theorem responses_reduce :
    Agent.responses (s.reduce d action cookie props).trace = Agent.responses s.trace ++
      s.listeners.map fun _ =>
        let state := (s.reduce d action cookie props).state
        ⟨cookie, state.joinedErrors, state.toValue⟩ := by
  obtain ⟨hcookie, -, htrace⟩ := turn_calm d s action cookie props
  rw [reduce_eq]
  unfold Agent.responses at htrace ⊢
  simp [List.filterMap_append, htrace, hcookie, Function.comp_def]

@[simp] theorem queue_reduce : (s.reduce d action cookie props).queue = s.queue := by rw [reduce_eq]

@[simp] theorem listeners_reduce : (s.reduce d action cookie props).listeners = s.listeners := by
  rw [reduce_eq]

@[simp] theorem started_reduce : (s.reduce d action cookie props).started = s.started := by
  rw [reduce_eq]

@[simp] theorem stopped_reduce : (s.reduce d action cookie props).stopped = s.stopped := by
  rw [reduce_eq]

end Reduction

theorem Alike.reduce [Reducer.Quiet ρ] {s s' : Store ρ} (h : Alike s s') (d : Disk)
    (action : Action) (cookie : String) (props : Props) :
    Alike (s.reduce d action cookie props) (s'.reduce d action cookie props) := by
  rw [Alike, reduce_eq, reduce_eq, h]
  rfl

theorem responses_unmountAll [hq : Reducer.Quiet ρ] (d : Disk) (s : Store ρ) :
    Agent.responses (s.unmountAll d).trace = Agent.responses s.trace := by
  have h := Station.all_calm Station.dismount_calm 0 s.stations
    { ctx := ⟨d, s.state, .unmount, ""⟩
      services := { session := s.session, cancelled := s.cancelled } }
  unfold unmountAll
  dsimp only
  rw [settle_eq]
  have htrace := h.responses
  unfold Agent.responses at htrace ⊢
  simp [List.filterMap_append, htrace]

end Store
end EditorAgent

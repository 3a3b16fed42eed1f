import EditorAgent.Proofs.Store.Lifecycle
import Mathlib.Data.List.Basic
import Mathlib.Data.List.Pairwise

/-!
# Jobs are done in the order in which they came

Anyone may queue jobs, come to listen or leave while a store works, and reducers dispatch actions of their own. Such
deeds, in whatever order, make a chronicle: which jobs entered the queue, and what was done. `Fifo` says how
the one goes with the other. Whom a new state is told to is settled before the first listener is told, so what
listeners do comes after the job.
-/

namespace EditorAgent

open HookCall

variable {ρ : Type}

/-- Where an element of a list stands that ends with another. -/
theorem snoc_eq_append_cons {α : Type} {as before after : List α} {a b : α} (h : as ++ [a] = before ++ b :: after) :
    (as = before ∧ a = b ∧ after = []) ∨ ∃ after', as = before ++ b :: after' ∧ after = after' ++ [a] := by
  rcases after.eq_nil_or_concat with rfl | ⟨after, y, rfl⟩
  · obtain ⟨rfl, hlast⟩ := List.append_inj' h rfl
    exact .inl ⟨rfl, List.singleton_inj.mp hlast, rfl⟩
  · rw [List.concat_eq_append, ← List.cons_append, ← List.append_assoc] at h
    obtain ⟨rfl, hlast⟩ := List.append_inj' h rfl
    obtain rfl : a = y := List.singleton_inj.mp hlast
    exact .inr ⟨after, rfl, List.concat_eq_append ..⟩

/-! ## Deeds -/

/-- What is done with a store, by others and by itself. -/
inductive Deed (ρ : Type) where
  /-- A job is queued: an action is dispatched, an answer is asked for, or the store is to shut down. -/
  | send (j : Job)
  | subscribe
  | unsubscribe (listener : Nat)
  | use (r : ρ)
  | start
  | cancel
  /-- Someone else who shares the session leaves it in another state. -/
  | share (session : Go.Session)
  /-- The store does its next job, with the disk as it is then. -/
  | work (d : Disk)

namespace Deed

def isSubscribe : Deed ρ → Bool
  | .subscribe => true
  | _ => false

/-- The number that the next listener gets. -/
def nextListener (ds : List (Deed ρ)) : Nat := ds.countP isSubscribe + 1

/-- A listener that came and has not left. -/
def Subscribed (ds : List (Deed ρ)) (l : Nat) : Prop :=
  ∃ before after, ds = before ++ .subscribe :: after ∧ l = nextListener before ∧ .unsubscribe l ∉ after

variable {ds : List (Deed ρ)} {x : Deed ρ} {l : Nat}

theorem nextListener_snoc : nextListener (ds ++ [x]) = nextListener ds + if x.isSubscribe then 1 else 0 := by
  rw [nextListener, nextListener, List.countP_append, List.countP_singleton]
  omega

theorem Subscribed.lt (h : Subscribed ds l) : l < nextListener ds := by
  obtain ⟨before, after, rfl, rfl, -⟩ := h
  simp [nextListener, List.countP_append, List.countP_cons, isSubscribe]

theorem subscribed_snoc_iff : Subscribed (ds ++ [x]) l ↔
    (Subscribed ds l ∧ x ≠ .unsubscribe l) ∨ (x = .subscribe ∧ l = nextListener ds) := by
  constructor
  · rintro ⟨before, after, h, rfl, hnot⟩
    rcases snoc_eq_append_cons h with ⟨rfl, rfl, -⟩ | ⟨after, rfl, rfl⟩
    · exact .inr ⟨rfl, rfl⟩
    · rw [List.mem_append, not_or] at hnot
      exact .inl ⟨⟨before, after, rfl, rfl, hnot.1⟩, fun hx => hnot.2 (hx ▸ List.mem_singleton_self _)⟩
  · rintro (⟨⟨before, after, rfl, rfl, hnot⟩, hx⟩ | ⟨rfl, rfl⟩)
    · refine ⟨before, after ++ [x], by simp, rfl, ?_⟩
      simpa [hnot] using fun h => hx h.symm
    · exact ⟨ds, [], rfl, rfl, by simp⟩

end Deed

namespace Store

variable [Reducer ρ]

def deed (s : Store ρ) : Deed ρ → Store ρ
  | .send j => s.send j
  | .subscribe => s.subscribe.2
  | .unsubscribe l => s.unsubscribe l
  | .use r => s.use r
  | .start => s.start.toOption.getD s
  | .cancel => s.cancel
  | .share session => { s with session }
  | .work d => (s.next? d).getD s

end Store

/-! ## What a job does -/

namespace Job

def isReduction : Job → Bool
  | .reduce .. => true
  | _ => false

def isUnmount : Job → Bool
  | .unmount => true
  | _ => false

end Job

/-- A job that was done. -/
structure Done (ρ : Type) where
  /-- How many deeds came before. -/
  time : Nat
  disk : Disk
  job : Job
  /-- The store before the job. -/
  store : Store ρ

namespace Done

variable [Reducer ρ]

/-- The store after the job. -/
def after (e : Done ρ) : Store ρ := e.store.perform e.disk e.job

/-- The pipeline as the last job goes through it. -/
def closing (e : Done ρ) : List (Station ρ) × Turn ρ :=
  Station.all Station.dismount 0 e.store.stations
    { ctx := ⟨e.disk, e.store.state, .unmount, ""⟩
      services := { session := e.store.session, cancelled := e.store.cancelled } }

/-- The hooks that were called. -/
def calls (e : Done ρ) : List HookCall :=
  match e.job with
  | .reduce action cookie props => e.store.reduceCalls e.disk action cookie props
  | .reply .. => []
  | .unmount => e.store.unmountCalls e.disk

/-- The jobs that its hooks queued. -/
def arrivals (e : Done ρ) : List Job :=
  let actions := match e.job with
    | .reduce action cookie props => (e.store.turn e.disk action cookie props).2.services.dispatched
    | .reply .. => []
    | .unmount => e.closing.2.services.dispatched
  actions.map fun a => .reduce a "" {}

/-- What comes of a job: the calls of its hooks, and then what is told to whom. -/
def events (e : Done ρ) : List Event :=
  e.calls.map event ++ match e.job with
  | .reduce action cookie _ => e.store.listeners.map fun l =>
      .broadcast l s!"{action.name}#{cookie}" cookie e.after.state
  | .reply cookie error => [.reply cookie error e.store.state]
  | .unmount => []

theorem relay_reduce (e : Done ρ) {action : Action} {cookie : String} {props : Props}
    (h : e.job = .reduce action cookie props) :
    Relay ⟨e.disk, props.apply e.store.state.resetEphemeral, action, cookie⟩ e.calls
      ⟨e.disk, e.after.state, action, cookie⟩ := by
  obtain ⟨time, d, j, s⟩ := e
  obtain rfl : j = _ := h
  obtain ⟨hrelay, -⟩ := Station.relay_all Station.makes_step 0 (s.stations ++ s.incoming)
    (s.opening d action cookie props)
  have hsame := (Station.sameAction_all Station.makes_step 0 (s.stations ++ s.incoming)
    (s.opening d action cookie props)).eq_mk
  exact hsame ▸ hrelay

/-- What a job leaves as it was, and what it does to the rest. -/
structure Leaves (e : Done ρ) : Prop where
  listeners : e.after.listeners = e.store.listeners
  nextListener : e.after.nextListener = e.store.nextListener
  state : e.job.isReduction = false → e.after.state = e.store.state
  trace : e.after.trace = e.store.trace ++ e.events
  stopped : e.after.stopped = e.job.isUnmount
  queue : e.job.isUnmount = false → e.after.queue = e.store.queue ++ e.arrivals

theorem leaves (e : Done ρ) (hrunning : e.store.stopped = false) : e.Leaves := by
  obtain ⟨time, d, j, s⟩ := e
  replace hrunning : s.stopped = false := hrunning
  cases j with
  | reply cookie error => exact ⟨rfl, rfl, fun _ => rfl, rfl, hrunning, fun _ => (List.append_nil _).symm⟩
  | reduce action cookie props =>
    let e : Done ρ := ⟨time, d, .reduce action cookie props, s⟩
    obtain ⟨-, htrace⟩ := Station.relay_all Station.makes_step 0 (s.stations ++ s.incoming)
      (s.opening d action cookie props)
    obtain ⟨-, haction, hcookie⟩ := Station.sameAction_all Station.makes_step 0 (s.stations ++ s.incoming)
      (s.opening d action cookie props)
    have htrace : (s.turn d action cookie props).2.trace = e.calls.map event := htrace
    have haction : (s.turn d action cookie props).2.ctx.action = action := haction
    have hcookie : (s.turn d action cookie props).2.ctx.cookie = cookie := hcookie
    have hafter : e.after = _ := s.reduce_eq_turn d action cookie props
    refine ⟨by rw [hafter], by rw [hafter], (fun h => by cases h), ?_, by rw [hafter]; exact hrunning, fun _ => ?_⟩
    · have hstate : e.after.state = (s.turn d action cookie props).2.ctx.state := by rw [hafter]
      have hevents : e.events = e.calls.map event ++ s.listeners.map fun l =>
        .broadcast l s!"{action.name}#{cookie}" cookie e.after.state := rfl
      show e.after.trace = s.trace ++ e.events
      rw [hevents, hstate, hafter, htrace, Ctx.label, haction, hcookie, List.append_assoc]
    · rw [hafter, hrunning]
      rfl
  | unmount =>
    let e : Done ρ := ⟨time, d, .unmount, s⟩
    obtain ⟨-, htrace⟩ := Station.relay_all Station.makes_dismount 0 s.stations
      { ctx := ⟨d, s.state, .unmount, ""⟩, services := { session := s.session, cancelled := s.cancelled } }
    have hafter : e.after = { ({ s with stations := e.closing.1 } : Store ρ).settle e.closing.2 with
      stopped := true, queue := [] } := rfl
    have htrace : e.closing.2.trace = e.calls.map event := htrace
    rw [Store.settle_eq] at hafter
    refine ⟨by rw [hafter], by rw [hafter], fun _ => by rw [hafter], ?_, by rw [hafter]; rfl, fun h => by cases h⟩
    show e.after.trace = s.trace ++ (e.calls.map event ++ [])
    rw [hafter, htrace, List.append_nil]

end Done

/-! ## Chronicles -/

/-- A store with what happened to it. -/
structure Chronicle (ρ : Type) where
  store : Store ρ
  /-- How many deeds there were. -/
  time : Nat := 0
  /-- The jobs that entered the queue. -/
  entered : List Job := []
  /-- The jobs that were done. -/
  log : List (Done ρ) := []

namespace Store

/-- The next job of a store that is running. -/
def due? (time : Nat) (d : Disk) (s : Store ρ) : Option (Done ρ) :=
  if s.started && !s.stopped then
    match s.queue with
    | [] => none
    | j :: queue => some ⟨time, d, j, { s with queue }⟩
  else none

/-- The job that is done by a deed. -/
def doing (time : Nat) (s : Store ρ) : Deed ρ → Option (Done ρ)
  | .work d => s.due? time d
  | _ => none

variable [Reducer ρ]

/-- The jobs that enter the queue with a deed. -/
def arriving (time : Nat) (s : Store ρ) : Deed ρ → List Job
  | .send j => if s.stopped then [] else [j]
  | .work d => ((s.due? time d).map Done.arrivals).getD []
  | _ => []

end Store

namespace Chronicle

variable [Reducer ρ]

def next (c : Chronicle ρ) (x : Deed ρ) : Chronicle ρ where
  store := c.store.deed x
  time := c.time + 1
  entered := c.entered ++ c.store.arriving c.time x
  log := c.log ++ (c.store.doing c.time x).toList

end Chronicle

namespace Store

variable {s : Store ρ} {time : Nat} {d : Disk} {e : Done ρ}

theorem due?_eq_some (h : s.due? time d = some e) :
    e.time = time ∧ e.disk = d ∧ e.store.stopped = false ∧ s = e.store.holding (e.job :: e.store.queue) := by
  unfold due? at h
  split at h
  · rename_i hrunning
    split at h
    · cases h
    · rename_i j queue hqueue
      cases h
      have hstopped : s.stopped = false := by simpa using (Bool.and_eq_true_iff.mp hrunning).2
      exact ⟨rfl, rfl, hstopped, by rw [holding]; dsimp only; rw [← hqueue]⟩
  · cases h

/-- A store that is about to do a job has not stopped, and the job is the first that waits. -/
theorem ready_of_eq_holding {s' : Store ρ} {j : Job} (hs : s'.stopped = false) (h : s = s'.holding (j :: s'.queue)) :
    s.stopped = false ∧ s.queue = j :: s'.queue := by
  rw [h]
  exact ⟨hs, rfl⟩

variable [Reducer ρ]

theorem next?_eq_due? (time : Nat) (d : Disk) (s : Store ρ) : s.next? d = (s.due? time d).map Done.after := by
  unfold next? due?
  split
  · cases s.queue <;> rfl
  · rfl

/-- A deed that is not the store's own leaves alone what was done, and queues behind what waits. -/
structure Aside (s : Store ρ) (arrived : List Job) (s' : Store ρ) : Prop where
  state : s'.state = s.state
  trace : s'.trace = s.trace
  stopped : s'.stopped = s.stopped
  queue : s.stopped = false → s'.queue = s.queue ++ arrived

omit [Reducer ρ] in
theorem Aside.refl (s : Store ρ) : Aside s [] s := ⟨rfl, rfl, rfl, fun _ => (List.append_nil _).symm⟩

theorem aside_of_doing_eq_none {x : Deed ρ} (h : s.doing time x = none) :
    Aside s (s.arriving time x) (s.deed x) := by
  cases x with
  | send j =>
    show Aside s (if s.stopped then [] else [j]) (if s.stopped then s else { s with queue := s.queue ++ [j] })
    split
    · rename_i hs
      exact ⟨rfl, rfl, rfl, fun h => absurd (hs.symm.trans h) (by decide)⟩
    · exact ⟨rfl, rfl, rfl, fun _ => rfl⟩
  | subscribe | unsubscribe | use | cancel | share => exact ⟨rfl, rfl, rfl, fun _ => (List.append_nil _).symm⟩
  | start =>
    rw [deed, start]
    split
    · exact .refl s
    · exact ⟨rfl, rfl, rfl, fun _ => (List.append_nil _).symm⟩
  | work d =>
    have hdue : s.due? time d = none := h
    rw [deed, next?_eq_due? time, arriving, hdue]
    exact .refl s

end Store

namespace Chronicle

variable [Reducer ρ]

/-- A deed is the next job of the store, or it leaves alone what was done. -/
theorem next_cases (c : Chronicle ρ) (x : Deed ρ) :
    (∃ e : Done ρ, x = .work e.disk ∧ e.time = c.time ∧ e.store.stopped = false ∧
      c.store = e.store.holding (e.job :: e.store.queue) ∧
      c.next x = ⟨e.after, c.time + 1, c.entered ++ e.arrivals, c.log ++ [e]⟩) ∨
    (c.store.doing c.time x = none ∧
      c.next x = ⟨c.store.deed x, c.time + 1, c.entered ++ c.store.arriving c.time x, c.log⟩) := by
  cases hdoing : c.store.doing c.time x with
  | none =>
    right
    rw [next, hdoing]
    exact ⟨rfl, congrArg _ (List.append_nil _)⟩
  | some e =>
    left
    cases x with
    | work d =>
      have hdue : c.store.due? c.time d = some e := hdoing
      obtain ⟨htime, hdisk, hstopped, hstore⟩ := Store.due?_eq_some hdue
      refine ⟨e, by rw [hdisk], htime, hstopped, hstore, ?_⟩
      rw [next, hdoing, Store.arriving, Store.deed, Store.next?_eq_due? c.time, hdue]
      rfl
    | _ => cases hdoing

end Chronicle

/-! ## Listeners -/

/-- A store knows its listeners, in the order in which they came. -/
structure Listening (ds : List (Deed ρ)) (s : Store ρ) : Prop where
  next : s.nextListener = Deed.nextListener ds
  mem (l : Nat) : l ∈ s.listeners ↔ Deed.Subscribed ds l
  sorted : s.listeners.Pairwise (· < ·)

namespace Listening

variable {ds : List (Deed ρ)} {x : Deed ρ} {s s' : Store ρ}

theorem make (first : State) (expiry : Expiry) (profile : Profile) :
    Listening [] (Store.make first expiry profile : Store ρ) :=
  ⟨rfl, fun l => by simp [Store.make, Deed.Subscribed], .nil⟩

theorem aside (h : Listening ds s) (hsub : x.isSubscribe = false) (hunsub : ∀ l, x ≠ .unsubscribe l)
    (hnext : s'.nextListener = s.nextListener) (hlisteners : s'.listeners = s.listeners) :
    Listening (ds ++ [x]) s' where
  next := by simp [Deed.nextListener_snoc, hsub, hnext, h.next]
  mem l := by
    have hx : x ≠ .subscribe := by
      rintro rfl
      cases hsub
    rw [hlisteners, h.mem, Deed.subscribed_snoc_iff]
    simp [hunsub l, hx]
  sorted := hlisteners ▸ h.sorted

theorem subscribe (h : Listening ds s) : Listening (ds ++ [.subscribe]) s.subscribe.2 where
  next := by simp [Deed.nextListener_snoc, Deed.isSubscribe, Store.subscribe, h.next]
  mem l := by
    rw [Deed.subscribed_snoc_iff, ← h.mem, ← h.next]
    simp [Store.subscribe]
  sorted := by
    refine List.pairwise_append.mpr ⟨h.sorted, List.pairwise_singleton _ _, fun l hl k hk => ?_⟩
    rw [List.mem_singleton.mp hk, h.next]
    exact ((h.mem l).mp hl).lt

theorem unsubscribe (h : Listening ds s) (l : Nat) : Listening (ds ++ [.unsubscribe l]) (s.unsubscribe l) where
  next := by simp [Deed.nextListener_snoc, Deed.isSubscribe, Store.unsubscribe, h.next]
  mem k := by
    rw [Deed.subscribed_snoc_iff, ← h.mem]
    simp [Store.unsubscribe, eq_comm (a := l) (b := k)]
  sorted := h.sorted.filter _

variable [Reducer ρ]

theorem deed {time : Nat} (h : Listening ds s) (hx : s.doing time x = none) : Listening (ds ++ [x]) (s.deed x) := by
  cases x with
  | subscribe => exact h.subscribe
  | unsubscribe l => exact h.unsubscribe l
  | send j =>
    refine h.aside rfl (by simp) ?_ ?_ <;> exact (apply_ite _ _ _ _).trans (ite_self _)
  | use | cancel | share => exact h.aside rfl (by simp) rfl rfl
  | start =>
    refine h.aside rfl (by simp) ?_ ?_ <;> (rw [Store.deed, Store.start]; split <;> rfl)
  | work d =>
    have hdue : s.due? time d = none := hx
    have hsame : s.deed (.work d) = s := by rw [Store.deed, Store.next?_eq_due? time, hdue]; rfl
    rw [hsame]
    exact h.aside rfl (by simp) rfl rfl

end Listening

/-! ## Runs -/

namespace Chronicle

/-- The state that the last reduction stored, or the one to start with. -/
def lastStored [Reducer ρ] (first : State) (log : List (Done ρ)) : State :=
  ((log.filter (·.job.isReduction)).getLast?.map (·.after.state)).getD first

variable [Reducer ρ]

/-- The chronicles of new stores. -/
inductive Reached (first : State) : List (Deed ρ) → Chronicle ρ → Prop where
  | make (expiry : Expiry) (profile : Profile) : Reached first [] { store := Store.make first expiry profile }
  | next {ds : List (Deed ρ)} {c : Chronicle ρ} (x : Deed ρ) : Reached first ds c → Reached first (ds ++ [x]) (c.next x)

variable {first : State} {ds : List (Deed ρ)} {x : Deed ρ} {c : Chronicle ρ} {e : Done ρ} {log : List (Done ρ)}

theorem lastStored_snoc (first : State) (log : List (Done ρ)) (e : Done ρ) : lastStored first (log ++ [e]) =
    if e.job.isReduction then e.after.state else lastStored first log := by
  rw [lastStored, lastStored, List.filter_append]
  cases h : e.job.isReduction <;> simp [h]

namespace Reached

theorem time_eq (h : Reached first ds c) : c.time = ds.length := by
  induction h with
  | make => rfl
  | next x _ ih => rw [List.length_append, ← ih]; rfl

theorem listening (h : Reached first ds c) : Listening ds c.store := by
  induction h with
  | make expiry profile => exact .make first expiry profile
  | @next ds c x _ ih =>
    rcases c.next_cases x with ⟨e, rfl, -, hstopped, hstore, hnext⟩ | ⟨hnone, hnext⟩ <;> rw [hnext]
    · have hkept : e.store.nextListener = c.store.nextListener ∧ e.store.listeners = c.store.listeners := by
        rw [hstore]
        exact ⟨rfl, rfl⟩
      exact ih.aside rfl (by simp) ((e.leaves hstopped).nextListener.trans hkept.1)
        ((e.leaves hstopped).listeners.trans hkept.2)
    · exact ih.deed hnone

/-- What was done is what came first, and what waits is the rest. -/
theorem entered_eq (h : Reached first ds c) : ∃ rest, c.entered = c.log.map Done.job ++ rest ∧
    (c.store.stopped = false → rest = c.store.queue) := by
  induction h with
  | make => exact ⟨[], rfl, fun _ => rfl⟩
  | @next ds c x _ ih =>
    obtain ⟨rest, hentered, hrest⟩ := ih
    rcases c.next_cases x with ⟨e, -, -, hstopped, hstore, hnext⟩ | ⟨hnone, hnext⟩ <;> rw [hnext]
    · have hwas := Store.ready_of_eq_holding hstopped hstore
      obtain rfl := hrest hwas.1
      refine ⟨e.store.queue ++ e.arrivals, by simp [hentered, hwas.2], fun hrunning => ?_⟩
      exact ((e.leaves hstopped).queue ((e.leaves hstopped).stopped ▸ hrunning)).symm
    · have haside := Store.aside_of_doing_eq_none hnone
      refine ⟨rest ++ c.store.arriving c.time x, by simp [hentered], fun hrunning => ?_⟩
      have hwas : c.store.stopped = false := haside.stopped ▸ hrunning
      rw [hrest hwas]
      exact (haside.queue hwas).symm

theorem trace_eq (h : Reached first ds c) : c.store.trace = c.log.flatMap Done.events := by
  induction h with
  | make => rfl
  | @next ds c x _ ih =>
    rcases c.next_cases x with ⟨e, -, -, hstopped, hstore, hnext⟩ | ⟨hnone, hnext⟩ <;> rw [hnext]
    · have hwas : e.store.trace = c.store.trace := by rw [hstore]; rfl
      rw [List.flatMap_append, List.flatMap_singleton, ← ih, ← hwas]
      exact (e.leaves hstopped).trace
    · exact (Store.aside_of_doing_eq_none hnone).trace.trans ih

theorem state_eq (h : Reached first ds c) : c.store.state = lastStored first c.log := by
  induction h with
  | make => rfl
  | @next ds c x _ ih =>
    rcases c.next_cases x with ⟨e, -, -, hstopped, hstore, hnext⟩ | ⟨hnone, hnext⟩ <;> rw [hnext]
    · have hwas : e.store.state = c.store.state := by rw [hstore]; rfl
      rw [lastStored_snoc, ← ih, ← hwas]
      split
      · rfl
      · rename_i hother
        exact (e.leaves hstopped).state (by simpa using hother)
    · exact (Store.aside_of_doing_eq_none hnone).state.trans ih

/-- What is true of each job that was done, given those before it. -/
structure Entry (first : State) (ds : List (Deed ρ)) (before : List (Done ρ)) (e : Done ρ) : Prop where
  work : ds[e.time]? = some (.work e.disk)
  state : e.store.state = lastStored first before
  listening : Listening (ds.take e.time) e.store
  /-- No job is done after the last one. -/
  running : ∀ e' ∈ before, e'.job.isUnmount = false
  times : ∀ e' ∈ before, e'.time < e.time

theorem Entry.snoc {before : List (Done ρ)} (h : Entry first ds before e) : Entry first (ds ++ [x]) before e := by
  obtain ⟨hlt, -⟩ := List.getElem?_eq_some_iff.mp h.work
  refine ⟨?_, h.state, ?_, h.running, h.times⟩
  · rw [List.getElem?_append_left hlt, h.work]
  · rw [List.take_append_of_le_length hlt.le]
    exact h.listening

theorem entry (h : Reached first ds c) : (c.store.stopped = false → ∀ e ∈ c.log, e.job.isUnmount = false) ∧
    ∀ before e after, c.log = before ++ e :: after → Entry first ds before e := by
  induction h with
  | make => exact ⟨by simp, by simp⟩
  | @next ds c x hc ih =>
    obtain ⟨hrunning, hentry⟩ := ih
    rcases c.next_cases x with ⟨e, hx, htime, hstopped, hstore, hnext⟩ | ⟨hnone, hnext⟩ <;> rw [hnext]
    · have hwas : c.store.stopped = false := by rw [hstore]; exact hstopped
      have hnow : e.time = ds.length := htime.trans hc.time_eq
      refine ⟨fun hgo => List.forall_mem_append.mpr ⟨hrunning hwas, ?_⟩, fun before e' after heq => ?_⟩
      · simpa using (e.leaves hstopped).stopped.symm.trans hgo
      rcases snoc_eq_append_cons heq with ⟨rfl, rfl, -⟩ | ⟨after, hlog, -⟩
      · have hlistening := hc.listening
        have hstate := hc.state_eq
        rw [hstore] at hlistening hstate
        refine ⟨by simp [hnow, hx], hstate, ?_, hrunning hwas, fun e' he' => ?_⟩
        · rw [hnow, List.take_left]
          exact ⟨hlistening.next, hlistening.mem, hlistening.sorted⟩
        · obtain ⟨before, after, hsplit⟩ := List.append_of_mem he'
          exact hnow ▸ (List.getElem?_eq_some_iff.mp (hentry before e' after hsplit).work).1
      · exact (hentry before e' after hlog).snoc
    · have haside := Store.aside_of_doing_eq_none hnone
      exact ⟨fun hgo => hrunning (haside.stopped ▸ hgo), fun before e after heq => (hentry before e after heq).snoc⟩

/-- What the hooks of a job dispatch enters the queue behind all that waits. -/
theorem arrivals_entered (h : Reached first ds c) {before after : List (Done ρ)} (heq : c.log = before ++ e :: after) :
    (before ++ [e]).map Done.job ++ e.store.queue ++ e.arrivals <+: c.entered := by
  induction h generalizing after with
  | make => simp at heq
  | @next ds c x hc ih =>
    obtain ⟨rest, hentered, hrest⟩ := hc.entered_eq
    rcases c.next_cases x with ⟨e', -, -, hstopped, hstore, hnext⟩ | ⟨-, hnext⟩ <;> rw [hnext] at heq ⊢
    · rcases snoc_eq_append_cons heq with ⟨rfl, rfl, -⟩ | ⟨after, hlog, -⟩
      · have hwas := Store.ready_of_eq_holding hstopped hstore
        rw [hentered, hrest hwas.1, hwas.2]
        simp
      · exact (ih hlog).trans (List.prefix_append ..)
    · exact (ih heq).trans (List.prefix_append ..)

/-- A job after the one that unmounts the reducers is not done. -/
theorem length_log_le (h : Reached first ds c) {before after : List Job}
    (heq : c.entered = before ++ .unmount :: after) : c.log.length ≤ before.length + 1 := by
  by_contra hlong
  have hlt : before.length + 1 < c.log.length := by omega
  have hlater := h.entry.2 (c.log.take (before.length + 1)) c.log[before.length + 1] (c.log.drop (before.length + 2))
    (by rw [List.getElem_cons_drop, List.take_append_drop])
  have hmem : c.log[before.length] ∈ c.log.take (before.length + 1) :=
    List.mem_take_iff_getElem.mpr ⟨before.length, by omega, rfl⟩
  have hjob : c.log[before.length].job = .unmount := by
    obtain ⟨rest, hentered, -⟩ := h.entered_eq
    have hget : c.entered[before.length]? = some c.log[before.length].job := by
      rw [hentered, List.getElem?_append_left (by simp; omega), List.getElem?_map, List.getElem?_eq_getElem]
      rfl
    rw [heq] at hget
    simpa using hget.symm
  have hrunning := hlater.running _ hmem
  rw [hjob] at hrunning
  cases hrunning

theorem times_sorted (h : Reached first ds c) : (c.log.map Done.time).Pairwise (· < ·) := by
  induction h with
  | make => exact .nil
  | @next ds c x hc ih =>
    have hentry := (hc.next x).entry.2
    rcases c.next_cases x with ⟨e, -, -, -, -, hnext⟩ | ⟨-, hnext⟩ <;> rw [hnext] at hentry ⊢
    · rw [List.map_append]
      refine List.pairwise_append.mpr ⟨ih, List.pairwise_singleton _ _, ?_⟩
      simpa using (hentry c.log e [] rfl).times
    · exact ih

end Reached

/-- What deeds make of a new store. -/
def ofDeeds (first : State) (expiry : Expiry) (profile : Profile) (ds : List (Deed ρ)) : Chronicle ρ :=
  ds.foldl next { store := Store.make first expiry profile }

theorem store_foldl_next (ds : List (Deed ρ)) (c : Chronicle ρ) :
    (ds.foldl next c).store = ds.foldl Store.deed c.store := by
  induction ds generalizing c with
  | nil => rfl
  | cons x ds ih => exact ih (c.next x)

theorem reached_ofDeeds (first : State) (expiry : Expiry) (profile : Profile) (ds : List (Deed ρ)) :
    Reached first ds (ofDeeds first expiry profile ds) := by
  induction ds using List.reverseRecOn with
  | nil => exact .make expiry profile
  | append_singleton ds x ih =>
    rw [ofDeeds, List.foldl_append]
    exact .next x ih

end Chronicle

/-- What was done in a chronicle goes with what entered the queue. -/
structure Fifo [Reducer ρ] (first : State) (ds : List (Deed ρ)) (c : Chronicle ρ) : Prop where
  /-- Jobs are done in the order in which they entered the queue. -/
  order : c.log.map Done.job <+: c.entered
  /-- Those that were not done yet wait in that order, unless the store has stopped. -/
  waiting : c.store.stopped = false → c.entered = c.log.map Done.job ++ c.store.queue
  /-- What the hooks of a job dispatch enters the queue behind all that waits. -/
  arrivals : ∀ before e after, c.log = before ++ e :: after →
    (before ++ [e]).map Done.job ++ e.store.queue ++ e.arrivals <+: c.entered
  /-- Jobs are done one at a time, each when the store works. -/
  work : ∀ e ∈ c.log, ds[e.time]? = some (.work e.disk)
  times : (c.log.map Done.time).Pairwise (· < ·)
  /-- Nothing is done that was queued behind the job that unmounts the reducers. -/
  last : ∀ before after, c.entered = before ++ .unmount :: after → c.log.length ≤ before.length + 1
  /-- A job meets the state that the last reduction before it stored. -/
  state : ∀ before e after, c.log = before ++ e :: after → e.store.state = Chronicle.lastStored first before
  stored : c.store.state = Chronicle.lastStored first c.log
  /-- A reduction starts from that state without what lasts for one reduction and with what was sent along. One hook
  after the other is given the state, and what the last one leaves is stored. -/
  reduction : ∀ e ∈ c.log, ∀ action cookie props, e.job = .reduce action cookie props →
    Relay ⟨e.disk, props.apply { e.store.state with
      status := [], errors := [], completions := [], issues := [], tooltips := [] }, action, cookie⟩ e.calls
      ⟨e.disk, e.after.state, action, cookie⟩
  /-- The listeners of a job are those that came and have not left, in the order in which they came. -/
  listeners : ∀ e ∈ c.log, e.store.listeners.Pairwise (· < ·) ∧
    ∀ l, l ∈ e.store.listeners ↔ Deed.Subscribed (ds.take e.time) l
  /-- There are no other events than those of the jobs. -/
  trace : c.store.trace = c.log.flatMap Done.events

end EditorAgent

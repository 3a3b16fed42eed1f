import EditorAgent.Proofs.Codec.Progress
import EditorAgent.Proofs.Store.Quiet
import Mathlib

/-!
# Every request is answered once

`Reads` says which requests an agent takes from an input and how that ends, without a bound on their number.
`answers` says what a store has to answer to them, one after the other. A run of an agent whose reducers are
quiet writes the answer to the start and then these answers.
-/

namespace EditorAgent.Agent

/-! ## Reading -/

/-- The requests read from an input and how reading ends. What follows a shutdown is not looked at. -/
inductive Reads (c : Codec) (registry : Registry) :
    Input → List Request → Except AgentError Unit → Prop
  | ended {i : Input} (h : Request.next c i = .ok none) : Reads c registry i [] (.ok ())
  | broken {i : Input} {e : CodecError} (h : Request.next c i = .error e) :
      Reads c registry i [] (.error (.codec e))
  | shutdown {i rest : Input} {r : Request} {props : Props}
      (h : Request.next c i = .ok (some (r, rest)))
      (hr : accept registry r = .ok (.shutdown, props)) : Reads c registry i [r] (.ok ())
  | more {i rest : Input} {r : Request} {rs : List Request} {e : Except AgentError Unit}
      (h : Request.next c i = .ok (some (r, rest)))
      (hr : ∀ props, accept registry r ≠ .ok (.shutdown, props))
      (hrest : Reads c registry rest rs e) : Reads c registry i (r :: rs) e

variable {c : Codec} {registry : Registry} {i : Input} {rs : List Request}
  {e : Except AgentError Unit}

theorem exists_reads (c : Codec) (registry : Registry) (i : Input) :
    ∃ rs e, Reads c registry i rs e := by
  induction hn : i.bytes.length using Nat.strongRecOn generalizing i with
  | ind n ih =>
    match h : Request.next c i with
    | .error e => exact ⟨[], _, .broken h⟩
    | .ok none => exact ⟨[], _, .ended h⟩
    | .ok (some (r, rest)) =>
      by_cases hr : ∃ props, accept registry r = .ok (.shutdown, props)
      · obtain ⟨props, hr⟩ := hr
        exact ⟨[r], _, .shutdown h hr⟩
      · obtain ⟨rs, e, hrest⟩ := ih _ (hn ▸ Request.next_length h) rest rfl
        exact ⟨r :: rs, e, .more h (by simpa using hr) hrest⟩

theorem Reads.unique {rs' : List Request} {e' : Except AgentError Unit}
    (h : Reads c registry i rs e) (h' : Reads c registry i rs' e') : rs' = rs ∧ e' = e := by
  induction h generalizing rs' e' with
  | ended h => cases h' <;> simp_all
  | broken h => cases h' <;> simp_all
  | shutdown h hr => cases h' <;> simp_all
  | more h hr hrest ih =>
    cases h' with
    | ended h' => simp_all
    | broken h' => simp_all
    | shutdown h' hr' => simp_all
    | more h' hr' hrest' =>
      rw [h] at h'
      cases h'
      obtain ⟨rfl, rfl⟩ := ih hrest'
      exact ⟨rfl, rfl⟩

/-- What a request is queued as. -/
def job (registry : Registry) (r : Request) : Job :=
  match accept registry r with
  | .error e => .reply r.cookie e
  | .ok (action, props) => .reduce action r.cookie props

/-- Every message takes a byte, so the bound on the number of messages is never met. -/
theorem Reads.jobs_eq (h : Reads c registry i rs e) {fuel : Nat} (hf : i.bytes.length < fuel) :
    jobs c registry fuel i = (rs.map (job registry), e) := by
  induction h generalizing fuel with
  | ended h =>
    cases fuel with
    | zero => omega
    | succ fuel => simp [jobs, h]
  | broken h =>
    cases fuel with
    | zero => omega
    | succ fuel => simp [jobs, h]
  | shutdown h hr =>
    cases fuel with
    | zero => omega
    | succ fuel => simp [jobs, h, hr, job]
  | more h hr hrest ih =>
    cases fuel with
    | zero => omega
    | succ fuel =>
      have hlt := Request.next_length h
      rename_i r _ _
      rcases ha : accept registry r with e | ⟨action, props⟩
      · simp [jobs, h, ha, job, ih (by omega : _ < fuel)]
      · have hne : action ≠ .shutdown := fun hs => hr props (by rw [ha, hs])
        simp [jobs, h, ha, job, hne, ih (by omega : _ < fuel)]

theorem create_error_message_ne_empty {name : String} {data : Payload} {e : StoreError}
    (h : registry.create name data = .error e) : e.message ≠ "" := by
  unfold Registry.create at h
  split at h
  · cases h
    unfold StoreError.message
    simp [toString]
  · split at h
    · cases h
    · split at h <;> cases h
      unfold StoreError.message
      simp [toString]

theorem accept_error_ne_empty {r : Request} {e : String} (h : accept registry r = .error e) :
    e ≠ "" := by
  unfold accept at h
  split at h
  · rename_i he
    cases h
    exact create_error_message_ne_empty he
  · split at h
    · cases h
    · split at h <;> cases h
      simp [toString]

/-! ## Answering -/

variable {ρ : Type} [Reducer ρ]

/-- A store after a request. One that is not dispatched leaves it as it was. -/
def after (d : Disk) (registry : Registry) (s : Store ρ) (r : Request) : Store ρ :=
  match accept registry r with
  | .error _ => s
  | .ok (action, props) => s.reduce d action r.cookie props

/-- The answer of a store to a request: the new state, or the old one and why nothing was done. -/
def answer (d : Disk) (registry : Registry) (s : Store ρ) (r : Request) : Response :=
  let state := (after d registry s r).state
  match accept registry r with
  | .error e => ⟨r.cookie, e, state.toValue⟩
  | .ok _ => ⟨r.cookie, state.joinedErrors, state.toValue⟩

def answers (d : Disk) (registry : Registry) : Store ρ → List Request → List Response
  | _, [] => []
  | s, r :: rs => answer d registry s r :: answers d registry (after d registry s r) rs

section Answers

variable {d : Disk} {registry : Registry} {s s' : Store ρ}

@[simp] theorem answer_cookie (r : Request) : (answer d registry s r).cookie = r.cookie := by
  unfold answer
  split <;> rfl

theorem answers_cookies (rs : List Request) :
    (answers d registry s rs).map Response.cookie = rs.map Request.cookie := by
  induction rs generalizing s with
  | nil => rfl
  | cons r rs ih => simp [answers, ih]

/-- A request that is not dispatched is answered with the state of the answer before. -/
theorem answers_rejected {rs : List Request} {k : Nat} {r : Request} {reason : String}
    {last : Response} (hlast : last.state = s.state.toValue) (hk : rs[k]? = some r)
    (hr : accept registry r = .error reason) :
    ∃ before, (last :: answers d registry s rs)[k]? = some before ∧
      (answers d registry s rs)[k]? = some ⟨r.cookie, reason, before.state⟩ := by
  induction rs generalizing s k last with
  | nil => simp at hk
  | cons r' rs ih =>
    cases k with
    | zero =>
      obtain rfl : r' = r := by simpa using hk
      exact ⟨last, rfl, by simp [answers, answer, after, hr, hlast]⟩
    | succ k =>
      have hlast' : (answer d registry s r').state = (after d registry s r').state.toValue := by
        unfold answer
        split <;> rfl
      exact ih hlast' hk

variable [Reducer.Quiet ρ]

/-- One step: a store at work on a request answers it and is left as `after` says. -/
theorem perform_job {l : Nat} (halike : s.Alike s') (hl : s.listeners = [l]) (r : Request) :
    responses (s'.perform d (job registry r)).trace =
        responses s'.trace ++ [answer d registry s r] ∧
      (after d registry s r).Alike (s'.perform d (job registry r)) ∧
      (after d registry s r).listeners = [l] ∧
      (s'.perform d (job registry r)).queue = s'.queue := by
  unfold job answer after
  rcases hr : accept registry r with e | ⟨action, props⟩
  · refine ⟨?_, ?_, hl, rfl⟩
    · simp [Store.perform, responses, halike.state_eq]
    · rw [Store.Alike, Store.perform, halike]
  · have hstep := halike.reduce d action r.cookie props
    refine ⟨?_, hstep, by simpa using hl, Store.queue_reduce ..⟩
    rw [Store.perform, Store.responses_reduce, halike.listeners_eq, hl, hstep.state_eq]
    rfl

/-- A whole run: requests that wait are answered in their order. -/
theorem run_jobs {l : Nat} (halike : s.Alike s') (hl : s.listeners = [l])
    (hstarted : s.started = true) (hstopped : s.stopped = false) (rs : List Request)
    (hqueue : s'.queue = rs.map (job registry)) :
    responses (s'.run d rs.length).trace = responses s'.trace ++ answers d registry s rs ∧
      (s'.run d rs.length).queue = [] ∧ (s'.run d rs.length).started = true ∧
      (s'.run d rs.length).stopped = false := by
  induction rs generalizing s s' with
  | nil =>
    refine ⟨by simp [Store.run, answers], hqueue, ?_, ?_⟩
    · exact halike.started_eq.trans hstarted
    · exact halike.stopped_eq.trans hstopped
  | cons r rs ih =>
    have hheld : s' = s'.holding (job registry r :: rs.map (job registry)) := by
      rw [← List.map_cons, ← hqueue, Store.holding]
    have hkeep : (after d registry s r).started = true ∧ (after d registry s r).stopped = false := by
      unfold after
      split <;> simp [hstarted, hstopped]
    obtain ⟨htrace, hafter, hl₁, hqueue₁⟩ :=
      perform_job (d := d) (halike.holding (rs.map (job registry))) hl r
    obtain ⟨ht, hrest⟩ := ih hafter hl₁ hkeep.1 hkeep.2 hqueue₁
    rw [List.length_cons, hheld, Store.run_holding d (halike.started_eq.trans hstarted)
      (halike.stopped_eq.trans hstopped)]
    refine ⟨?_, hrest⟩
    rw [ht, htrace, answers, List.append_assoc]
    rfl

end Answers

/-! ## Runs -/

/-- Agents as they are put together: made, given reducers, given a registry. -/
inductive Built : Agent ρ → Prop
  | make {c : AgentConfig} {a : Agent ρ} (h : make c = .ok a) : Built a
  | use {a : Agent ρ} (h : Built a) (r : Builtin ⊕ ρ) : Built (a.use r)
  | register {a : Agent ρ} (h : Built a) (registry : Registry) : Built { a with registry }

/-- A store that nobody listens to yet and that has done nothing. -/
structure Idle (s : Store ρ) : Prop where
  listeners : s.listeners = []
  queue : s.queue = []
  trace : s.trace = []
  stopped : s.stopped = false

theorem Built.idle {a : Agent ρ} (h : Built a) : Idle a.store := by
  induction h with
  | make h =>
    unfold Agent.make at h
    split at h
    · cases h
    · split at h <;> cases h
      exact ⟨rfl, rfl, rfl, rfl⟩
  | use _ _ ih => exact ⟨ih.listeners, ih.queue, ih.trace, ih.stopped⟩
  | register _ _ ih => exact ih

/-- The store of an agent that is about to serve. -/
def awake (a : Agent ρ) : Store (Builtin ⊕ ρ) := { (a.store.subscribe).2 with started := true }

/-- The store of an agent that has answered to its start. -/
def opened (d : Disk) (a : Agent ρ) : Store (Builtin ⊕ ρ) := (awake a).reduce d .started "" {}

/-- Works off what waits in a store, then unmounts its reducers. -/
def drain (d : Disk) (s : Store ρ) : Store ρ :=
  let s := (s.run d s.queue.length).send .unmount
  (s.run d s.queue.length).cancel

/-- The first answer, which no request asked for. -/
def greeting (d : Disk) (a : Agent ρ) : Response :=
  ⟨"", (opened d a).state.joinedErrors, (opened d a).state.toValue⟩

variable [Reducer.Quiet ρ]

/-- The last job answers nothing. -/
theorem responses_unmount (d : Disk) {s : Store ρ} (hqueue : s.queue = [])
    (hstarted : s.started = true) (hstopped : s.stopped = false) :
    responses ((s.send .unmount).run d (s.send .unmount).queue.length).trace =
      responses s.trace := by
  have hsend : s.send .unmount = s.holding [.unmount] := by
    simp [Store.send, hstopped, hqueue, Store.holding]
  rw [hsend, Store.queue_holding, List.length_singleton, Store.run_holding d hstarted hstopped]
  exact Store.responses_unmountAll d (s.holding [])

theorem responses_run (d : Disk) {a : Agent ρ} (ha : Idle a.store) {i : Input} {rs : List Request}
    {e : Except AgentError Unit} (h : Reads a.codec a.registry i rs e) :
    (a.run d i).result = e ∧
      responses (a.run d i).store.trace = greeting d a :: answers d a.registry (opened d a) rs := by
  have hl : (awake a).listeners = [a.store.nextListener] := by
    simp [awake, Store.subscribe, ha.listeners]
  have hstopped : (awake a).stopped = false := ha.stopped
  have hqueue : (rs.map (job a.registry)).foldl Store.send ((awake a).dispatch .started) =
      (awake a).holding (.reduce .started "" {} :: rs.map (job a.registry)) := by
    have hempty : (awake a).queue = [] := ha.queue
    have hfold := Store.foldl_send hstopped (.reduce .started "" {} :: rs.map (job a.registry))
    rwa [hempty] at hfold
  -- The start is reduced first; the requests then meet the store that it left.
  have hopened : (opened d a).Alike
      (((awake a).holding (rs.map (job a.registry))).reduce d .started "" {}) :=
    ((Store.Alike.refl _).holding _).reduce d .started "" {}
  have hfirst : responses
      (((awake a).holding (rs.map (job a.registry))).reduce d .started "" {}).trace =
        [greeting d a] := by
    have htrace : (awake a).trace = [] := ha.trace
    rw [Store.responses_reduce, hopened.state_eq]
    simp [Store.holding, htrace, hl, responses, greeting]
  obtain ⟨htrace, hempty, hstarted, hstopped'⟩ := run_jobs (d := d) hopened
    ((Store.listeners_reduce ..).trans hl) (Store.started_reduce ..)
    ((Store.stopped_reduce ..).trans hstopped) rs (Store.queue_reduce ..)
  have hend := responses_unmount d hempty hstarted hstopped'
  rw [htrace, hfirst] at hend
  have hrun : ((awake a).holding (.reduce .started "" {} :: rs.map (job a.registry))).run d
      (rs.length + 1) =
      (((awake a).holding (rs.map (job a.registry))).reduce d .started "" {}).run d rs.length :=
    Store.run_holding d rfl hstopped ..
  have hstore : (a.run d i).store = drain d ((rs.map (job a.registry)).foldl Store.send
      ((awake a).dispatch .started)) := by
    rw [Agent.run, h.jobs_eq (Nat.lt_succ_self _)]
    rfl
  refine ⟨by rw [Agent.run, h.jobs_eq (Nat.lt_succ_self _)], ?_⟩
  rw [hstore, hqueue, drain, Store.queue_holding, List.length_cons, List.length_map, hrun]
  exact hend

/-- Every request is answered once and in order, after an answer to the start. A request that is not
dispatched is answered with a reason and the state of the answer before it, and the answers after it are
those of a store that never saw it. -/
theorem run_answers_every_request (d : Disk) {a : Agent ρ} (ha : a.Built) (i : Input) :
    ∃ rs e, Reads a.codec a.registry i rs e ∧
      (∀ rs' e', Reads a.codec a.registry i rs' e' → rs' = rs ∧ e' = e) ∧
      (a.run d i).result = e ∧
      ∃ (first : Response) (rest : List Response),
        responses (a.run d i).store.trace = first :: rest ∧
        output a.codec (a.run d i) = (first :: rest).flatMap (Response.write a.codec) ∧
        first = ⟨"", (opened d a).state.joinedErrors, (opened d a).state.toValue⟩ ∧
        rest = answers d a.registry (opened d a) rs ∧
        rest.map Response.cookie = rs.map Request.cookie ∧
        ∀ (k : Nat) (r : Request) (reason : String), rs[k]? = some r →
          accept a.registry r = .error reason →
          reason ≠ "" ∧ ∃ before, (first :: rest)[k]? = some before ∧
            rest[k]? = some ⟨r.cookie, reason, before.state⟩ := by
  obtain ⟨rs, e, h⟩ := exists_reads a.codec a.registry i
  obtain ⟨hresult, hresponses⟩ := responses_run d ha.idle h
  refine ⟨rs, e, h, fun _ _ => h.unique, hresult, greeting d a, answers d a.registry (opened d a) rs,
    hresponses, by rw [output, hresponses], rfl, rfl, answers_cookies rs, ?_⟩
  intro k r reason hk hr
  exact ⟨accept_error_ne_empty hr, answers_rejected rfl hk hr⟩

/-- The input holds one request, for an action without a name. -/
theorem run_answers_unknown_action :
    ∃ a : Agent Empty, Agent.make {} = .ok a ∧ ∃ start,
      responses (a.run ⟨[]⟩ ⟨Utf8.encode "\x7b\"Cookie\":\"7\"\x7d", none⟩).store.trace =
        [start, ⟨"7", "no such action: ", start.state⟩] := by
  obtain ⟨a, ha⟩ : ∃ a : Agent Empty, Agent.make {} = .ok a := ⟨_, rfl⟩
  have hcodec : a.codec = .json := by cases ha; rfl
  have hregistry : a.registry = .builtins := by cases ha; rfl
  have hnext : Request.next .json ⟨Utf8.encode "\x7b\"Cookie\":\"7\"\x7d", none⟩ =
      .ok (some (⟨"7", "", ⟨.json, []⟩, none⟩, ⟨[], none⟩)) := by cbv
  have haccept : accept .builtins ⟨"7", "", ⟨.json, []⟩, none⟩ = .error "no such action: " := rfl
  have hread : Reads a.codec a.registry ⟨Utf8.encode "\x7b\"Cookie\":\"7\"\x7d", none⟩
      [⟨"7", "", ⟨.json, []⟩, none⟩] (.ok ()) := by
    rw [hcodec, hregistry]
    exact .more hnext (fun props => by simp [haccept]) (.ended rfl)
  obtain ⟨rs, e, -, hunique, -, start, rest, htrace, -, -, -, hcookies, hrejected⟩ :=
    run_answers_every_request ⟨[]⟩ (.make ha) ⟨Utf8.encode "\x7b\"Cookie\":\"7\"\x7d", none⟩
  obtain ⟨rfl, rfl⟩ := hunique _ _ hread
  obtain ⟨-, before, hbefore, hanswer⟩ :=
    hrejected 0 ⟨"7", "", ⟨.json, []⟩, none⟩ "no such action: " rfl (hregistry ▸ haccept)
  obtain rfl : start = before := by simpa using hbefore
  refine ⟨a, ha, start, ?_⟩
  rcases rest with _ | ⟨x, _ | ⟨y, rest⟩⟩
  · simp at hanswer
  · obtain rfl : x = ⟨"7", "no such action: ", start.state⟩ := by simpa using hanswer
    exact htrace
  · simp at hcookies

end EditorAgent.Agent

import EditorAgent.Proofs.Store.Calls

/-!
# The life of a reducer

A store keeps its reducers through reductions, and more may join between them. To each reducer the reductions are a
life: nothing before it joined, and from then on its part in every one of them. What is promised of `init`, `cond`,
`mount` and `unmount` is read off a life and the job that ends it.
-/

namespace EditorAgent

open HookCall

variable {ρ : Type}

/-! ## Jobs -/

namespace Event

def isHook : Event → Bool
  | .hook .. => true
  | _ => false

theorem filter_isHook_map (cs : List HookCall) : (cs.map HookCall.event).filter isHook = cs.map HookCall.event :=
  List.filter_eq_self.mpr fun e he => by
    obtain ⟨c, -, rfl⟩ := List.mem_map.mp he
    rfl

end Event

namespace Store

variable [Reducer ρ]

/-- A reduction that no reducer has taken part in yet. -/
def opening (d : Disk) (s : Store ρ) (action : Action) (cookie : String) (props : Props) : Turn ρ where
  ctx := ⟨d, props.apply s.state.resetEphemeral, action, cookie⟩
  services :=
    { session := { s.session with profile := s.session.profile.push action.name }
      cancelled := s.cancelled }

/-- The calls of a reduction. -/
def reduceCalls (d : Disk) (s : Store ρ) (action : Action) (cookie : String) (props : Props) : List HookCall :=
  Station.allCalls Station.step Station.stepCalls 0 (s.stations ++ s.incoming) (s.opening d action cookie props)

/-- The calls of the job that unmounts the reducers. -/
def unmountCalls (d : Disk) (s : Store ρ) : List HookCall :=
  Station.allCalls Station.dismount Station.dismountCalls 0 s.stations
    { ctx := ⟨d, s.state, .unmount, ""⟩, services := { session := s.session, cancelled := s.cancelled } }

/-- The hooks that were called. -/
def hooks (s : Store ρ) : List Event := s.trace.filter Event.isHook

/-- What a reduction does to the pipeline. -/
structure Reduced (s : Store ρ) (cs : List HookCall) (s' : Store ρ) : Prop where
  length : s'.stations.length = (s.stations ++ s.incoming).length
  part : ∀ p st, (s.stations ++ s.incoming)[p]? = some st →
    ∃ st', s'.stations[p]? = some st' ∧ Station.Part st st' (callsAt p cs)
  away : ∀ p, (s.stations ++ s.incoming).length ≤ p → callsAt p cs = []
  incoming : ∀ st ∈ s'.incoming, st.initialized = false ∧ st.mounted = false
  hooks : s'.hooks = s.hooks ++ cs.map event
  chain : cs.IsChain fun c c' => c.Leads c'.ctx

theorem reduced_reduce (d : Disk) (s : Store ρ) (action : Action) (cookie : String) (props : Props) :
    Reduced s (s.reduceCalls d action cookie props) (s.reduce d action cookie props) := by
  obtain ⟨hrelay, htrace⟩ := Station.relay_all Station.makes_step 0 (s.stations ++ s.incoming)
    (s.opening d action cookie props)
  let t := (s.turn d action cookie props).2
  have hstations : (s.reduce d action cookie props).stations = (s.turn d action cookie props).1 := by
    rw [reduce_eq_turn]
  refine ⟨?_, fun p st hst => ?_, fun p hp => ?_, fun st hst => ?_, ?_, hrelay.isChain⟩
  · rw [hstations]
    exact Station.length_all ..
  · obtain ⟨t, hall, hcalls⟩ := Station.all_part Station.makes_step 0 _ (s.opening d action cookie props) hst
    rw [Nat.zero_add] at hall hcalls
    exact ⟨_, hstations ▸ hall, hcalls ▸ Station.part_step p st t⟩
  · refine callsAt_eq_nil fun c hc => ?_
    have := Station.place_mem Station.makes_step hc
    omega
  · rw [reduce_eq_turn] at hst
    obtain ⟨r, -, rfl⟩ := List.mem_map.mp hst
    exact ⟨rfl, rfl⟩
  · have hturn : t.trace = [] ++ (s.reduceCalls d action cookie props).map event := htrace
    have hlog : (s.reduce d action cookie props).trace = s.trace ++ t.trace ++
        s.listeners.map fun l => .broadcast l t.ctx.label t.ctx.cookie t.ctx.state := by
      rw [reduce_eq_turn]
    rw [hooks, hlog, hturn]
    simp [hooks, Event.filter_isHook_map, Event.isHook]

/-- What the job that unmounts the reducers does to the pipeline. -/
theorem unmounted_unmountAll (d : Disk) (s : Store ρ) :
    (s.unmountAll d).hooks = s.hooks ++ (s.unmountCalls d).map event ∧
      (s.unmountCalls d).IsChain (fun c c' => c.Leads c'.ctx) ∧
      ∀ p st, s.stations[p]? = some st →
        stagesAt p (s.unmountCalls d) = Stage.switch st.mounted false := by
  let opening : Turn ρ :=
    { ctx := ⟨d, s.state, .unmount, ""⟩, services := { session := s.session, cancelled := s.cancelled } }
  let closing := Station.all Station.dismount 0 s.stations opening
  obtain ⟨hrelay, htrace⟩ := Station.relay_all Station.makes_dismount 0 s.stations opening
  refine ⟨?_, hrelay.isChain, fun p st hst => ?_⟩
  · have hturn : closing.2.trace = [] ++ (s.unmountCalls d).map event := htrace
    have hlog : (s.unmountAll d).trace = s.trace ++ closing.2.trace :=
      congrArg Store.trace (settle_eq { s with stations := closing.1 } closing.2)
    rw [hooks, hlog, hturn]
    simp [hooks, Event.filter_isHook_map]
  · obtain ⟨t, -, hcalls⟩ := Station.all_part Station.makes_dismount 0 s.stations opening hst
    rw [Nat.zero_add] at hcalls
    have hstages : stagesAt p (s.unmountCalls d) = (Station.dismountCalls p st t).map HookCall.stage :=
      congrArg (List.map HookCall.stage) hcalls
    rw [hstages, Station.dismountCalls]
    cases st.mounted <;> rfl

end Store

/-! ## Lives -/

/-- What a reduction is to the reducer at a place: it has not joined yet, or it takes its part. The flags are
whether it is initialized and whether it is mounted. -/
inductive Takes (p : Nat) (cs : List HookCall) : Bool × Bool → Bool × Bool → Prop where
  | away : callsAt p cs = [] → Takes p cs (false, false) (false, false)
  | part {i m m' : Bool} : stagesAt p cs = Stage.part (!i) m m' →
    (∀ c ∈ callsAt p cs, c.stage = .cond → c.fault.isSome → m' = m) → Takes p cs (i, m) (true, m')

/-- Reductions that are a piece of a life of the reducer at a place. -/
def Life (p : Nat) : List (List HookCall) → Bool × Bool → Bool × Bool → Prop
  | [], x, y => y = x
  | cs :: log, x, y => ∃ x', Takes p cs x x' ∧ Life p log x' y

namespace Life

variable {p : Nat} {log log' : List (List HookCall)} {cs : List HookCall} {x y : Bool × Bool} {m : Bool}

theorem append_iff : Life p (log ++ log') x y ↔ ∃ z, Life p log x z ∧ Life p log' z y := by
  induction log generalizing x with
  | nil => simp [Life]
  | cons cs log ih =>
    simp only [List.cons_append, Life, ih]
    constructor
    · rintro ⟨x', hcs, z, hlog, hlog'⟩
      exact ⟨z, ⟨x', hcs, hlog⟩, hlog'⟩
    · rintro ⟨z, ⟨x', hcs, hlog⟩, hlog'⟩
      exact ⟨x', hcs, z, hlog, hlog'⟩

theorem snoc {z : Bool × Bool} (h : Life p log x y) (hcs : Takes p cs y z) : Life p (log ++ [cs]) x z :=
  append_iff.mpr ⟨y, h, z, hcs, rfl⟩

theorem follow? (h : Life p log x y) : Stage.follow? x (stagesAt p log.flatten) = some y := by
  induction log generalizing x with
  | nil => exact congrArg some h.symm
  | cons cs log ih =>
    obtain ⟨x', hcs, hlog⟩ := h
    rw [List.flatten_cons, stagesAt_append, Stage.follow?_append, ← ih hlog]
    cases hcs with
    | away hnone => rw [stagesAt, hnone]; rfl
    | part hstages _ => rw [hstages, Stage.follow?_part]; rfl

theorem parts_of_initialized (h : Life p log (true, m) y) :
    ∀ cs ∈ log, ∃ was now, stagesAt p cs = Stage.part false was now := by
  induction log generalizing m with
  | nil => simp
  | cons cs log ih =>
    obtain ⟨x', hcs, hlog⟩ := h
    cases hcs with
    | part hstages _ => exact List.forall_mem_cons.mpr ⟨⟨_, _, hstages⟩, ih hlog⟩

/-- A reducer that took part did so in every reduction from some one on. -/
theorem exists_joined (h : Life p log (false, false) (true, m)) :
    ∃ before first since, log = before ++ first :: since ∧ (∀ cs ∈ before, callsAt p cs = []) ∧
      (∃ now, stagesAt p first = Stage.part true false now) ∧
      ∀ cs ∈ since, ∃ was now, stagesAt p cs = Stage.part false was now := by
  induction log with
  | nil => cases h
  | cons cs log ih =>
    obtain ⟨x', hcs, hlog⟩ := h
    cases hcs with
    | away hnone =>
      obtain ⟨before, first, since, rfl, hbefore, hrest⟩ := ih hlog
      exact ⟨cs :: before, first, since, rfl, List.forall_mem_cons.mpr ⟨hnone, hbefore⟩, hrest⟩
    | part hstages _ =>
      exact ⟨[], cs, log, rfl, by simp, ⟨_, hstages⟩, parts_of_initialized hlog⟩

/-- A condition that breaks off leaves a reducer mounted or not as it was. -/
theorem mountedAfter_of_fault {before after : List (List HookCall)}
    (h : Life p (before ++ cs :: after) (false, false) y) {c : HookCall} (hc : c ∈ callsAt p cs)
    (hstage : c.stage = .cond) (hfault : c.fault.isSome) :
    Stage.mountedAfter false (stagesAt p (before ++ [cs]).flatten) =
      Stage.mountedAfter false (stagesAt p before.flatten) := by
  obtain ⟨⟨i, m⟩, hbefore, ⟨i', m'⟩, hcs, -⟩ := append_iff.mp h
  rw [Stage.mountedAfter_of_follow? (hbefore.snoc hcs).follow?, Stage.mountedAfter_of_follow? hbefore.follow?]
  cases hcs with
  | away hnone => rfl
  | part _ hkept => exact hkept c hc hstage hfault

end Life

/-- What is promised of the reducer at a place, over reductions and the job that unmounts it after them. -/
structure Lifecycle (p : Nat) (log : List (List HookCall)) (last : List HookCall) : Prop where
  /-- `init` is called once, before every other hook. -/
  init : ∃ rest, stagesAt p (log.flatten ++ last) = .init :: rest ∧ .init ∉ rest
  /-- From the reduction on with which it joined, each one calls `cond` once. -/
  cond : ∃ before first since, log = before ++ first :: since ∧ (∀ cs ∈ before, callsAt p cs = []) ∧
    ∀ cs ∈ first :: since, (stagesAt p cs).count .cond = 1
  /-- `mount` and `unmount` take turns, and `mount` is the first. -/
  turns : ((stagesAt p (log.flatten ++ last)).filter Stage.isSwitch).IsChain (· ≠ ·) ∧
    ∀ a, ((stagesAt p (log.flatten ++ last)).filter Stage.isSwitch).head? = some a → a = .mount
  /-- `config` and `reduce` are called after a `mount` and before the next `unmount`. -/
  work : ∀ pre a post, stagesAt p (log.flatten ++ last) = pre ++ a :: post → a = .config ∨ a = .reduce →
    Stage.mountedAfter false pre = true
  /-- A condition that breaks off leaves the reducer mounted or not as it was. -/
  kept : ∀ before cs after, log = before ++ cs :: after →
    ∀ c ∈ callsAt p cs, c.stage = .cond → c.fault.isSome →
      Stage.mountedAfter false (stagesAt p (before ++ [cs]).flatten) =
        Stage.mountedAfter false (stagesAt p before.flatten)
  /-- After the last job there were as many `unmount`s as `mount`s. -/
  paired : (stagesAt p (log.flatten ++ last)).count .mount = (stagesAt p (log.flatten ++ last)).count .unmount

theorem Life.lifecycle {p : Nat} {log : List (List HookCall)} {last : List HookCall} {m : Bool}
    (h : Life p log (false, false) (true, m)) (hlast : stagesAt p last = Stage.switch m false) :
    Lifecycle p log last := by
  have hfollow : Stage.follow? (false, false) (stagesAt p (log.flatten ++ last)) = some (true, false) := by
    rw [stagesAt_append, Stage.follow?_append, h.follow?, hlast]
    cases m <;> rfl
  refine ⟨Stage.exists_eq_init_cons hfollow, ?_, Stage.isChain_switches hfollow, ?_, ?_, ?_⟩
  · obtain ⟨before, first, since, heq, hbefore, ⟨now, hfirst⟩, hsince⟩ := h.exists_joined
    refine ⟨before, first, since, heq, hbefore, List.forall_mem_cons.mpr ⟨?_, fun cs hcs => ?_⟩⟩
    · rw [hfirst, Stage.count_cond_part]
    · obtain ⟨was, now, hstages⟩ := hsince cs hcs
      rw [hstages, Stage.count_cond_part]
  · intro pre a post heq ha
    exact Stage.mountedAfter_of_work (heq ▸ hfollow) ha
  · rintro before cs after rfl c hc hstage hfault
    exact h.mountedAfter_of_fault hc hstage hfault
  · simpa using Stage.count_mount hfollow

/-! ## Runs -/

namespace Store

/-- The flags of the reducer at a place of the pipeline; one that is not there has none set. -/
def flagsAt (s : Store ρ) (p : Nat) : Bool × Bool :=
  match (s.stations ++ s.incoming)[p]? with
  | some st => (st.initialized, st.mounted)
  | none => (false, false)

/-- What is true of every store that comes from a new one. -/
structure Sound (log : List (List HookCall)) (s : Store ρ) : Prop where
  hooks : s.hooks = log.flatten.map event
  chains : ∀ cs ∈ log, cs.IsChain fun c c' => c.Leads c'.ctx
  lives : ∀ p, Life p log (false, false) (s.flagsAt p)
  initialized : ∀ st ∈ s.stations, st.initialized = true
  incoming : ∀ st ∈ s.incoming, st.initialized = false ∧ st.mounted = false

theorem flagsAt_of_lt {s : Store ρ} {p : Nat} {st : Station ρ} (h : (s.stations ++ s.incoming)[p]? = some st) :
    s.flagsAt p = (st.initialized, st.mounted) := by
  rw [flagsAt, h]

/-- Whoever waits to join has the flags of a reducer that is not there. -/
theorem flagsAt_of_le {s : Store ρ} (h : ∀ st ∈ s.incoming, st.initialized = false ∧ st.mounted = false) {p : Nat}
    (hp : s.stations.length ≤ p) : s.flagsAt p = (false, false) := by
  rw [flagsAt, List.getElem?_append_right hp]
  split
  · obtain ⟨hi, hm⟩ := h _ (List.mem_of_getElem? ‹_›)
    rw [hi, hm]
  · rfl

namespace Sound

variable {log : List (List HookCall)} {s s' : Store ρ}

theorem make (state : State) (expiry : Expiry) (profile : Profile) :
    Sound [] (Store.make state expiry profile : Store ρ) :=
  ⟨rfl, by simp, fun _ => rfl, by simp [Store.make], by simp [Store.make]⟩

theorem aside (h : Sound log s) (hstations : s'.stations = s.stations)
    (hincoming : ∀ st ∈ s'.incoming, st.initialized = false ∧ st.mounted = false) (hhooks : s'.hooks = s.hooks) :
    Sound log s' where
  hooks := hhooks.trans h.hooks
  chains := h.chains
  lives p := by
    have hlife := h.lives p
    rcases Nat.lt_or_ge p s.stations.length with hp | hp
    · simpa only [flagsAt, List.getElem?_append_left hp, hstations] using hlife
    · rw [flagsAt_of_le h.incoming hp] at hlife
      rwa [flagsAt_of_le hincoming (hstations ▸ hp)]
  initialized := hstations ▸ h.initialized
  incoming := hincoming

variable [Reducer ρ]

theorem use (r : ρ) (h : Sound log s) : Sound log (s.use r) := by
  refine h.aside rfl (fun st hst => ?_) rfl
  rcases List.mem_append.mp hst with hst | hst
  · exact h.incoming st hst
  · obtain rfl := List.mem_singleton.mp hst
    exact ⟨rfl, rfl⟩

theorem takes_reduce (h : Sound log s) (d : Disk) (action : Action) (cookie : String) (props : Props) (p : Nat) :
    Takes p (s.reduceCalls d action cookie props) (s.flagsAt p) ((s.reduce d action cookie props).flagsAt p) := by
  have hr := reduced_reduce d s action cookie props
  rcases Nat.lt_or_ge p (s.stations ++ s.incoming).length with hp | hp
  · obtain ⟨st', hst', hpart⟩ := hr.part p _ (List.getElem?_eq_getElem hp)
    rw [flagsAt_of_lt (List.getElem?_eq_getElem hp),
      flagsAt_of_lt ((List.getElem?_append_left (hr.length ▸ hp)).trans hst'), hpart.initialized]
    exact .part hpart.stages hpart.cond
  · rw [flagsAt_of_le h.incoming ((List.length_append ▸ Nat.le_add_right ..).trans hp),
      flagsAt_of_le hr.incoming (hr.length ▸ hp)]
    exact .away (hr.away p hp)

theorem reduce (d : Disk) (action : Action) (cookie : String) (props : Props) (h : Sound log s) :
    Sound (log ++ [s.reduceCalls d action cookie props]) (s.reduce d action cookie props) := by
  have hr := reduced_reduce d s action cookie props
  refine ⟨?_, ?_, fun p => (h.lives p).snoc (h.takes_reduce d action cookie props p), fun st hst => ?_,
    hr.incoming⟩
  · rw [hr.hooks, h.hooks]
    simp
  · simpa [or_imp, forall_and, hr.chain] using h.chains
  · obtain ⟨p, hp⟩ := List.mem_iff_getElem?.mp hst
    have hlt : p < (s.stations ++ s.incoming).length := hr.length ▸ (List.getElem?_eq_some_iff.mp hp).1
    obtain ⟨st', hst', hpart⟩ := hr.part p _ (List.getElem?_eq_getElem hlt)
    obtain rfl : st = st' := Option.some.inj (hp.symm.trans hst')
    exact hpart.initialized

end Sound

variable [Reducer ρ]

/-- The stores that come from a new one by reductions, with the calls of each of them. In between reducers may be
added, and anything may be done that neither touches the pipeline nor calls hooks. -/
inductive Reached : List (List HookCall) → Store ρ → Prop where
  | make (state : State) (expiry : Expiry) (profile : Profile) : Reached [] (make state expiry profile)
  | use {log s} (r : ρ) : Reached log s → Reached log (s.use r)
  | aside {log s} {s' : Store ρ} : Reached log s → s'.stations = s.stations → s'.incoming = s.incoming →
    s'.hooks = s.hooks → Reached log s'
  | reduce {log s} (d : Disk) (action : Action) (cookie : String) (props : Props) : Reached log s →
    Reached (log ++ [s.reduceCalls d action cookie props]) (s.reduce d action cookie props)

theorem Reached.sound {log : List (List HookCall)} {s : Store ρ} (h : Reached log s) : Sound log s := by
  induction h with
  | make state expiry profile => exact .make state expiry profile
  | use r _ ih => exact ih.use r
  | aside _ hstations hincoming hhooks ih => exact ih.aside hstations (hincoming ▸ ih.incoming) hhooks
  | reduce d action cookie props _ ih => exact ih.reduce d action cookie props

/-- The life of every reducer that took part, over any reductions with an `unmount` job after them, whichever hooks
break off. A hook that broke off left one more error to the one after it and changed nothing else, and it
kept no reducer from its part. -/
theorem lifecycle_of_reached {log : List (List HookCall)} {s : Store ρ} (h : Reached log s) (d : Disk) :
    (s.perform d .unmount).hooks = (log ++ [s.unmountCalls d]).flatten.map event ∧
      (∀ cs ∈ log ++ [s.unmountCalls d], cs.IsChain fun c c' => c.Leads c'.ctx) ∧
      (∀ p st, s.stations[p]? = some st →
        st.mounted = Stage.mountedAfter false (stagesAt p log.flatten) ∧ Lifecycle p log (s.unmountCalls d)) ∧
      ∀ action cookie props p st, (s.stations ++ s.incoming)[p]? = some st →
        ∃ now, stagesAt p (s.reduceCalls d action cookie props) = Stage.part (!st.initialized) st.mounted now := by
  have hs := h.sound
  obtain ⟨hhooks, hchain, hlast⟩ := unmounted_unmountAll d s
  refine ⟨?_, ?_, fun p st hst => ?_, fun action cookie props p st hst => ?_⟩
  · have hunmount : (s.perform d .unmount).hooks = (s.unmountAll d).hooks := rfl
    rw [hunmount, hhooks, hs.hooks]
    simp
  · simpa [or_imp, forall_and, hchain] using hs.chains
  · have hlife := hs.lives p
    have hp : (s.stations ++ s.incoming)[p]? = some st :=
      (List.getElem?_append_left (List.getElem?_eq_some_iff.mp hst).1).trans hst
    rw [flagsAt_of_lt hp, hs.initialized st (List.mem_of_getElem? hst)] at hlife
    exact ⟨(Stage.mountedAfter_of_follow? hlife.follow?).symm, hlife.lifecycle (hlast p st hst)⟩
  · obtain ⟨st', -, hpart⟩ := (reduced_reduce d s action cookie props).part p st hst
    exact ⟨_, hpart.stages⟩

end Store

/-- Reducers whose `mount` breaks off. -/
@[reducible] def Reducer.shaky : Reducer Unit where
  label _ := "shaky"
  mount _ := throw none
  reduce c := pure c.state

theorem Store.lifecycle_of_reached_shaky :
    let _ := Reducer.shaky
    let s : Store Unit := (Store.make {} .never (.make "" false)).use ()
    let cs := s.reduceCalls ⟨[]⟩ .started "" {}
    let last := (s.reduce ⟨[]⟩ .started "" {}).unmountCalls ⟨[]⟩
    stagesAt 0 (cs ++ last) = [.init, .cond, .mount, .config, .reduce, .unmount] ∧ Lifecycle 0 [cs] last := by
  intro _ s cs last
  have h := Store.lifecycle_of_reached (.reduce ⟨[]⟩ .started "" {} (.use () (.make {} .never (.make "" false)))) ⟨[]⟩
  exact ⟨rfl, (h.2.2.1 0 _ rfl).2⟩

end EditorAgent

import EditorAgent.Proofs.Store.Quiet
import Mathlib.Data.List.Chain
import Mathlib.Data.List.Infix

/-!
# The calls of a job

A job's calls are listed with what each hook was given and how it ended. The part of one reducer in a job has one
of a few shapes, whichever hooks break off, and a hook that breaks off leaves one more error to the next one.
-/

namespace EditorAgent

variable {ρ α : Type}

/-! ## The order of hooks -/

namespace Stage

/-- Where a reducer is in its life after a hook, given whether it was initialized and whether it was mounted;
`none` for a hook that is not to be called there. -/
def next? : Bool × Bool → Stage → Option (Bool × Bool)
  | (false, m), .init => some (true, m)
  | (true, m), .cond => some (true, m)
  | (true, false), .mount => some (true, true)
  | (true, true), .unmount => some (true, false)
  | (true, true), .config => some (true, true)
  | (true, true), .reduce => some (true, true)
  | _, _ => none

/-- Hooks that may be called one after another. -/
def follow? (x : Bool × Bool) (l : List Stage) : Option (Bool × Bool) := l.foldlM next? x

def isSwitch : Stage → Bool
  | .mount => true
  | .unmount => true
  | _ => false

/-- Whether a reducer is mounted after hooks, given whether it was before. -/
def mountedAfter (was : Bool) (l : List Stage) : Bool :=
  l.foldl (fun m x => match x with
    | .mount => true
    | .unmount => false
    | _ => m) was

/-- The hook that goes with a change of whether a reducer is mounted. -/
def switch (was now : Bool) : List Stage :=
  match was, now with
  | false, true => [.mount]
  | true, false => [.unmount]
  | _, _ => []

/-- The hooks that are called of a reducer in a job: whether it is its first job, and whether it is mounted before
and after. -/
def part (first was now : Bool) : List Stage :=
  (if first then [.init] else []) ++ (.cond :: switch was now) ++ if now then [.config, .reduce] else []

variable {x y : Bool × Bool} {a : Stage} {l l' : List Stage} {i i' m m' : Bool}

theorem follow?_cons : follow? x (a :: l) = (next? x a).bind fun y => follow? y l := by
  simp [follow?, List.foldlM_cons]

theorem follow?_append : follow? x (l ++ l') = (follow? x l).bind fun y => follow? y l' := by
  simp [follow?, List.foldlM_append]

theorem follow?_part (i m m' : Bool) : follow? (i, m) (part (!i) m m') = some (true, m') := by
  cases i <;> cases m <;> cases m' <;> rfl

theorem count_cond_part (first was now : Bool) : (part first was now).count .cond = 1 := by
  cases first <;> cases was <;> cases now <;> rfl

/-- What one hook does to a life. -/
theorem next?_eq_some (h : next? (i, m) a = some (i', m')) :
    (a = .init ∧ i = false ∧ i' = true ∧ m' = m) ∨ (a ≠ .init ∧ i = true ∧ i' = true ∧
      ((a = .cond ∧ m' = m) ∨ (a = .mount ∧ m = false ∧ m' = true) ∨ (a = .unmount ∧ m = true ∧ m' = false) ∨
        ((a = .config ∨ a = .reduce) ∧ m = true ∧ m' = true))) := by
  cases a <;> cases i <;> cases m <;> simp_all [next?]

theorem init_not_mem (h : follow? (true, m) l = some y) : .init ∉ l := by
  induction l generalizing m with
  | nil => simp
  | cons a l ih =>
    rw [follow?_cons, Option.bind_eq_some_iff] at h
    obtain ⟨⟨i', m'⟩, hnext, hrest⟩ := h
    rcases next?_eq_some hnext with ⟨-, hi, -⟩ | ⟨ha, -, rfl, -⟩
    · cases hi
    · simp [ih hrest, Ne.symm ha]

theorem exists_eq_init_cons (h : follow? (false, m) l = some (true, m')) : ∃ rest, l = .init :: rest ∧ .init ∉ rest := by
  cases l with
  | nil => cases h
  | cons a l =>
    rw [follow?_cons, Option.bind_eq_some_iff] at h
    obtain ⟨⟨i', m'⟩, hnext, hrest⟩ := h
    rcases next?_eq_some hnext with ⟨rfl, -, rfl, -⟩ | ⟨-, hi, -⟩
    · exact ⟨l, rfl, init_not_mem hrest⟩
    · cases hi

theorem mountedAfter_of_follow? (h : follow? (i, m) l = some (i', m')) : mountedAfter m l = m' := by
  induction l generalizing i m with
  | nil => cases h; rfl
  | cons a l ih =>
    rw [follow?_cons, Option.bind_eq_some_iff] at h
    obtain ⟨⟨j, n⟩, hnext, hrest⟩ := h
    rw [← ih hrest, mountedAfter, mountedAfter, List.foldl_cons]
    congr 1
    rcases next?_eq_some hnext with ⟨rfl, -, -, rfl⟩ | ⟨-, -, -, ⟨rfl, rfl⟩ | ⟨rfl, -, rfl⟩ | ⟨rfl, -, rfl⟩ |
      ⟨rfl | rfl, rfl, rfl⟩⟩ <;> rfl

theorem count_mount (h : follow? (i, m) l = some (i', m')) :
    l.count .mount + m.toNat = l.count .unmount + m'.toNat := by
  induction l generalizing i m with
  | nil => cases h; rfl
  | cons a l ih =>
    rw [follow?_cons, Option.bind_eq_some_iff] at h
    obtain ⟨⟨j, n⟩, hnext, hrest⟩ := h
    have := ih hrest
    rcases next?_eq_some hnext with ⟨rfl, -, -, rfl⟩ | ⟨-, -, -, ⟨rfl, rfl⟩ | ⟨rfl, rfl, rfl⟩ | ⟨rfl, rfl, rfl⟩ |
      ⟨rfl | rfl, rfl, rfl⟩⟩ <;> simp_all
    omega

/-- `mount` and `unmount` take turns. -/
theorem isChain_switches (h : follow? (i, m) l = some (i', m')) :
    (l.filter isSwitch).IsChain (· ≠ ·) ∧
      ∀ a, (l.filter isSwitch).head? = some a → a = if m then .unmount else .mount := by
  induction l generalizing i m with
  | nil => simp
  | cons a l ih =>
    rw [follow?_cons, Option.bind_eq_some_iff] at h
    obtain ⟨⟨j, n⟩, hnext, hrest⟩ := h
    obtain ⟨hchain, hhead⟩ := ih hrest
    have hswitch : ∀ b, isSwitch b = true → (∀ c, (l.filter isSwitch).head? = some c → b ≠ c) →
        ((b :: l).filter isSwitch).IsChain (· ≠ ·) ∧ ((b :: l).filter isSwitch).head? = some b := by
      intro b hb hne
      rw [List.filter_cons_of_pos hb]
      exact ⟨List.isChain_cons.mpr ⟨hne, hchain⟩, rfl⟩
    rcases next?_eq_some hnext with ⟨rfl, -, -, rfl⟩ | ⟨-, -, -, ⟨rfl, rfl⟩ | ⟨rfl, rfl, rfl⟩ | ⟨rfl, rfl, rfl⟩ |
      ⟨rfl | rfl, rfl, rfl⟩⟩
    · exact ⟨hchain, hhead⟩
    · exact ⟨hchain, hhead⟩
    · obtain ⟨hchain, hfirst⟩ := hswitch .mount rfl fun c hc => by simp [hhead c hc]
      exact ⟨hchain, fun c hc => by simpa [hfirst] using hc.symm⟩
    · obtain ⟨hchain, hfirst⟩ := hswitch .unmount rfl fun c hc => by simp [hhead c hc]
      exact ⟨hchain, fun c hc => by simpa [hfirst] using hc.symm⟩
    · exact ⟨hchain, hhead⟩
    · exact ⟨hchain, hhead⟩

/-- `config` and `reduce` are for mounted reducers. -/
theorem mountedAfter_of_work {pre post : List Stage} (h : follow? (i, m) (pre ++ a :: post) = some y)
    (ha : a = .config ∨ a = .reduce) : mountedAfter m pre = true := by
  rw [follow?_append, Option.bind_eq_some_iff] at h
  obtain ⟨⟨j, n⟩, hpre, hrest⟩ := h
  rw [follow?_cons, Option.bind_eq_some_iff] at hrest
  obtain ⟨⟨j', n'⟩, hnext, -⟩ := hrest
  rw [mountedAfter_of_follow? hpre]
  rcases next?_eq_some hnext with ⟨rfl, -⟩ | ⟨-, -, -, ⟨rfl, -⟩ | ⟨rfl, -⟩ | ⟨rfl, -⟩ | ⟨-, rfl, -⟩⟩ <;> simp_all

end Stage

/-! ## Calls -/

/-- What a hook is given is about one action; only the state is another one for the next hook. -/
structure Ctx.SameAction (x y : Ctx) : Prop where
  disk : y.disk = x.disk
  action : y.action = x.action
  cookie : y.cookie = x.cookie

namespace Ctx.SameAction

variable {x y z : Ctx}

theorem refl (x : Ctx) : SameAction x x := ⟨rfl, rfl, rfl⟩

theorem trans (h : SameAction x y) (h' : SameAction y z) : SameAction x z :=
  ⟨h'.disk.trans h.disk, h'.action.trans h.action, h'.cookie.trans h.cookie⟩

theorem eq_mk (h : SameAction x y) : y = ⟨x.disk, y.state, x.action, x.cookie⟩ := by
  obtain ⟨disk, state, action, cookie⟩ := y
  obtain ⟨rfl, rfl, rfl⟩ := h
  rfl

end Ctx.SameAction

/-- A call of a hook: what it was given, and what it said if it broke off. -/
structure HookCall where
  place : Nat
  label : String
  stage : Stage
  ctx : Ctx
  fault : Option Fault

namespace HookCall

/-- The call as a store notes it. -/
def event (c : HookCall) : Event := .hook c.place c.label c.stage c.ctx.label

/-- What comes after a call that broke off is what it was given, with one more error. -/
def Leads (c : HookCall) (x : Ctx) : Prop :=
  ∀ f, c.fault = some f → x = { c.ctx with state := { c.ctx.state with
    errors := c.ctx.state.errors ++ [faultText c.ctx.label c.label c.stage f] } }

/-- The calls of the reducer at a place. -/
def callsAt (p : Nat) (cs : List HookCall) : List HookCall := cs.filter (·.place = p)

/-- The hooks that are called of the reducer at a place. -/
def stagesAt (p : Nat) (cs : List HookCall) : List Stage := (callsAt p cs).map stage

@[simp] theorem callsAt_nil (p : Nat) : callsAt p [] = [] := rfl

@[simp] theorem callsAt_append (p : Nat) (cs cs' : List HookCall) :
    callsAt p (cs ++ cs') = callsAt p cs ++ callsAt p cs' :=
  List.filter_append ..

@[simp] theorem stagesAt_append (p : Nat) (cs cs' : List HookCall) :
    stagesAt p (cs ++ cs') = stagesAt p cs ++ stagesAt p cs' := by
  simp [stagesAt]

theorem callsAt_eq_self {p : Nat} {cs : List HookCall} (h : ∀ c ∈ cs, c.place = p) : callsAt p cs = cs :=
  List.filter_eq_self.mpr fun c hc => decide_eq_true (h c hc)

theorem callsAt_eq_nil {p : Nat} {cs : List HookCall} (h : ∀ c ∈ cs, c.place ≠ p) : callsAt p cs = [] :=
  List.filter_eq_nil_iff.mpr fun c hc => by simpa using h c hc

/-- Calls that hand a context from one to the next: each was given what the one before it left. -/
def Relay : Ctx → List HookCall → Ctx → Prop
  | x, [], y => y = x
  | x, c :: cs, y => c.ctx = x ∧ ∃ x', c.Leads x' ∧ Relay x' cs y

theorem Relay.append {x y z : Ctx} {cs cs' : List HookCall} (h : Relay x cs y) (h' : Relay y cs' z) :
    Relay x (cs ++ cs') z := by
  induction cs generalizing x with
  | nil => exact (show y = x from h) ▸ h'
  | cons c cs ih =>
    obtain ⟨hx, x', hleads, hrest⟩ := h
    exact ⟨hx, x', hleads, ih hrest⟩

theorem Relay.isChain {x y : Ctx} {cs : List HookCall} (h : Relay x cs y) :
    cs.IsChain fun c c' => c.Leads c'.ctx := by
  induction cs generalizing x with
  | nil => exact .nil
  | cons c cs ih =>
    obtain ⟨-, x', hleads, hrest⟩ := h
    cases cs with
    | nil => exact .singleton c
    | cons c' cs =>
      have hx' : c'.ctx = x' := hrest.1
      exact .cons_cons (hx' ▸ hleads) (ih hrest)

end HookCall

open HookCall

theorem faultText_ne_empty (ctx label : String) (stage : Stage) (f : Fault) :
    faultText ctx label stage f ≠ "" := by
  intro h
  simp only [faultText, String.append_eq_empty_iff] at h
  exact absurd h.1.1.1.1.1.2 (by decide)

namespace Station

/-- The call of a hook. -/
def heard (place : Nat) (stage : Stage) (h : Hook ρ α) (s : Station ρ) (t : Turn ρ) : HookCall :=
  ⟨place, s.label, stage, t.ctx, match ((h t.ctx).run.run (s.reducer, t.services)).1 with
    | .ok _ => none
    | .error f => some f⟩

/-- What a call does besides what the hook itself does. -/
structure Called (place : Nat) (stage : Stage) (h : Hook ρ α) (s : Station ρ) (t : Turn ρ)
    (r : Option α × Station ρ × Turn ρ) : Prop where
  label : r.2.1.label = s.label
  initialized : r.2.1.initialized = s.initialized
  mounted : r.2.1.mounted = s.mounted
  trace : r.2.2.trace = t.trace ++ [(heard place stage h s t).event]
  broken : (heard place stage h s t).fault.isSome = r.1.isNone
  leads : (heard place stage h s t).Leads r.2.2.ctx
  sameAction : t.ctx.SameAction r.2.2.ctx

theorem called_call (place : Nat) (stage : Stage) (h : Hook ρ α) (s : Station ρ) (t : Turn ρ) :
    Called place stage h s t (call place stage h s t) := by
  unfold call
  rcases hrun : (h t.ctx).run.run (s.reducer, t.services) with ⟨f | a, r, services⟩
  · refine ⟨rfl, rfl, rfl, rfl, by simp [heard, hrun], ?_, rfl, rfl, rfl⟩
    intro g hg
    obtain rfl : f = g := by simpa [heard, hrun] using hg
    simp [Turn.setState, heard, State.addError, faultText_ne_empty]
  · refine ⟨rfl, rfl, rfl, rfl, by simp [heard, hrun], ?_, rfl, rfl, rfl⟩
    intro g hg
    simp [heard, hrun] at hg

variable [Reducer ρ]

/-! ## The part of a reducer in a job -/

def initCalls (place : Nat) (s : Station ρ) (t : Turn ρ) : List HookCall :=
  if s.initialized then [] else [heard place .init Reducer.init { s with initialized := true } t]

def settleCalls (place : Nat) (s : Station ρ) (t : Turn ρ) : List HookCall :=
  let (c, s', t') := call place .cond Reducer.cond s t
  heard place .cond Reducer.cond s t :: match c.getD s'.mounted, s'.mounted with
    | true, false => [heard place .mount Reducer.mount { s' with mounted := true } t']
    | false, true => [heard place .unmount Reducer.unmount { s' with mounted := false } t']
    | _, _ => []

def workCalls (place : Nat) (s : Station ρ) (t : Turn ρ) : List HookCall :=
  if s.mounted then
    [heard place .config Reducer.config s t,
      heard place .reduce Reducer.reduce (configure place s t).1 (configure place s t).2]
  else []

/-- The calls that `step` makes. -/
def stepCalls (place : Nat) (s : Station ρ) (t : Turn ρ) : List HookCall :=
  let (s₁, t₁) := ensureInit place s t
  let (s₂, t₂) := settle place s₁ t₁
  initCalls place s t ++ settleCalls place s₁ t₁ ++ workCalls place s₂ t₂

/-- The calls that `dismount` makes. -/
def dismountCalls (place : Nat) (s : Station ρ) (t : Turn ρ) : List HookCall :=
  if s.mounted then [heard place .unmount Reducer.unmount { s with mounted := false } t] else []

/-- What is true of a piece of a reducer's part: the calls are all of that reducer and in the trace, and they hand
the context on. -/
structure Makes (place : Nat) (s : Station ρ) (t : Turn ρ) (cs : List HookCall) (r : Station ρ × Turn ρ) :
    Prop where
  label : r.1.label = s.label
  places : ∀ c ∈ cs, c.place = place
  trace : r.2.trace = t.trace ++ cs.map event
  relay : Relay t.ctx cs r.2.ctx
  sameAction : t.ctx.SameAction r.2.ctx

namespace Makes

variable {place : Nat} {s s' : Station ρ} {t t' : Turn ρ} {cs cs' : List HookCall} {r : Station ρ × Turn ρ}

omit [Reducer ρ] in
theorem nil (s : Station ρ) (t : Turn ρ) : Makes place s t [] (s, t) :=
  ⟨rfl, by simp, by simp, rfl, .refl _⟩

omit [Reducer ρ] in
theorem append (h : Makes place s t cs (s', t')) (h' : Makes place s' t' cs' r) :
    Makes place s t (cs ++ cs') r where
  label := h'.label.trans h.label
  places c hc := (List.mem_append.mp hc).elim (h.places c) (h'.places c)
  trace := by rw [h'.trace, h.trace, List.map_append, List.append_assoc]
  relay := h.relay.append h'.relay
  sameAction := h.sameAction.trans h'.sameAction

omit [Reducer ρ] in
theorem call {stage : Stage} {h : Hook ρ α} {s₀ : Station ρ} (hlabel : s₀.label = s.label) :
    Makes place s t [heard place stage h s₀ t] (call place stage h s₀ t).2 :=
  have hc := called_call place stage h s₀ t
  { label := hc.label.trans hlabel
    places := by simp [heard]
    trace := hc.trace
    relay := ⟨rfl, _, hc.leads, rfl⟩
    sameAction := hc.sameAction }

omit [Reducer ρ] in
/-- A call that returned may be followed by any state. -/
theorem returned {stage : Stage} {h : Hook ρ α} {a : α} (hret : (Station.call place stage h s t).1 = some a)
    (state : State) :
    Makes place s t [heard place stage h s t]
      ((Station.call place stage h s t).2.1, (Station.call place stage h s t).2.2.setState state) :=
  have hc := called_call place stage h s t
  { label := hc.label
    places := by simp [heard]
    trace := hc.trace
    relay := ⟨rfl, _, fun f hf => by simpa [hf, hret] using hc.broken, rfl⟩
    sameAction := ⟨hc.sameAction.disk, hc.sameAction.action, hc.sameAction.cookie⟩ }

end Makes

theorem makes_ensureInit (place : Nat) (s : Station ρ) (t : Turn ρ) :
    Makes place s t (initCalls place s t) (ensureInit place s t) := by
  unfold initCalls ensureInit
  split
  · exact .nil s t
  · exact .call rfl

/-- What the condition leads to: nothing, `mount` or `unmount`. -/
theorem settle_cases (place : Nat) (s : Station ρ) (t : Turn ρ) :
    let r := call place .cond Reducer.cond s t
    (r.1.getD s.mounted = s.mounted ∧ settleCalls place s t = [heard place .cond Reducer.cond s t] ∧
      settle place s t = r.2) ∨
    (s.mounted = false ∧ r.1 = some true ∧
      settleCalls place s t = [heard place .cond Reducer.cond s t,
        heard place .mount Reducer.mount { r.2.1 with mounted := true } r.2.2] ∧
      settle place s t = (call place .mount Reducer.mount { r.2.1 with mounted := true } r.2.2).2) ∨
    (s.mounted = true ∧ r.1 = some false ∧
      settleCalls place s t = [heard place .cond Reducer.cond s t,
        heard place .unmount Reducer.unmount { r.2.1 with mounted := false } r.2.2] ∧
      settle place s t = (call place .unmount Reducer.unmount { r.2.1 with mounted := false } r.2.2).2) := by
  have hm := (called_call place .cond Reducer.cond s t).mounted
  unfold settleCalls settle
  generalize call place .cond Reducer.cond s t = r at hm ⊢
  obtain ⟨c, s', t'⟩ := r
  dsimp only at hm ⊢
  rw [hm]
  rcases c with _ | _ | _ <;> cases s.mounted <;> simp

theorem makes_settle (place : Nat) (s : Station ρ) (t : Turn ρ) :
    Makes place s t (settleCalls place s t) (settle place s t) := by
  have hcond : Makes place s t [heard place .cond Reducer.cond s t] (call place .cond Reducer.cond s t).2 :=
    .call rfl
  rcases settle_cases place s t with ⟨-, hcalls, hsettle⟩ | ⟨-, -, hcalls, hsettle⟩ | ⟨-, -, hcalls, hsettle⟩ <;>
    rw [hcalls, hsettle]
  · exact hcond
  · exact hcond.append (.call rfl)
  · exact hcond.append (.call rfl)

theorem makes_configure (place : Nat) (s : Station ρ) (t : Turn ρ) :
    Makes place s t [heard place .config Reducer.config s t] (configure place s t) := by
  have hcall : Makes place s t [heard place .config Reducer.config s t] _ := .call rfl
  unfold configure
  split <;> rename_i heq
  · have := Makes.returned (congrArg Prod.fst heq)
    rw [heq] at this
    exact this _
  · rw [heq] at hcall
    exact hcall

theorem makes_reduce (place : Nat) (s : Station ρ) (t : Turn ρ) :
    Makes place s t [heard place .reduce Reducer.reduce s t] (reduce place s t) := by
  have hcall : Makes place s t [heard place .reduce Reducer.reduce s t] _ := .call rfl
  unfold reduce
  split <;> rename_i heq
  · have := Makes.returned (congrArg Prod.fst heq)
    rw [heq] at this
    exact this _
  · rw [heq] at hcall
    exact hcall

theorem makes_step (place : Nat) (s : Station ρ) (t : Turn ρ) :
    Makes place s t (stepCalls place s t) (step place s t) := by
  have hsettled := (makes_ensureInit place s t).append
    (makes_settle place (ensureInit place s t).1 (ensureInit place s t).2)
  unfold stepCalls step workCalls
  dsimp only
  split
  · exact hsettled.append ((makes_configure place _ _).append (makes_reduce place _ _))
  · rw [List.append_nil]
    exact hsettled

theorem makes_dismount (place : Nat) (s : Station ρ) (t : Turn ρ) :
    Makes place s t (dismountCalls place s t) (dismount place s t) := by
  unfold dismountCalls dismount
  split
  · exact .call rfl
  · exact .nil s t

/-! ## The shape of a part -/

theorem kept_configure (place : Nat) (s : Station ρ) (t : Turn ρ) :
    (configure place s t).1.initialized = s.initialized ∧ (configure place s t).1.mounted = s.mounted := by
  have hc := called_call place .config Reducer.config s t
  unfold configure
  split <;> rename_i heq <;> rw [heq] at hc <;> exact ⟨hc.initialized, hc.mounted⟩

theorem kept_reduce (place : Nat) (s : Station ρ) (t : Turn ρ) :
    (reduce place s t).1.initialized = s.initialized ∧ (reduce place s t).1.mounted = s.mounted := by
  have hc := called_call place .reduce Reducer.reduce s t
  unfold reduce
  split <;> rename_i heq <;> rw [heq] at hc <;> exact ⟨hc.initialized, hc.mounted⟩

theorem kept_ensureInit (place : Nat) (s : Station ρ) (t : Turn ρ) :
    (ensureInit place s t).1.initialized = true ∧ (ensureInit place s t).1.mounted = s.mounted := by
  unfold ensureInit
  split
  · exact ⟨‹_›, rfl⟩
  · have hc := called_call place .init Reducer.init { s with initialized := true } t
    exact ⟨hc.initialized, hc.mounted⟩

theorem stages_initCalls (place : Nat) (s : Station ρ) (t : Turn ρ) :
    (initCalls place s t).map HookCall.stage = if !s.initialized then [.init] else [] := by
  unfold initCalls
  cases s.initialized <;> rfl

theorem stages_workCalls (place : Nat) (s : Station ρ) (t : Turn ρ) :
    (workCalls place s t).map HookCall.stage = if s.mounted then [.config, .reduce] else [] := by
  unfold workCalls
  cases s.mounted <;> rfl

/-- What the condition does to a reducer, and with which hooks. A condition that breaks off changes nothing. -/
structure Settled (s s' : Station ρ) (cs : List HookCall) : Prop where
  stages : cs.map HookCall.stage = .cond :: Stage.switch s.mounted s'.mounted
  initialized : s'.initialized = s.initialized
  cond : ∀ c ∈ cs, c.stage = .cond → c.fault.isSome → s'.mounted = s.mounted

theorem settled_settle (place : Nat) (s : Station ρ) (t : Turn ρ) :
    Settled s (settle place s t).1 (settleCalls place s t) := by
  have hc := called_call place .cond Reducer.cond s t
  have hsound : (call place .cond Reducer.cond s t).1.isSome → (heard place .cond Reducer.cond s t).fault.isSome →
      False := by
    intro hret hfault
    rw [hc.broken] at hfault
    cases hr : (call place .cond Reducer.cond s t).1 <;> simp_all
  rcases settle_cases place s t with ⟨-, hcalls, hsettle⟩ | ⟨hm, hret, hcalls, hsettle⟩ |
    ⟨hm, hret, hcalls, hsettle⟩ <;> rw [hcalls, hsettle]
  · refine ⟨?_, hc.initialized, fun _ _ _ _ => hc.mounted⟩
    rw [hc.mounted]
    cases s.mounted <;> rfl
  · have hmount := called_call place .mount Reducer.mount
      { (call place .cond Reducer.cond s t).2.1 with mounted := true } (call place .cond Reducer.cond s t).2.2
    refine ⟨?_, hmount.initialized.trans hc.initialized, fun c hmem hstage hfault => ?_⟩
    · rw [hmount.mounted, hm]
      rfl
    · rcases List.mem_pair.mp hmem with rfl | rfl
      · exact (hsound (by simp [hret]) hfault).elim
      · cases hstage
  · have hunmount := called_call place .unmount Reducer.unmount
      { (call place .cond Reducer.cond s t).2.1 with mounted := false } (call place .cond Reducer.cond s t).2.2
    refine ⟨?_, hunmount.initialized.trans hc.initialized, fun c hmem hstage hfault => ?_⟩
    · rw [hunmount.mounted, hm]
      rfl
    · rcases List.mem_pair.mp hmem with rfl | rfl
      · exact (hsound (by simp [hret]) hfault).elim
      · cases hstage

/-- The shape of a reducer's part in a job. -/
structure Part (s s' : Station ρ) (cs : List HookCall) : Prop where
  stages : cs.map HookCall.stage = Stage.part (!s.initialized) s.mounted s'.mounted
  initialized : s'.initialized = true
  cond : ∀ c ∈ cs, c.stage = .cond → c.fault.isSome → s'.mounted = s.mounted

theorem kept_step (place : Nat) (s : Station ρ) (t : Turn ρ) :
    let r := settle place (ensureInit place s t).1 (ensureInit place s t).2
    (step place s t).1.initialized = r.1.initialized ∧ (step place s t).1.mounted = r.1.mounted := by
  unfold step
  dsimp only
  split
  · obtain ⟨hi, hm⟩ := kept_configure place (settle place (ensureInit place s t).1 (ensureInit place s t).2).1
      (settle place (ensureInit place s t).1 (ensureInit place s t).2).2
    obtain ⟨hi', hm'⟩ := kept_reduce place (configure place _ _).1 (configure place
      (settle place (ensureInit place s t).1 (ensureInit place s t).2).1
      (settle place (ensureInit place s t).1 (ensureInit place s t).2).2).2
    exact ⟨hi'.trans hi, hm'.trans hm⟩
  · exact ⟨rfl, rfl⟩

theorem part_step (place : Nat) (s : Station ρ) (t : Turn ρ) :
    Part s (step place s t).1 (stepCalls place s t) := by
  obtain ⟨hinit, hmounted⟩ := kept_ensureInit place s t
  obtain ⟨hinit', hmounted'⟩ := kept_step place s t
  have hsettled := settled_settle place (ensureInit place s t).1 (ensureInit place s t).2
  have hstages : (stepCalls place s t).map HookCall.stage =
      Stage.part (!s.initialized) s.mounted (step place s t).1.mounted := by
    simp only [stepCalls, List.map_append, stages_initCalls, stages_workCalls, hsettled.stages, hmounted', hmounted,
      Stage.part]
  refine ⟨hstages, hinit'.trans (hsettled.initialized.trans hinit), fun c hc hstage hfault => ?_⟩
  rw [hmounted', ← hmounted]
  refine hsettled.cond c ?_ hstage hfault
  rcases List.mem_append.mp hc with hc | hc
  · rcases List.mem_append.mp hc with hc | hc
    · have := List.mem_map_of_mem (f := HookCall.stage) hc
      rw [stages_initCalls, hstage] at this
      split at this <;> simp at this
    · exact hc
  · have := List.mem_map_of_mem (f := HookCall.stage) hc
    rw [stages_workCalls, hstage] at this
    split at this <;> simp at this

/-! ## Along the pipeline -/

section All

variable {f : Nat → Station ρ → Turn ρ → Station ρ × Turn ρ} {calls : Nat → Station ρ → Turn ρ → List HookCall}

/-- The calls that `all` makes. -/
def allCalls (f : Nat → Station ρ → Turn ρ → Station ρ × Turn ρ) (calls : Nat → Station ρ → Turn ρ → List HookCall)
    (place : Nat) : List (Station ρ) → Turn ρ → List HookCall
  | [], _ => []
  | s :: rest, t => calls place s t ++ allCalls f calls (place + 1) rest (f place s t).2

variable (hf : ∀ place s t, Makes place s t (calls place s t) (f place s t))
include hf

omit [Reducer ρ] in
theorem place_mem {place : Nat} {ss : List (Station ρ)} {t : Turn ρ} {c : HookCall}
    (hc : c ∈ allCalls f calls place ss t) : place ≤ c.place ∧ c.place < place + ss.length := by
  induction ss generalizing place t with
  | nil => cases hc
  | cons s ss ih =>
    rw [List.length_cons]
    rcases List.mem_append.mp hc with hc | hc
    · have := (hf place s t).places c hc
      omega
    · have := ih hc
      omega

omit [Reducer ρ] in
theorem relay_all (place : Nat) (ss : List (Station ρ)) (t : Turn ρ) :
    Relay t.ctx (allCalls f calls place ss t) (all f place ss t).2.ctx ∧
      (all f place ss t).2.trace = t.trace ++ (allCalls f calls place ss t).map event := by
  induction ss generalizing place t with
  | nil => exact ⟨rfl, by simp [all, allCalls]⟩
  | cons s ss ih =>
    obtain ⟨hrelay, htrace⟩ := ih (place + 1) (f place s t).2
    refine ⟨(hf place s t).relay.append hrelay, ?_⟩
    calc (all f place (s :: ss) t).2.trace = (all f (place + 1) ss (f place s t).2).2.trace := rfl
      _ = (t.trace ++ (calls place s t).map event) ++ _ := by rw [htrace, (hf place s t).trace]
      _ = t.trace ++ (allCalls f calls place (s :: ss) t).map event := by simp [allCalls]

omit [Reducer ρ] in
theorem sameAction_all (place : Nat) (ss : List (Station ρ)) (t : Turn ρ) :
    t.ctx.SameAction (all f place ss t).2.ctx := by
  induction ss generalizing place t with
  | nil => exact .refl _
  | cons s ss ih => exact (hf place s t).sameAction.trans (ih (place + 1) (f place s t).2)

omit [Reducer ρ] in
/-- Each reducer takes its part, and its calls are those of its part. -/
theorem all_part (place : Nat) (ss : List (Station ρ)) (t : Turn ρ) {i : Nat} {s : Station ρ} (hs : ss[i]? = some s) :
    ∃ t', (all f place ss t).1[i]? = some (f (place + i) s t').1 ∧
      callsAt (place + i) (allCalls f calls place ss t) = calls (place + i) s t' := by
  induction ss generalizing place t i with
  | nil => simp at hs
  | cons s₀ ss ih =>
    rw [allCalls, callsAt_append]
    cases i with
    | zero =>
      obtain rfl : s₀ = s := by simpa using hs
      have hrest : callsAt place (allCalls f calls (place + 1) ss (f place s₀ t).2) = [] :=
        callsAt_eq_nil fun c hc => by have := place_mem hf hc; omega
      exact ⟨t, rfl, by rw [Nat.add_zero, hrest, callsAt_eq_self (hf place s₀ t).places, List.append_nil]⟩
    | succ i =>
      obtain ⟨t', hall, hcalls⟩ := ih (place + 1) (f place s₀ t).2 (by simpa using hs)
      have hfirst : callsAt (place + (i + 1)) (calls place s₀ t) = [] :=
        callsAt_eq_nil fun c hc => by have := (hf place s₀ t).places c hc; omega
      rw [Nat.add_right_comm place 1 i] at hall hcalls
      exact ⟨t', hall, by rw [hfirst]; exact hcalls⟩

end All

omit [Reducer ρ] in
theorem length_all (f : Nat → Station ρ → Turn ρ → Station ρ × Turn ρ) (place : Nat) (ss : List (Station ρ))
    (t : Turn ρ) : (all f place ss t).1.length = ss.length := by
  induction ss generalizing place t with
  | nil => rfl
  | cons s ss ih => simp [all, ih]

end Station

end EditorAgent

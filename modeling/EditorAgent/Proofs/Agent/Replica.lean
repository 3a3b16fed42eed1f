import EditorAgent.Proofs.Agent.Answers
import Mathlib

/-!
# The view and the environment in an answer

The view in an answer is the last one that was sent, finalised, and the environment is the last one that was sent, with
defaults for a few variables. `Mirrors` says so of a state. Of the built-in reducers one sets the defaults and the
others touch neither, which is what `Furnishes` asks of reducers; hence a reduction keeps what the states mirror.
-/

namespace EditorAgent

/-! ## Environments -/

namespace Env

theorem find?_sortedInsert (k k' v : String) (es : List (String × String)) :
    (sortedInsert k v es).find? (·.1 == k') = if k = k' then some (k, v) else es.find? (·.1 == k') := by
  induction es with
  | nil => by_cases h : k = k' <;> simp [sortedInsert, h]
  | cons e es ih =>
    rw [sortedInsert]
    by_cases hlt : k < e.1
    · rw [if_pos hlt]
      by_cases h : k = k' <;> simp [h]
    · rw [if_neg hlt]
      by_cases heq : k = e.1
      · rw [if_pos heq]
        by_cases h : k = k'
        · simp [h]
        · simp [h, ← heq]
      · rw [if_neg heq, List.find?_cons, List.find?_cons, ih]
        by_cases h : k = k'
        · have hne : (e.1 == k') = false := by simpa using fun he => heq (h.trans he.symm)
          simp [h, hne]
        · simp [h]

@[simp] theorem get?_insert (e : Env) (k k' v : String) :
    (e.insert k v).get? k' = if k = k' then some v else e.get? k' := by
  rw [get?, insert, find?_sortedInsert]
  by_cases h : k = k' <;> simp [h, get?]

end Env

namespace Builtin

variable {e : Env} {k k' : String} {v v' : Option String}

theorem given?_ne_some_empty (e : Env) (k : String) : given? e k ≠ some "" := by
  simp [given?, Option.filter_eq_some_iff]

theorem get?_of_given? {x : String} (h : given? e k = some x) : e.get? k = some x :=
  (Option.filter_eq_some_iff.mp h).1

theorem given?_congr {e' : Env} (h : e'.get? k = e.get? k) : given? e' k = given? e k := by
  rw [given?, given?, h]

theorem get?_fill_self (e : Env) (k : String) (v : Option String) :
    (fill e k v).get? k = (given? e k).or (v.or (e.get? k)) := by
  unfold fill
  cases hg : given? e k with
  | some x => simp [get?_of_given? hg]
  | none => cases v <;> simp

theorem get?_fill_of_ne (e : Env) (v : Option String) (h : k ≠ k') : (fill e k v).get? k' = e.get? k' := by
  unfold fill
  split
  · simp [h]
  · rfl

/-- The environment that a store shows for one that was sent, variable by variable. -/
def shown? (base e : Env) (k : String) : Option String :=
  if k = "GOOS" then some ((given? e k).getD Go.hostOs)
  else if k = "GOARCH" then some ((given? e k).getD Go.hostArch)
  else if k = "GOROOT" ∨ k = "GOPATH" then (given? e k).or ((given? base k).or (e.get? k))
  else e.get? k

theorem get?_fillEnv (base e : Env) (k : String) : (fillEnv base e).get? k = shown? base e k := by
  rw [fillEnv, shown?]
  by_cases hos : k = "GOOS"
  · subst hos
    have hgiven (v v' : Option String) :
        given? (fill (fill e "GOROOT" v) "GOPATH" v') "GOOS" = given? e "GOOS" := by
      apply given?_congr
      rw [get?_fill_of_ne _ _ (by decide), get?_fill_of_ne _ _ (by decide)]
    rw [get?_fill_of_ne _ _ (by decide), get?_fill_self, hgiven, if_pos rfl]
    cases given? e "GOOS" <;> rfl
  by_cases harch : k = "GOARCH"
  · subst harch
    have hgiven (v v' v'' : Option String) :
        given? (fill (fill (fill e "GOROOT" v) "GOPATH" v') "GOOS" v'') "GOARCH" = given? e "GOARCH" := by
      apply given?_congr
      rw [get?_fill_of_ne _ _ (by decide), get?_fill_of_ne _ _ (by decide), get?_fill_of_ne _ _ (by decide)]
    rw [get?_fill_self, hgiven, if_neg (by decide), if_pos rfl]
    cases given? e "GOARCH" <;> rfl
  rw [get?_fill_of_ne _ _ (Ne.symm harch), get?_fill_of_ne _ _ (Ne.symm hos), if_neg hos, if_neg harch]
  by_cases hpath : k = "GOPATH"
  · subst hpath
    have hroot (v : Option String) : (fill e "GOROOT" v).get? "GOPATH" = e.get? "GOPATH" :=
      get?_fill_of_ne _ _ (by decide)
    rw [get?_fill_self, hroot, given?_congr (hroot _), if_pos (.inr rfl)]
  rw [get?_fill_of_ne _ _ (Ne.symm hpath)]
  by_cases hroot : k = "GOROOT"
  · subst hroot
    rw [get?_fill_self, if_pos (.inl rfl)]
  · rw [get?_fill_of_ne _ _ (Ne.symm hroot), if_neg (by simp [hroot, hpath])]

/-- There is nothing to fill in. -/
def Full (e : Env) (k : String) (v : Option String) : Prop := v = none ∨ (given? e k).isSome

theorem Full.fill_eq (h : Full e k v) : fill e k v = e := by
  unfold fill
  rcases h with rfl | h
  · cases given? e k <;> rfl
  · obtain ⟨x, hx⟩ := Option.isSome_iff_exists.mp h
    rw [hx]

theorem full_fill (hv : v ≠ some "") : Full (fill e k v) k v := by
  cases v with
  | none => exact .inl rfl
  | some x =>
    right
    have hx : x ≠ "" := fun h => hv (h ▸ rfl)
    rw [given?, get?_fill_self]
    cases hg : given? e k with
    | none => simp [hx]
    | some y =>
      have hy : y ≠ "" := fun h => given?_ne_some_empty e k (h ▸ hg)
      simp [hy]

theorem Full.fill (h : Full e k v) (k' : String) (v' : Option String) : Full (fill e k' v') k v := by
  rcases h with rfl | h
  · exact .inl rfl
  by_cases hk : k' = k
  · subst hk
    rw [(show Full e k' v' from .inr h).fill_eq]
    exact .inr h
  · exact .inr (by rwa [given?_congr (get?_fill_of_ne e v' hk)])

theorem fillEnv_fillEnv (base e : Env) : fillEnv base (fillEnv base e) = fillEnv base e := by
  have hroot : Full (fillEnv base e) "GOROOT" (given? base "GOROOT") :=
    ((full_fill (given?_ne_some_empty base _)).fill ..).fill .. |>.fill ..
  have hpath : Full (fillEnv base e) "GOPATH" (given? base "GOPATH") :=
    ((full_fill (given?_ne_some_empty base _)).fill ..).fill ..
  have hos : Full (fillEnv base e) "GOOS" (some Go.hostOs) := (full_fill (by decide)).fill ..
  have harch : Full (fillEnv base e) "GOARCH" (some Go.hostArch) := full_fill (by decide)
  have hstep : fillEnv base (fillEnv base e) = Builtin.fill (Builtin.fill (Builtin.fill (Builtin.fill (fillEnv base e)
      "GOROOT" (given? base "GOROOT")) "GOPATH" (given? base "GOPATH")) "GOOS" (some Go.hostOs))
      "GOARCH" (some Go.hostArch) := rfl
  rw [hstep, hroot.fill_eq, hpath.fill_eq, hos.fill_eq, harch.fill_eq]

end Builtin

/-! ## Reducers -/

variable {ρ β α γ : Type}

/-- A piece of a hook of a reducer that changes environments by `g`. Whether it returns or breaks off, it adds no
reducers and the reducer stays of that kind; only a reducer that changes nothing may break off. -/
def Hook.Steady (fills : ρ → Env → Env) (g : Env → Env) (act : ExceptT Fault (StateM (ρ × Services ρ)) α)
    (ok : α → Prop) : Prop :=
  ∀ r s, fills r = g →
    let out := act.run.run (r, s)
    out.2.2.added = s.added ∧ fills out.2.1 = g ∧
      match out.1 with
      | .ok a => ok a
      | .error _ => g = id

/-- Reducers that leave the view alone and change the environment, if they do, in one way. -/
class Reducer.Furnishes (ρ : Type) [Reducer ρ] where
  /-- What a reducer makes of an environment. -/
  fills : ρ → Env → Env
  init (c : Ctx) (g : Env → Env) : Hook.Steady fills g (Reducer.init c) fun _ => True
  cond (c : Ctx) (g : Env → Env) : Hook.Steady fills g (Reducer.cond c) fun b => b = true ∨ g = id
  mount (c : Ctx) (g : Env → Env) : Hook.Steady fills g (Reducer.mount c) fun _ => True
  unmount (c : Ctx) (g : Env → Env) : Hook.Steady fills g (Reducer.unmount c) fun _ => True
  config (c : Ctx) (g : Env → Env) : Hook.Steady fills g (Reducer.config c) fun _ => True
  reduce (c : Ctx) (g : Env → Env) :
    Hook.Steady fills g (Reducer.reduce c) fun s => s.view = c.state.view ∧ s.env = g c.state.env

open Reducer.Furnishes (fills)

namespace Hook

variable {f : β → Env → Env} {f' : ρ → Env → Env} {g : Env → Env} {c : Ctx} {ok : α → Prop}

theorem Steady.pure {a : α} (h : ok a) : Steady f' g (Pure.pure a) ok := fun _ _ hr => ⟨rfl, hr, h⟩

theorem Steady.bind {act : ExceptT Fault (StateM (ρ × Services ρ)) γ}
    {next : γ → ExceptT Fault (StateM (ρ × Services ρ)) α} (h : Steady f' g act fun _ => True)
    (hnext : ∀ a, Steady f' g (next a) ok) : Steady f' g (act >>= next) ok := by
  intro r s hr
  obtain ⟨hadded, hkind, hout⟩ := h r s hr
  dsimp only
  rw [ExceptT.run_bind, StateT.run_bind]
  rcases hrun : act.run.run (r, s) with ⟨_ | a, r', s'⟩ <;> rw [hrun] at hadded hkind hout
  · exact ⟨hadded, hkind, hout⟩
  · obtain ⟨hadded', hkind', hout'⟩ := hnext a r' s' hkind
    exact ⟨hadded'.trans hadded, hkind', hout'⟩

theorem Steady.onSession (act : StateM Go.Session α) : Steady f' g (onSession act) fun _ => True :=
  fun _ _ hr => ⟨rfl, hr, trivial⟩

theorem Steady.throw (e : Fault) : Steady f' id (throw e) ok := fun _ _ hr => ⟨rfl, hr, rfl⟩

theorem Steady.either {h : Hook β α} {h' : Hook ρ α} (hh : Steady f g (h c) ok) (hh' : Steady f' g (h' c) ok) :
    Steady (Sum.elim f f') g (either h h' c) ok := by
  intro r s hr
  cases r with
  | inl b =>
    obtain ⟨hadded, hkind, hout⟩ := hh b { s with added := [] } hr
    exact ⟨(congrArg (s.added ++ List.map Sum.inl ·) hadded).trans (List.append_nil _), hkind, hout⟩
  | inr b =>
    obtain ⟨hadded, hkind, hout⟩ := hh' b { s with added := [] } hr
    exact ⟨(congrArg (s.added ++ List.map Sum.inr ·) hadded).trans (List.append_nil _), hkind, hout⟩

end Hook

instance [Reducer β] [Reducer ρ] [hβ : Reducer.Furnishes β] [hρ : Reducer.Furnishes ρ] :
    Reducer.Furnishes (β ⊕ ρ) where
  fills := Sum.elim fills fills
  init c g := .either (hβ.init c g) (hρ.init c g)
  cond c g := .either (hβ.cond c g) (hρ.cond c g)
  mount c g := .either (hβ.mount c g) (hρ.mount c g)
  unmount c g := .either (hβ.unmount c g) (hρ.unmount c g)
  config c g := .either (hβ.config c g) (hρ.config c g)
  reduce c g := .either (hβ.reduce c g) (hρ.reduce c g)

instance : Reducer.Furnishes Empty where
  fills := Empty.elim
  init _ _ r := r.elim
  cond _ _ r := r.elim
  mount _ _ r := r.elim
  unmount _ _ r := r.elim
  config _ _ r := r.elim
  reduce _ _ r := r.elim

namespace Builtin

def fills : Builtin → Env → Env
  | .envDefaults base => fillEnv base
  | .ready _ | .typeCheck _ => id

theorem steady_breakOff (c : Go.TypeCheck) (x : Ctx) {ok : State → Prop} :
    Hook.Steady fills id (breakOff c x) ok := by
  unfold breakOff
  dsimp only
  split
  · exact (Hook.Steady.onSession _).bind fun _ =>
      Hook.Steady.bind (fun _ _ _ => ⟨rfl, rfl, trivial⟩) fun _ => .throw _
  · exact .throw _

theorem steady_reduceCheck (c : Go.TypeCheck) (x : Ctx) :
    Hook.Steady fills id (reduceCheck c x) fun s => s.view = x.state.view ∧ s.env = x.state.env := by
  have hcheck (saved cancelled : Bool) : Hook.Steady fills id (do
      let c ← Hook.onSession (c.check x.disk x.state.env x.state.view saved cancelled)
      modify fun p => (Builtin.typeCheck c, p.2)
      return x.state.addIssues (c.issuesFor x.state.view))
      fun s => s.view = x.state.view ∧ s.env = x.state.env :=
    (Hook.Steady.onSession _).bind fun _ =>
      Hook.Steady.bind (fun _ _ _ => ⟨rfl, rfl, trivial⟩) fun _ => .pure ⟨rfl, rfl⟩
  unfold reduceCheck
  split
  · refine Hook.Steady.bind (fun _ _ hr => ⟨rfl, hr, trivial⟩) fun y => ?_
    dsimp only
    split
    · exact steady_breakOff c x
    · exact hcheck _ _
  · split <;> exact .pure ⟨rfl, rfl⟩

theorem view_addStatus (s : State) (item : String) : (s.addStatus item).view = s.view := by
  unfold State.addStatus
  split <;> rfl

theorem env_addStatus (s : State) (item : String) : (s.addStatus item).env = s.env := by
  unfold State.addStatus
  split <;> rfl

instance : Reducer.Furnishes Builtin where
  fills := fills
  init _ _ := .pure trivial
  cond c g r s hr := by
    cases r with
    | envDefaults | ready => exact ⟨rfl, hr, .inl rfl⟩
    | typeCheck => exact ⟨rfl, hr, .inr hr.symm⟩
  mount _ _ := .pure trivial
  unmount c g r s hr := by
    cases r with
    | envDefaults | ready => exact ⟨rfl, hr, trivial⟩
    | typeCheck => exact ⟨rfl, hr, trivial⟩
  config _ _ := .pure trivial
  reduce c g r s hr := by
    subst hr
    cases r with
    | envDefaults base => exact ⟨rfl, rfl, rfl, rfl⟩
    | ready name =>
      refine ⟨rfl, rfl, ?_⟩
      show (if _ then _ else _ : State).view = _ ∧ (if _ then _ else _ : State).env = _
      split
      · exact ⟨view_addStatus .., env_addStatus ..⟩
      · exact ⟨rfl, rfl⟩
    | typeCheck t => exact steady_reduceCheck t c (.typeCheck t) s rfl

end Builtin

/-! ## Turns -/

/-- What a reducer may do to a turn: the view stays, the environment is changed by `g`, and no reducers are added. -/
structure Turn.Furnished (g : Env → Env) (t t' : Turn ρ) : Prop where
  view : t'.ctx.state.view = t.ctx.state.view
  env : t'.ctx.state.env = g t.ctx.state.env
  added : t'.services.added = t.services.added

namespace Turn.Furnished

theorem refl (t : Turn ρ) : Furnished id t t := ⟨rfl, rfl, rfl⟩

theorem trans {g g' : Env → Env} {t u v : Turn ρ} (h : Furnished g t u) (h' : Furnished g' u v) :
    Furnished (g' ∘ g) t v :=
  ⟨h'.view.trans h.view, h'.env.trans (congrArg g' h.env), h'.added.trans h.added⟩

theorem addError (t : Turn ρ) (services : Services ρ) (trace : List Event) (message : String)
    (h : services.added = t.services.added) :
    Furnished id t ({ t with services, trace }.setState (t.ctx.state.addError message)) := by
  refine ⟨?_, ?_, h⟩ <;> exact (apply_ite _ _ _ _).trans (ite_self _)

end Turn.Furnished

namespace Station

variable [Reducer ρ] [hρ : Reducer.Furnishes ρ] {g : Env → Env} {s : Station ρ} {t : Turn ρ}

omit [Reducer ρ] hρ in
theorem call_furnished {f : ρ → Env → Env} {h : Hook ρ α} {ok : α → Prop} (hh : Hook.Steady f g (h t.ctx) ok)
    (hs : f s.reducer = g) (place : Nat) (stage : Stage) :
    let out := call place stage h s t
    t.Furnished id out.2.2 ∧ f out.2.1.reducer = g ∧ out.2.1.mounted = s.mounted ∧
      match out.1 with
      | some a => ok a ∧ out.2.2.ctx = t.ctx
      | none => g = id := by
  obtain ⟨hadded, hkind, hout⟩ := hh s.reducer t.services hs
  unfold call
  rcases hrun : (h t.ctx).run.run (s.reducer, t.services) with ⟨_ | a, r, services⟩ <;>
    rw [hrun] at hadded hkind hout
  · exact ⟨.addError t services _ _ hadded, hkind, rfl, hout⟩
  · exact ⟨⟨rfl, rfl, hadded⟩, hkind, rfl, hout, rfl⟩

theorem ensureInit_furnished (hs : fills s.reducer = g) (place : Nat) :
    t.Furnished id (ensureInit place s t).2 ∧ fills (ensureInit place s t).1.reducer = g := by
  unfold ensureInit
  split
  · exact ⟨.refl t, hs⟩
  · obtain ⟨ht, hkind, -, -⟩ := call_furnished (hρ.init t.ctx g) (s := { s with initialized := true }) hs place .init
    exact ⟨ht, hkind⟩

/-- A reducer that changes environments is mounted. -/
theorem settle_furnished (hs : fills s.reducer = g) (place : Nat) :
    t.Furnished id (settle place s t).2 ∧ fills (settle place s t).1.reducer = g ∧
      ((settle place s t).1.mounted = true ∨ g = id) := by
  obtain ⟨ht, hkind, hmounted, hout⟩ := call_furnished (hρ.cond t.ctx g) hs place .cond
  unfold settle
  rcases hcall : call place .cond Reducer.cond s t with ⟨c, s', t'⟩
  rw [hcall] at ht hkind hmounted hout
  dsimp only at ht hkind hmounted hout ⊢
  have hmount := call_furnished (hρ.mount t'.ctx g) (s := { s' with mounted := true }) hkind place .mount
  have hunmount := call_furnished (hρ.unmount t'.ctx g) (s := { s' with mounted := false }) hkind place .unmount
  have hcond : c.getD s'.mounted = true ∨ g = id := by
    cases c with
    | none => exact .inr hout
    | some b => exact hout.1
  split
  · obtain ⟨ht', hkind', hmounted', -⟩ := hmount
    exact ⟨ht.trans ht', hkind', .inl hmounted'⟩
  · rename_i hno _
    obtain ⟨ht', hkind', -, -⟩ := hunmount
    exact ⟨ht.trans ht', hkind', hcond.imp_left fun h => absurd (hno.symm.trans h) (by decide)⟩
  · rename_i hmount hunmount
    refine ⟨ht, hkind, hcond.imp_left fun h => ?_⟩
    cases hm : s'.mounted with
    | true => rfl
    | false => exact absurd hm (hmount h)

theorem configure_furnished (hs : fills s.reducer = g) (place : Nat) :
    t.Furnished id (configure place s t).2 ∧ fills (configure place s t).1.reducer = g := by
  obtain ⟨ht, hkind, -, -⟩ := call_furnished (hρ.config t.ctx g) hs place .config
  unfold configure
  split <;> rename_i heq <;> rw [heq] at ht hkind
  · exact ⟨⟨ht.view, ht.env, ht.added⟩, hkind⟩
  · exact ⟨ht, hkind⟩

theorem reduce_furnished (hs : fills s.reducer = g) (place : Nat) :
    t.Furnished g (reduce place s t).2 ∧ fills (reduce place s t).1.reducer = g := by
  obtain ⟨ht, hkind, -, hout⟩ := call_furnished (hρ.reduce t.ctx g) hs place .reduce
  unfold reduce
  split <;> rename_i heq <;> rw [heq] at ht hkind hout
  · exact ⟨⟨hout.1.1, hout.1.2, ht.added⟩, hkind⟩
  · obtain rfl : g = id := hout
    exact ⟨ht, hkind⟩

/-- The part of a reducer in a reduction. -/
theorem step_furnished (hs : fills s.reducer = g) (place : Nat) :
    t.Furnished g (step place s t).2 ∧ fills (step place s t).1.reducer = g := by
  obtain ⟨hinit, hs₁⟩ := ensureInit_furnished (t := t) hs place
  obtain ⟨hsettle, hs₂, hmounted⟩ := settle_furnished (t := (ensureInit place s t).2) hs₁ place
  unfold step
  dsimp only
  split
  · obtain ⟨hconfig, hs₃⟩ := configure_furnished (t := (settle place _ _).2) hs₂ place
    obtain ⟨hreduce, hs₄⟩ := reduce_furnished (t := (configure place _ _).2) hs₃ place
    exact ⟨((hinit.trans hsettle).trans hconfig).trans hreduce, hs₄⟩
  · rename_i hidle
    obtain rfl : g = id := hmounted.resolve_left hidle
    exact ⟨hinit.trans hsettle, hs₂⟩

/-- What each reducer of a pipeline makes of an environment. -/
def fillers (ss : List (Station ρ)) : List (Env → Env) := ss.map fun s => fills s.reducer

/-- A whole pipeline. -/
theorem all_step_furnished (place : Nat) (ss : List (Station ρ)) (t : Turn ρ) :
    t.Furnished ((fillers ss).foldr (fun f g => g ∘ f) id) (all step place ss t).2 ∧
      fillers (all step place ss t).1 = fillers ss := by
  induction ss generalizing place t with
  | nil => exact ⟨.refl t, rfl⟩
  | cons s ss ih =>
    obtain ⟨hstep, hs⟩ := step_furnished (t := t) (s := s) rfl place
    obtain ⟨hrest, hss⟩ := ih (place + 1) (step place s t).2
    exact ⟨hstep.trans hrest, congrArg₂ List.cons hs hss⟩

end Station

/-! ## Views -/

/-- The fields of a view fit each other. -/
structure View.Sound (v : View) : Prop where
  pos : v.pos ≤ v.src.length
  cursor : (v.row, v.col) = View.rowCol v.src v.pos
  hash : v.src ≠ [] → v.hash = View.srcHash v.src
  name (n : String) : Path.fileName? v.path = some n → v.name = n

theorem View.sound_finalize (v : View) : v.finalize.Sound where
  pos := Nat.min_le_right ..
  cursor := rfl
  hash h := by
    have h : v.src ≠ [] := h
    exact if_neg (by simpa using h)
  name n h := by
    have hpath : v.path ≠ "" := by
      intro hpath
      have hnone : Path.fileName? "" = none := by decide
      have h : Path.fileName? v.path = some n := h
      rw [hpath, hnone] at h
      cases h
    have h : Path.fileName? v.path = some n := h
    show (if v.path = "" then v.name else (Path.fileName? v.path).getD v.name) = n
    rw [if_neg hpath, h, Option.getD_some]

theorem View.sound_default : View.Sound {} where
  pos := Nat.le_refl _
  cursor := by cbv
  hash h := absurd rfl h
  name n h := by
    have hnone : Path.fileName? "" = none := by decide
    exact absurd (hnone.symm.trans h) (by simp)

/-! ## Stores -/

namespace Agent

open Builtin (fillEnv shown?)
open Station (fillers)

/-- The environment that was sent last, or the one to start with. -/
def lastEnv (base : Env) (sent : List Props) : Env := (sent.filterMap Props.env).getLast?.getD base

/-- The view that was sent last, finalised, or the view of no buffer. -/
def lastView (sent : List Props) : View := ((sent.filterMap Props.view).getLast?.map View.finalize).getD {}

/-- What a state shows after properties were sent to an agent that started with an environment. -/
structure Mirrors (base : Env) (sent : List Props) (st : State) : Prop where
  view : st.view = lastView sent
  sound : st.view.Sound
  env : st.env = fillEnv base (lastEnv base sent)
  var (k : String) : st.env.get? k = shown? base (lastEnv base sent) k

variable {base : Env} {sent : List Props} {st : State}

theorem lastEnv_snoc (p : Props) : lastEnv base (sent ++ [p]) = p.env.getD (lastEnv base sent) := by
  rw [lastEnv, lastEnv, List.filterMap_append]
  cases h : p.env <;> simp [h]

theorem lastView_snoc (p : Props) :
    lastView (sent ++ [p]) = (p.view.map View.finalize).getD (lastView sent) := by
  rw [lastView, lastView, List.filterMap_append]
  cases h : p.view <;> simp [h]

theorem sound_lastView (sent : List Props) : (lastView sent).Sound := by
  rw [lastView]
  cases (sent.filterMap Props.view).getLast? with
  | none => exact View.sound_default
  | some v => exact v.sound_finalize

theorem mirrors_of_eq (hview : st.view = lastView sent) (henv : st.env = fillEnv base (lastEnv base sent)) :
    Mirrors base sent st :=
  ⟨hview, hview ▸ sound_lastView sent, henv, fun _ => henv ▸ Builtin.get?_fillEnv ..⟩

section Stores

variable {ρ : Type} [Reducer ρ] [Reducer.Quiet ρ] [Reducer.Furnishes ρ] {s : Store (Builtin ⊕ ρ)}

/-- One reducer fills gaps with what an agent started with, the others leave the environment as it is. -/
def Stocked (base : Env) (s : Store (Builtin ⊕ ρ)) : Prop :=
  (fillers (s.stations ++ s.incoming)).foldr (fun f g => g ∘ f) id = fillEnv base

/-- A reduction shows the properties that it brought, or else what was shown before. -/
theorem mirrors_reduce (d : Disk) (hs : Stocked base s) (hview : s.state.view = lastView sent)
    (henv : fillEnv base s.state.env = fillEnv base (lastEnv base sent)) (action : Action) (cookie : String)
    (props : Props) :
    Mirrors base (sent ++ [props]) (s.reduce d action cookie props).state ∧
      Stocked base (s.reduce d action cookie props) := by
  obtain ⟨hturn, hfillers⟩ := Station.all_step_furnished 0 (s.stations ++ s.incoming)
    { ctx := ⟨d, props.apply s.state.resetEphemeral, action, cookie⟩
      services :=
        { session := { s.session with profile := s.session.profile.push action.name }
          cancelled := s.cancelled } }
  rw [Store.reduce_eq]
  refine ⟨mirrors_of_eq ?_ ?_, ?_⟩
  · rw [lastView_snoc, ← hview]
    exact hturn.view
  · have hfilled : (s.turn d action cookie props).2.ctx.state.env = fillEnv base (props.env.getD s.state.env) :=
      hturn.env.trans (congrFun hs _)
    rw [lastEnv_snoc]
    refine hfilled.trans ?_
    cases props.env with
    | none => exact henv
    | some e => rfl
  · have hadded : (s.turn d action cookie props).2.services.added = [] := hturn.added
    rw [Stocked, hadded, List.map_nil, List.append_nil]
    exact (congrArg (List.foldr (fun f g => g ∘ f) id) hfillers).trans hs

/-- What was sent along with the requests that were dispatched. -/
def sentWith (registry : Registry) (rs : List Request) : List Props :=
  rs.filterMap fun r => (accept registry r).toOption.map (·.2)

/-- One request. -/
theorem mirrors_after (d : Disk) (registry : Registry) (hs : Stocked base s) (hst : Mirrors base sent s.state)
    (r : Request) : Mirrors base (sent ++ sentWith registry [r]) (after d registry s r).state ∧
      Stocked base (after d registry s r) := by
  unfold after sentWith
  cases hr : accept registry r with
  | error e => simpa [hr, Except.toOption] using ⟨hst, hs⟩
  | ok x =>
    have henv : fillEnv base s.state.env = fillEnv base (lastEnv base sent) := by
      rw [hst.env, Builtin.fillEnv_fillEnv]
    simpa [hr, Except.toOption] using mirrors_reduce d hs hst.view henv x.1 r.cookie x.2

/-- Requests one after the other. -/
theorem exists_states (d : Disk) (registry : Registry) (hs : Stocked base s) (hst : Mirrors base sent s.state)
    (rs : List Request) : ∃ states : List State,
      (answers d registry s rs).map Response.state = states.map State.toValue ∧
      states.length = rs.length ∧
      ∀ k st, states[k]? = some st → Mirrors base (sent ++ sentWith registry (rs.take (k + 1))) st := by
  induction rs generalizing s sent with
  | nil => exact ⟨[], rfl, rfl, fun _ _ h => by cases h⟩
  | cons r rs ih =>
    obtain ⟨hst', hs'⟩ := mirrors_after d registry hs hst r
    obtain ⟨states, hstates, hlength, hall⟩ := ih hs' hst'
    refine ⟨(after d registry s r).state :: states, ?_, congrArg (· + 1) hlength, ?_⟩
    · have hanswer : (answer d registry s r).state = (after d registry s r).state.toValue := by
        unfold answer
        split <;> rfl
      rw [answers, List.map_cons, hstates, hanswer, List.map_cons]
    · rintro (_ | k) st hk
      · obtain rfl : (after d registry s r).state = st := by simpa using hk
        exact hst'
      · have hrest := hall k st hk
        rwa [List.append_assoc, sentWith, sentWith, ← List.filterMap_append] at hrest

end Stores

/-! ## Runs -/

theorem stocked_awake {c : AgentConfig} {a : Agent Empty} (h : make c = .ok a) (t : Go.TypeCheck) :
    Stocked c.env (awake (a.use (.inl (.typeCheck t)))) ∧
      (awake (a.use (.inl (.typeCheck t)))).state = { env := c.env } := by
  unfold make at h
  split at h
  · cases h
  · split at h <;> cases h
    exact ⟨rfl, rfl⟩

/-- The state in each answer of an agent with the built-in reducers mirrors what was sent along with the requests that
had been dispatched until then. -/
theorem states_mirror_requests {c : AgentConfig} {a : Agent Empty} (h : make c = .ok a) (t : Go.TypeCheck)
    (registry : Registry) (d : Disk) (i : Input) :
    let a := ({ a with registry } : Agent Empty).use (.inl (.typeCheck t))
    ∃ rs e, Reads a.codec registry i rs e ∧ ∃ states : List State,
      (responses (a.run d i).store.trace).map Response.state = states.map State.toValue ∧
      states.length = rs.length + 1 ∧
      ∀ k st, states[k]? = some st → Mirrors c.env (sentWith registry (rs.take k)) st := by
  intro a'
  have hidle : Idle a'.store := (((Built.make h).register registry).use (.inl (.typeCheck t))).idle
  obtain ⟨hstocked, hstate⟩ := stocked_awake h t
  obtain ⟨rs, e, hreads⟩ := exists_reads a'.codec registry i
  obtain ⟨-, hresponses⟩ := responses_run d hidle hreads
  obtain ⟨hopened, hstocked'⟩ := mirrors_reduce d hstocked
    (show (awake _).state.view = lastView [] from congrArg State.view hstate) (by rw [hstate]; rfl) .started "" {}
  have hopened : Mirrors c.env [] (opened d a').state :=
    mirrors_of_eq hopened.view hopened.env
  obtain ⟨states, hstates, hlength, hall⟩ := exists_states d registry hstocked' hopened rs
  refine ⟨rs, e, hreads, (opened d a').state :: states, ?_, congrArg (· + 1) hlength, ?_⟩
  · rw [hresponses, List.map_cons, List.map_cons]
    exact congrArg _ hstates
  · rintro (_ | k) st hk
    · obtain rfl : (opened d a').state = st := by simpa using hk
      exact hopened
    · exact hall k st hk

/-! ### One view

The input is one request, with a view. -/

namespace OneView

def input : Input :=
  ⟨Utf8.encode "\x7b\"Action\":\x7b\"Name\":\"QueryIssues\"\x7d,\"Props\":\x7b\"View\":\x7b\"Path\":\"/b.go\"\x7d\x7d\x7d",
    none⟩

def request : Request :=
  ⟨"", "QueryIssues", ⟨.json, []⟩, some ⟨.json, Utf8.encode "\x7b\"View\":\x7b\"Path\":\"/b.go\"\x7d\x7d"⟩⟩

def props : Props := { view := some { path := "/b.go" } }

theorem next_input : Request.next .json input = .ok (some (request, ⟨[], none⟩)) := by cbv

theorem accept_request : accept .builtins request = .ok (.signal "QueryIssues", props) := by cbv

theorem sentWith_request : sentWith .builtins ([request].take 1) = [props] := by
  simp [sentWith, accept_request, Except.toOption]

theorem fileName?_path : Path.fileName? (lastView [props]).path = some "b.go" := by
  show Path.fileName? "/b.go" = some "b.go"
  decide

theorem reads_input : Reads .json .builtins input [request] (.ok ()) :=
  .more next_input (fun _ h => by simpa [Action.shutdown] using accept_request.symm.trans h) (.ended rfl)

end OneView

open OneView in
theorem states_mirror_requests_oneView :
    ∃ a : Agent Empty, make {} = .ok a ∧ ∃ first second : State,
      (responses ((({ a with registry := .builtins } : Agent Empty).use (.inl (.typeCheck {}))).run ⟨[]⟩
        input).store.trace).map Response.state = [first.toValue, second.toValue] ∧
      first.view = {} ∧ second.view.name = "b.go" ∧ second.env.get? "GOOS" = some "linux" := by
  obtain ⟨a, ha⟩ : ∃ a : Agent Empty, make {} = .ok a := ⟨_, rfl⟩
  have hcodec : a.codec = .json := by cases ha; rfl
  obtain ⟨rs, e, hreads, states, hstates, hlength, hall⟩ :=
    states_mirror_requests ha {} .builtins ⟨[]⟩ input
  obtain ⟨rfl, -⟩ := reads_input.unique (hcodec ▸ hreads)
  match states, hlength with
  | [first, second], _ =>
    have hfirst : first.view = lastView [] := (hall 0 first rfl).view
    have hsecond := hall 1 second rfl
    rw [sentWith_request] at hsecond
    refine ⟨a, ha, first, second, hstates, hfirst, ?_, ?_⟩
    · exact hsecond.sound.name "b.go" (hsecond.view ▸ fileName?_path)
    · rw [hsecond.var]
      rfl

end Agent
end EditorAgent

import EditorAgent.Store.Profile
import Mathlib

/-!
# What a profile records

Operations on a profile say of paths that they are opened, closed or sampled. One operation changes the timing at one
path and makes at most one node, after its siblings, so that a tree which holds what was said keeps doing so
(`Told.snoc`), and after a run it holds what the run says (`Keeps.run`).
-/

namespace EditorAgent

/-! ## Nodes by their paths -/

namespace ProfileNode

/-- The node at the end of a path. -/
def reach? : List String → ProfileNode → Option ProfileNode
  | [], n => some n
  | k :: path, n => (n.child? k).bind (reach? path)

/-- The names of the children at the end of a path. -/
def namesAt (path : List String) (n : ProfileNode) : List String :=
  ((n.reach? path).map fun m => m.children.map name).getD []

variable {f g : Timing → Timing} {n m : ProfileNode} {path q : List String} {k : String}

theorem timing_of_reach? (h : n.reach? path = some m) : n.timingAt path = m.timing := by
  induction path generalizing n with
  | nil =>
    obtain rfl := Option.some.inj h
    rfl
  | cons k path ih =>
    obtain ⟨c, hc, hm⟩ := Option.bind_eq_some_iff.mp h
    rw [timingAt, hc]
    exact ih hm

theorem timingAt_of_reach?_eq_none (h : n.reach? path = none) : n.timingAt path = {} := by
  induction path generalizing n with
  | nil => cases h
  | cons k path ih =>
    rw [reach?] at h
    rw [timingAt]
    cases hc : n.child? k with
    | none => rfl
    | some c =>
      rw [hc] at h
      exact ih h

theorem name_of_child? (h : n.child? k = some m) : m.name = k := by simpa using List.find?_some h

theorem name_of_reach? (h : n.reach? path = some m) : m.name = path.getLastD n.name := by
  induction path generalizing n with
  | nil =>
    obtain rfl := Option.some.inj h
    rfl
  | cons k path ih =>
    obtain ⟨c, hc, hm⟩ := Option.bind_eq_some_iff.mp h
    rw [List.getLastD_cons, ← name_of_child? hc]
    exact ih hm

theorem child?_of_mem {c : ProfileNode} (hnames : (n.children.map name).Nodup) (hc : c ∈ n.children) :
    n.child? c.name = some c := by
  rw [child?]
  generalize n.children = cs at hnames hc
  induction cs with
  | nil => cases hc
  | cons d cs ih =>
    rw [List.map_cons, List.nodup_cons] at hnames
    rcases List.mem_cons.mp hc with rfl | hc
    · simp
    · have hne : d.name ≠ c.name := fun heq => hnames.1 (heq ▸ List.mem_map_of_mem hc)
      rw [List.find?_cons_of_neg (by simpa using hne)]
      exact ih hnames.2 hc

theorem namesAt_of_reach? (h : n.reach? path = some m) : n.namesAt path = m.children.map name := by
  rw [namesAt, h]
  rfl

theorem reach?_append : n.reach? (path ++ q) = (n.reach? path).bind (reach? q) := by
  induction path generalizing n with
  | nil => rfl
  | cons k path ih =>
    rw [List.cons_append, reach?, reach?]
    cases n.child? k with
    | none => rfl
    | some c => exact ih

theorem isSome_child?_iff : (n.child? k).isSome ↔ k ∈ n.children.map name := by
  rw [child?, List.find?_isSome, List.mem_map]
  simp

theorem isSome_reach?_concat_iff : (n.reach? (path ++ [k])).isSome ↔ k ∈ n.namesAt path := by
  rw [reach?_append, namesAt]
  cases n.reach? path with
  | none => simp
  | some m =>
    have hone : m.reach? [k] = m.child? k := by
      rw [reach?]
      cases m.child? k <;> rfl
    rw [Option.bind_some, hone, isSome_child?_iff]
    rfl

@[simp] theorem name_leaf (k : String) : (leaf k).name = k := rfl

@[simp] theorem name_update (f : Timing → Timing) (path : List String) (n : ProfileNode) :
    (n.update f path).name = n.name := by
  cases n
  cases path <;> rfl

/-! ### One update -/

theorem map_name_upsert {h : ProfileNode → ProfileNode} (hname : ∀ c, (h c).name = c.name) (k : String)
    (cs : List ProfileNode) :
    (upsert k h cs).map name = if k ∈ cs.map name then cs.map name else cs.map name ++ [k] := by
  induction cs with
  | nil => simp [upsert, hname]
  | cons c cs ih =>
    rw [upsert]
    by_cases hk : c.name = k
    · simp [hk, hname]
    · rw [if_neg hk, List.map_cons, ih, List.map_cons]
      by_cases hmem : k ∈ cs.map name
      · rw [if_pos hmem, if_pos (List.mem_cons_of_mem _ hmem)]
      · rw [if_neg hmem, if_neg (by simpa [Ne.symm hk] using hmem), List.cons_append]

theorem find?_upsert {h : ProfileNode → ProfileNode} (hname : ∀ c, (h c).name = c.name) (k j : String)
    (cs : List ProfileNode) :
    (upsert k h cs).find? (fun c => c.name == j) =
      if j = k then some (h ((cs.find? fun c => c.name == k).getD (leaf k)))
      else cs.find? fun c => c.name == j := by
  induction cs with
  | nil =>
    by_cases hj : j = k
    · simp [upsert, hname, hj]
    · simp [upsert, hname, hj, Ne.symm hj]
  | cons c cs ih =>
    rw [upsert]
    by_cases hk : c.name = k
    · subst hk
      by_cases hj : j = c.name
      · subst hj
        simp [hname]
      · have hne : ¬c.name = j := fun h => hj h.symm
        simp [hname, hj, hne]
    · by_cases hj : c.name = j
      · subst hj
        simp [hk]
      · simp [hk, hj, ih]

/-- The child of a name, or the one that would be made for it. -/
def childOr (n : ProfileNode) (k : String) : ProfileNode := (n.child? k).getD (leaf k)

theorem child?_update (n : ProfileNode) (j : String) :
    (n.update f (k :: path)).child? j = if j = k then some ((n.childOr k).update f path) else n.child? j := by
  obtain ⟨name, timing, children⟩ := n
  exact find?_upsert (name_update f path) k j children

theorem child?_update_nil (n : ProfileNode) (j : String) : (n.update f []).child? j = n.child? j := by
  cases n
  rfl

theorem namesAt_cons (n : ProfileNode) (j : String) :
    n.namesAt (j :: q) = ((n.child? j).map fun c => c.namesAt q).getD [] := by
  rw [namesAt, reach?]
  cases n.child? j <;> rfl

theorem namesAt_nil_update (n : ProfileNode) :
    (n.update f (k :: path)).namesAt [] = if k ∈ n.namesAt [] then n.namesAt [] else n.namesAt [] ++ [k] := by
  obtain ⟨name, timing, children⟩ := n
  exact map_name_upsert (name_update f path) k children

theorem namesAt_update_nil (n : ProfileNode) : (n.update f []).namesAt q = n.namesAt q := by
  cases q with
  | nil =>
    cases n
    rfl
  | cons j q => rw [namesAt_cons, namesAt_cons, child?_update_nil]

theorem timingAt_leaf (k : String) : (leaf k).timingAt q = {} := by cases q <;> rfl

theorem timingAt_childOr (n : ProfileNode) : (n.childOr k).timingAt q = n.timingAt (k :: q) := by
  rw [childOr, timingAt]
  cases n.child? k with
  | none => exact timingAt_leaf k
  | some c => rfl

theorem namesAt_childOr (n : ProfileNode) : (n.childOr k).namesAt q = n.namesAt (k :: q) := by
  rw [childOr, namesAt_cons]
  cases n.child? k with
  | none => cases q <;> rfl
  | some c => rfl

theorem isSome_reach?_childOr (n : ProfileNode) :
    ((n.childOr k).reach? q).isSome ↔ q = [] ∨ (n.reach? (k :: q)).isSome := by
  rw [childOr, reach?]
  cases n.child? k with
  | none => cases q <;> simp [reach?, child?, leaf, children]
  | some c => cases q <;> simp [reach?]

/-- The timing at the end of the path is changed, and no other. -/
theorem timingAt_update (n : ProfileNode) :
    (n.update f path).timingAt q = if q = path then f (n.timingAt path) else n.timingAt q := by
  induction path generalizing n q with
  | nil =>
    obtain ⟨name, timing, children⟩ := n
    cases q <;> rfl
  | cons k path ih =>
    cases q with
    | nil =>
      cases n
      rfl
    | cons j q =>
      rw [timingAt, child?_update]
      by_cases hj : j = k
      · subst hj
        simp [ih, timingAt_childOr]
      · simp [hj, timingAt]

/-- The nodes on the way are made. -/
theorem isSome_reach?_update (n : ProfileNode) :
    ((n.update f path).reach? q).isSome ↔ q <+: path ∨ (n.reach? q).isSome := by
  induction path generalizing n q with
  | nil =>
    cases q with
    | nil => simp [reach?]
    | cons j q => simp [reach?, child?_update_nil]
  | cons k path ih =>
    cases q with
    | nil => simp [reach?]
    | cons j q =>
      rw [reach?, child?_update]
      by_cases hj : j = k
      · subst hj
        rw [if_pos rfl, Option.bind_some, ih, isSome_reach?_childOr, List.cons_prefix_cons, and_iff_right rfl]
        refine ⟨?_, fun h => h.imp_right .inr⟩
        rintro (h | rfl | h)
        · exact .inl h
        · exact .inl List.nil_prefix
        · exact .inr h
      · simp [hj, reach?]

/-- Where the way is there, the last name is put after its siblings, unless it is one of them. -/
theorem namesAt_update (n : ProfileNode) (h : (n.reach? path).isSome) :
    (n.update f (path ++ [k])).namesAt q =
      if q = path ∧ k ∉ n.namesAt path then n.namesAt path ++ [k] else n.namesAt q := by
  induction path generalizing n q with
  | nil =>
    cases q with
    | nil =>
      rw [List.nil_append, namesAt_nil_update]
      by_cases hk : k ∈ n.namesAt [] <;> simp [hk]
    | cons j q =>
      rw [List.nil_append, namesAt_cons, child?_update]
      by_cases hj : j = k
      · subst hj
        simp [namesAt_update_nil, namesAt_childOr]
      · simp [hj, namesAt_cons]
  | cons i path ih =>
    obtain ⟨c, hc, hreach⟩ : ∃ c, n.child? i = some c ∧ (c.reach? path).isSome := by
      obtain ⟨m, hm⟩ := Option.isSome_iff_exists.mp h
      obtain ⟨c, hc, hm⟩ := Option.bind_eq_some_iff.mp hm
      exact ⟨c, hc, Option.isSome_iff_exists.mpr ⟨m, hm⟩⟩
    cases q with
    | nil =>
      have hi : i ∈ n.namesAt [] := isSome_child?_iff.mp (by rw [hc]; rfl)
      rw [List.cons_append, namesAt_nil_update]
      simp [hi]
    | cons j q =>
      rw [List.cons_append, namesAt_cons, child?_update]
      by_cases hj : j = i
      · subst hj
        have hor : n.childOr j = c := by rw [childOr, hc, Option.getD_some]
        simp [hor, ih c hreach, namesAt_cons, hc]
      · simp [hj, namesAt_cons]

theorem isSome_reach?_above (hq : q <+: path) (h : (n.reach? path).isSome) : (n.reach? q).isSome := by
  obtain ⟨rest, rfl⟩ := hq
  rw [reach?_append] at h
  obtain ⟨m, hm⟩ := Option.isSome_iff_exists.mp h
  obtain ⟨c, hc, -⟩ := Option.bind_eq_some_iff.mp hm
  exact Option.isSome_iff_exists.mpr ⟨c, hc⟩

theorem namesAt_update_of_reach? (h : (n.reach? path).isSome) : (n.update f path).namesAt q = n.namesAt q := by
  rcases List.eq_nil_or_concat' path with rfl | ⟨path, k, rfl⟩
  · exact namesAt_update_nil n
  · have hparent := isSome_reach?_above (List.prefix_append path [k]) h
    rw [namesAt_update n hparent, if_neg fun hand => hand.2 (isSome_reach?_concat_iff.mp h)]

/-! ### Two updates -/

theorem upsert_congr {h i : ProfileNode → ProfileNode} {cs : List ProfileNode}
    (hagree : h ((cs.find? fun c => c.name == k).getD (leaf k)) = i ((cs.find? fun c => c.name == k).getD (leaf k))) :
    upsert k h cs = upsert k i cs := by
  induction cs with
  | nil => exact congrArg (fun c => [c]) hagree
  | cons c cs ih =>
    rw [upsert, upsert]
    by_cases hk : c.name = k
    · rw [if_pos hk, if_pos hk]
      simpa [hk] using hagree
    · rw [if_neg hk, if_neg hk, ih]
      simpa [hk] using hagree

theorem upsert_upsert {h i : ProfileNode → ProfileNode} (hname : ∀ c, (h c).name = c.name) (k : String)
    (cs : List ProfileNode) : upsert k i (upsert k h cs) = upsert k (fun c => i (h c)) cs := by
  induction cs with
  | nil => simp [upsert, hname]
  | cons c cs ih =>
    by_cases hk : c.name = k
    · simp [upsert, hname, hk]
    · simp [upsert, hk, ih]

theorem update_update (n : ProfileNode) : (n.update f path).update g path = n.update (fun t => g (f t)) path := by
  induction path generalizing n with
  | nil =>
    cases n
    rfl
  | cons k path ih =>
    obtain ⟨name, timing, children⟩ := n
    have htwice := upsert_upsert (name_update f path) (i := update g path) k children
    exact congrArg (mk name timing) (htwice.trans (by simp only [ih]))

/-- Only what becomes of the timing that is there matters. -/
theorem update_congr (h : f (n.timingAt path) = g (n.timingAt path)) : n.update f path = n.update g path := by
  induction path generalizing n with
  | nil =>
    cases n
    exact congrArg (fun t => mk _ t _) h
  | cons k path ih =>
    have hchild : (n.childOr k).update f path = (n.childOr k).update g path := by
      refine ih ?_
      rw [timingAt_childOr]
      exact h
    obtain ⟨name, timing, children⟩ := n
    exact congrArg (mk name timing) (upsert_congr hchild)

end ProfileNode

namespace Profile

open ProfileNode

/-! ## Operations -/

/-- What is done with a profile. A frame is closed with the time that it took. -/
inductive Op where
  | push (name : String)
  | pop (nanos : Nat)
  | sample (name : String) (nanos : Nat)
  | snapshot

/-- The second component is false if a sum of times does not fit. -/
def act (p : Profile) : Op → Profile × Bool
  | .push name => (p.push name, true)
  | .pop nanos => p.pop nanos
  | .sample name nanos => p.sample name nanos
  | .snapshot => (p, true)

/-- Operations in turn, up to one that breaks off. -/
def inTurn {σ : Type} (act : σ → Op → σ × Bool) (s : σ) : List Op → σ × Bool
  | [] => (s, true)
  | op :: ops => match act s op with
    | (t, true) => inTurn act t ops
    | (t, false) => (t, false)

/-- Two machines that stay alike in a step stay alike in a run. -/
theorem inTurn_alike {σ τ : Type} {f : σ → Op → σ × Bool} {g : τ → Op → τ × Bool} {Alike : σ → τ → Prop}
    (hstep : ∀ {s t}, Alike s t → ∀ op, (f s op).2 = (g t op).2 ∧ Alike (f s op).1 (g t op).1) {s : σ} {t : τ}
    (h : Alike s t) (ops : List Op) :
    (inTurn f s ops).2 = (inTurn g t ops).2 ∧ Alike (inTurn f s ops).1 (inTurn g t ops).1 := by
  induction ops generalizing s t with
  | nil => exact ⟨rfl, h⟩
  | cons op ops ih =>
    obtain ⟨hok, hafter⟩ := hstep h op
    rw [inTurn, inTurn]
    generalize f s op = first at hok hafter ⊢
    generalize g t op = second at hok hafter ⊢
    obtain ⟨s', ok⟩ := first
    obtain ⟨t', ok'⟩ := second
    obtain rfl : ok = ok' := hok
    cases ok with
    | false => exact ⟨rfl, hafter⟩
    | true => exact ih hafter

def run (p : Profile) (ops : List Op) : Profile × Bool := inTurn act p ops

theorem run_cons {p q : Profile} {op : Op} (h : p.act op = (q, true)) (ops : List Op) :
    p.run (op :: ops) = q.run ops := by
  rw [run, inTurn, h]
  rfl

theorem run_of_not_enabled {p : Profile} (h : p.enabled = false) (ops : List Op) : p.run ops = (p, true) := by
  have hact : ∀ op, p.act op = (p, true) := by
    intro op
    cases op <;> simp [act, push, pop, sample, h]
  induction ops with
  | nil => rfl
  | cons op ops ih => rw [run_cons (hact op), ih]

/-! ## What the operations say -/

/-- What an operation says of a path. -/
inductive Mark where
  | opened (path : List String)
  | closed (path : List String) (nanos : Nat)
  | sampled (path : List String) (nanos : Nat)

namespace Mark

def path : Mark → List String
  | .opened path => path
  | .closed path _ => path
  | .sampled path _ => path

/-- What becomes of the timing at the path. -/
def tally : Mark → Timing → Timing
  | .opened _ => id
  | .closed _ nanos => fun t => ⟨t.nanos + nanos, t.samples + 1⟩
  | .sampled _ nanos => fun t => ⟨t.nanos + nanos, t.samples + 1⟩

/-- The path, if it is pushed or sampled. -/
def used? : Mark → Option (List String)
  | .opened path => some path
  | .closed _ _ => none
  | .sampled path _ => some path

/-- The name that is pushed or sampled below a path. -/
def nameBelow? (q : List String) (m : Mark) : Option String :=
  m.used?.bind fun path => if path.dropLast = q then path.getLast? else none

def closes (q : List String) : Mark → Bool
  | .closed path _ => path == q
  | _ => false

def samples (q : List String) : Mark → Bool
  | .sampled path _ => path == q
  | _ => false

/-- The time that is told of a path. -/
def nanosAt? (q : List String) : Mark → Option Nat
  | .opened _ => none
  | .closed path nanos => if path = q then some nanos else none
  | .sampled path nanos => if path = q then some nanos else none

variable {m : Mark} {q : List String}

theorem used?_cases (m : Mark) : m.used? = none ∨ m.used? = some m.path := by
  cases m with
  | opened path => exact .inr rfl
  | closed path nanos => exact .inl rfl
  | sampled path nanos => exact .inr rfl

theorem nanosAt?_of_ne (h : q ≠ m.path) : m.nanosAt? q = none := by
  cases m with
  | opened path => rfl
  | closed path nanos => exact if_neg (Ne.symm h)
  | sampled path nanos => exact if_neg (Ne.symm h)

theorem closes_of_ne (h : q ≠ m.path) : m.closes q = false := by
  cases m with
  | opened path => rfl
  | closed path nanos => exact beq_eq_false_iff_ne.mpr (Ne.symm h)
  | sampled path nanos => rfl

theorem samples_of_ne (h : q ≠ m.path) : m.samples q = false := by
  cases m with
  | opened path => rfl
  | closed path nanos => rfl
  | sampled path nanos => exact beq_eq_false_iff_ne.mpr (Ne.symm h)

end Mark

/-- The pushes that are not popped after operations below the frames of a path. -/
def unclosed (path : List String) : List Op → List String
  | [] => path
  | .push name :: ops => unclosed (path ++ [name]) ops
  | .pop _ :: ops => unclosed path.dropLast ops
  | .sample _ _ :: ops => unclosed path ops
  | .snapshot :: ops => unclosed path ops

def marks (path : List String) : List Op → List Mark
  | [] => []
  | .push name :: ops => .opened (path ++ [name]) :: marks (path ++ [name]) ops
  | .pop nanos :: ops => if path = [] then marks [] ops else .closed path nanos :: marks path.dropLast ops
  | .sample name nanos :: ops => .sampled (path ++ [name]) nanos :: marks path ops
  | .snapshot :: ops => marks path ops

/-- The sum of the times that are told of a path. -/
def spent (q : List String) (ms : List Mark) : Nat := (ms.filterMap (Mark.nanosAt? q)).sum

/-- A tree that holds what marks say and nothing else. -/
structure Told (ms : List Mark) (n : ProfileNode) : Prop where
  isSome_reach?_iff : ∀ q, (n.reach? q).isSome ↔ q = [] ∨ q ∈ ms.filterMap Mark.used?
  namesAt_eq : ∀ q, n.namesAt q = (ms.filterMap (Mark.nameBelow? q)).eraseDups
  nanos_eq : ∀ q, (n.timingAt q).nanos = spent q ms
  samples_eq : ∀ q, (n.timingAt q).samples = ms.countP (Mark.closes q) + ms.countP (Mark.samples q)

variable {ms : List Mark} {m : Mark} {n : ProfileNode} {path q : List String} {k : String} {p : Profile}

theorem eraseDups_concat (ks : List String) (k : String) :
    (ks ++ [k]).eraseDups = if k ∈ ks then ks.eraseDups else ks.eraseDups ++ [k] := by
  have hone : [k].eraseDups = [k] := rfl
  rw [List.eraseDups_append]
  by_cases hk : k ∈ ks <;> simp [List.removeAll, hk, hone]

theorem nodup_eraseDups (ks : List String) : ks.eraseDups.Nodup := by
  induction ks using List.reverseRecOn with
  | nil => exact List.nodup_nil
  | append_singleton ks k ih =>
    rw [eraseDups_concat]
    split
    · exact ih
    · next hk =>
      rw [← List.concat_eq_append]
      exact List.Nodup.concat (mt List.mem_eraseDups.mp hk) ih

theorem spent_snoc : spent q (ms ++ [m]) = spent q ms + (m.nanosAt? q).getD 0 := by
  rw [spent, spent, List.filterMap_append, List.sum_append]
  cases hm : m.nanosAt? q <;> simp [hm]

namespace Told

theorem leaf (name : String) : Told [] (leaf name) where
  isSome_reach?_iff q := by cases q <;> simp [reach?, child?, ProfileNode.leaf, children]
  namesAt_eq q := by cases q <;> rfl
  nanos_eq q := by rw [timingAt_leaf]; rfl
  samples_eq q := by rw [timingAt_leaf]; rfl

/-- A mark on a path whose parent is there, and which is there itself if it is closed, is told by one update. -/
theorem snoc (h : Told ms n) (hpath : m.path = path ++ [k]) (hreach : (n.reach? path).isSome)
    (hclosed : m.used? = none → (n.reach? m.path).isSome) : Told (ms ++ [m]) (n.update m.tally m.path) where
  isSome_reach?_iff q := by
    rw [isSome_reach?_update, h.isSome_reach?_iff, List.filterMap_append, List.mem_append]
    rcases m.used?_cases with hused | hused
    · have habove : q <+: m.path → q = [] ∨ q ∈ ms.filterMap Mark.used? := fun hq =>
        (h.isSome_reach?_iff q).mp (isSome_reach?_above hq (hclosed hused))
      simpa [hused] using habove
    · have habove : q <+: path → q = [] ∨ q ∈ ms.filterMap Mark.used? := fun hq =>
        (h.isSome_reach?_iff q).mp (isSome_reach?_above hq hreach)
      have hlast : q ∈ [m].filterMap Mark.used? ↔ q = path ++ [k] := by simp [hused, hpath]
      rw [hpath, List.prefix_concat_iff, hlast]
      tauto
  namesAt_eq q := by
    rw [hpath, namesAt_update _ hreach, h.namesAt_eq, h.namesAt_eq, List.filterMap_append]
    rcases m.used?_cases with hused | hused
    · have hk : k ∈ (ms.filterMap (Mark.nameBelow? path)).eraseDups := by
        rw [← h.namesAt_eq, ← isSome_reach?_concat_iff, ← hpath]
        exact hclosed hused
      simp [hk, Mark.nameBelow?, hused]
    · by_cases hq : q = path
      · subst hq
        have hname : [m].filterMap (Mark.nameBelow? q) = [k] := by simp [Mark.nameBelow?, hused, hpath]
        rw [hname, eraseDups_concat]
        by_cases hk : k ∈ ms.filterMap (Mark.nameBelow? q) <;> simp [hk]
      · have hname : [m].filterMap (Mark.nameBelow? q) = [] := by
          simp [Mark.nameBelow?, hused, hpath, Ne.symm hq]
        rw [hname, List.append_nil, if_neg fun hand => hq hand.1]
  nanos_eq q := by
    rw [timingAt_update, spent_snoc, ← h.nanos_eq]
    by_cases hq : q = m.path
    · subst hq
      rw [if_pos rfl]
      cases m <;> simp [Mark.tally, Mark.nanosAt?, Mark.path]
    · rw [if_neg hq, Mark.nanosAt?_of_ne hq, Option.getD_none, Nat.add_zero]
  samples_eq q := by
    have hsamples := h.samples_eq q
    rw [timingAt_update, List.countP_append, List.countP_append, List.countP_singleton, List.countP_singleton]
    by_cases hq : q = m.path
    · subst hq
      rw [if_pos rfl]
      cases m <;> simp [Mark.tally, Mark.closes, Mark.samples, Mark.path] at hsamples ⊢ <;> omega
    · rw [if_neg hq, Mark.closes_of_ne hq, Mark.samples_of_ne hq]
      simpa using hsamples

theorem nodup_namesAt (h : Told ms n) (q : List String) : (n.namesAt q).Nodup := by
  rw [h.namesAt_eq]
  exact nodup_eraseDups _

end Told

/-! ## Runs -/

theorem spent_le_append (q : List String) (ms ms' : List Mark) : spent q ms ≤ spent q (ms ++ ms') := by
  rw [spent, spent, List.filterMap_append, List.sum_append]
  exact Nat.le_add_right _ _

theorem fits_of_le {a b : Nat} (h : a ≤ b) (hb : Duration.fits b = true) : Duration.fits a = true := by
  rw [Duration.fits, decide_eq_true_eq] at hb ⊢
  exact Nat.lt_of_le_of_lt h hb

theorem fits_first {rest : List Mark} (h : ∀ q, Duration.fits (spent q (ms ++ m :: rest)) = true) :
    Duration.fits (spent m.path (ms ++ [m])) = true := by
  refine fits_of_le (spent_le_append m.path (ms ++ [m]) rest) ?_
  rw [List.append_assoc, List.singleton_append]
  exact h _

/-- The profile with a mark made in its tree. -/
def note (p : Profile) (m : Mark) : Profile := { p with root := p.root.update m.tally m.path }

/-- A time whose sum fits is recorded as its mark says. -/
theorem record_eq {nanos : Nat} (hm : m = .closed path nanos ∨ m = .sampled path nanos)
    (hfits : Duration.fits ((p.root.timingAt path).nanos + nanos) = true) : p.record path nanos = (p.note m, true) := by
  have htally : m.tally = (fun t => ⟨t.nanos + nanos, t.samples + 1⟩) ∧ m.path = path := by
    rcases hm with rfl | rfl <;> exact ⟨rfl, rfl⟩
  have hupdate : p.root.update (fun t => ⟨(p.root.timingAt path).nanos + nanos, t.samples + 1⟩) path =
      p.root.update m.tally m.path := by
    rw [htally.1, htally.2]
    exact update_congr rfl
  rw [record]
  simp only [hfits, if_true, hupdate, note]

/-- It does not matter whether a node is made before a time is recorded there. -/
theorem record_update_id (p : Profile) (path : List String) (nanos : Nat) :
    ({ p with root := p.root.update id path } : Profile).record path nanos = p.record path nanos := by
  simp only [record, timingAt_update, if_true, id, update_update]
  rfl

@[simp] theorem enabled_record (p : Profile) (path : List String) (nanos : Nat) :
    (p.record path nanos).1.enabled = p.enabled := by
  rw [record]
  split <;> rfl

@[simp] theorem path_record (p : Profile) (path : List String) (nanos : Nat) :
    (p.record path nanos).1.path = p.path := by
  rw [record]
  split <;> rfl

/-- A profile whose tree holds what marks say and has the open frames among its nodes. -/
structure Keeps (ms : List Mark) (p : Profile) : Prop where
  enabled : p.enabled = true
  told : Told ms p.root
  reach : (p.root.reach? p.path).isSome

namespace Keeps

theorem fits_sum (h : Keeps ms p) (nanos : Nat) (hm : m.nanosAt? m.path = some nanos)
    (hfits : Duration.fits (spent m.path (ms ++ [m])) = true) :
    Duration.fits ((p.root.timingAt m.path).nanos + nanos) = true := by
  rw [h.told.nanos_eq]
  rwa [spent_snoc, hm] at hfits

theorem push (h : Keeps ms p) (name : String) : Keeps (ms ++ [.opened (p.path ++ [name])]) (p.push name) := by
  have htold := h.told.snoc (m := .opened (p.path ++ [name])) rfl h.reach nofun
  rw [Profile.push, if_pos h.enabled]
  exact ⟨h.enabled, htold, (isSome_reach?_update _).mpr (.inl (List.prefix_refl _))⟩

theorem sample (h : Keeps ms p) {name : String} {nanos : Nat} (hm : m = .sampled (p.path ++ [name]) nanos)
    (hfits : Duration.fits (spent m.path (ms ++ [m])) = true) :
    p.sample name nanos = (p.note m, true) ∧ Keeps (ms ++ [m]) (p.note m) := by
  have hsum := h.fits_sum nanos (by simp [hm, Mark.nanosAt?, Mark.path]) hfits
  subst hm
  refine ⟨?_, h.enabled, h.told.snoc rfl h.reach nofun, (isSome_reach?_update _).mpr (.inr h.reach)⟩
  rw [Profile.sample, if_pos h.enabled]
  exact record_eq (.inr rfl) hsum

theorem pop (h : Keeps ms p) {nanos : Nat} (hne : p.path ≠ []) (hm : m = .closed p.path nanos)
    (hfits : Duration.fits (spent m.path (ms ++ [m])) = true) :
    p.pop nanos = ({ p.note m with path := p.path.dropLast }, true) ∧
      Keeps (ms ++ [m]) { p.note m with path := p.path.dropLast } := by
  have hsum := h.fits_sum nanos (by simp [hm, Mark.nanosAt?, Mark.path]) hfits
  have hparent : (p.root.reach? p.path.dropLast).isSome := isSome_reach?_above (List.dropLast_prefix _) h.reach
  have hpath : m.path = p.path.dropLast ++ [p.path.getLast hne] := by
    rw [hm]
    exact (List.dropLast_append_getLast hne).symm
  subst hm
  refine ⟨?_, h.enabled, h.told.snoc hpath hparent fun _ => h.reach, (isSome_reach?_update _).mpr (.inr hparent)⟩
  have hrecord : p.record p.path nanos = (p.note (.closed p.path nanos), true) := record_eq (.inl rfl) hsum
  rw [Profile.pop, if_pos (by simp [h.enabled, hne]), hrecord]

/-- Operations whose sums of times fit all go, and the profile keeps what they say. -/
theorem run (h : Keeps ms p) {ops : List Op}
    (hfits : ∀ q, Duration.fits (spent q (ms ++ marks p.path ops)) = true) :
    (p.run ops).2 = true ∧ (p.run ops).1.path = unclosed p.path ops ∧
      Keeps (ms ++ marks p.path ops) (p.run ops).1 := by
  induction ops generalizing p ms with
  | nil =>
    refine ⟨rfl, rfl, ?_⟩
    rw [marks, List.append_nil]
    exact h
  | cons op ops ih =>
    cases op with
    | push name =>
      have hpath : (p.push name).path = p.path ++ [name] := by rw [Profile.push, if_pos h.enabled]
      have hrest := ih (h.push name)
      rw [hpath, ← List.append_cons] at hrest
      rw [run_cons rfl]
      exact hrest hfits
    | pop nanos =>
      by_cases hne : p.path = []
      · have hact : p.act (.pop nanos) = (p, true) := by simp [act, Profile.pop, hne]
        have hmarks : marks p.path (.pop nanos :: ops) = marks p.path ops := by simp [marks, hne]
        have hopen : unclosed p.path (.pop nanos :: ops) = unclosed p.path ops := by simp [unclosed, hne]
        rw [run_cons hact, hopen, hmarks]
        rw [hmarks] at hfits
        exact ih h hfits
      · rw [marks, if_neg hne] at hfits ⊢
        obtain ⟨hact, hkeeps⟩ := h.pop hne rfl (fits_first hfits)
        replace hact : p.act (.pop nanos) = _ := hact
        have hrest := ih hkeeps
        rw [← List.append_cons] at hrest
        rw [run_cons hact]
        exact hrest hfits
    | sample name nanos =>
      obtain ⟨hact, hkeeps⟩ := h.sample rfl (fits_first hfits)
      replace hact : p.act (.sample name nanos) = _ := hact
      have hrest := ih hkeeps
      rw [← List.append_cons] at hrest
      rw [run_cons hact]
      exact hrest hfits
    | snapshot => exact ih h hfits

end Keeps

theorem keeps_make (name : String) : Keeps [] (make name true) := ⟨rfl, .leaf name, rfl⟩

end Profile
end EditorAgent

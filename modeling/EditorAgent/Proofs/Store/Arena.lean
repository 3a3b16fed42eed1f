import EditorAgent.Proofs.Store.Timings
import Mathlib

/-!
# Profiles in slots

A profile can be kept in a list of slots, each with the numbers of its children, and a stack of the numbers of the
open frames. Every number is larger than that of its parent and stands below one parent only, so reading the tree
off the slots ends, at a depth of at most their number, and gives the tree that the profile holds.
-/

namespace EditorAgent.Profile

open ProfileNode

structure Slot where
  name : String
  timing : Timing := {}
  children : List Nat := []

/-- Slots, the first of which is the root, and the numbers of the open frames, the last one first. -/
structure Arena where
  slots : List Slot
  stack : List Nat

namespace Arena

def make (name : String) : Arena := ⟨[{ name }], []⟩

def top (a : Arena) : Nat := a.stack.headD 0

/-- The slots with a new one, whose number is put after those of its siblings. -/
def grow (slots : List Slot) (parent : Nat) (name : String) : List Slot :=
  slots.modify parent (fun s => { s with children := s.children ++ [slots.length] }) ++ [{ name := name }]

/-- The child of a slot by its name, made in a new slot if there is none. -/
def childOf (slots : List Slot) (parent : Nat) (name : String) : List Slot × Nat :=
  match ((slots[parent]?.map Slot.children).getD []).find? fun i => slots[i]?.map Slot.name == some name with
  | some i => (slots, i)
  | none => (grow slots parent name, slots.length)

/-- Adds a time to a slot and counts it, unless the sum does not fit. -/
def record (slots : List Slot) (i : Nat) (nanos : Nat) : List Slot × Bool :=
  let sum := ((slots[i]?.map Slot.timing).getD {}).nanos + nanos
  if Duration.fits sum then (slots.modify i fun s => { s with timing := ⟨sum, s.timing.samples + 1⟩ }, true)
  else (slots, false)

def act (a : Arena) : Op → Arena × Bool
  | .push name =>
    let (slots, i) := childOf a.slots a.top name
    (⟨slots, i :: a.stack⟩, true)
  | .pop nanos => match a.stack with
    | [] => (a, true)
    | i :: stack =>
      let (slots, ok) := record a.slots i nanos
      (⟨slots, stack⟩, ok)
  | .sample name nanos =>
    let (slots, i) := childOf a.slots a.top name
    let (slots, ok) := record slots i nanos
    (⟨slots, a.stack⟩, ok)
  | .snapshot => (a, true)

def run (a : Arena) (ops : List Op) : Arena × Bool := inTurn act a ops

/-- The tree below a slot, if it is no deeper than `depth`. -/
def node? (slots : List Slot) : Nat → Nat → Option ProfileNode
  | 0, _ => none
  | depth + 1, i => do
    let s ← slots[i]?
    let children ← s.children.mapM (node? slots depth)
    return .mk s.name s.timing children

/-! ## Slots that lay out a tree -/

/-- Child numbers stand, in order, for the names below a path: each is larger than its parent's and has the path with
the name added. -/
def Numbers (paths : List (List String)) (i : Nat) (path : List String) : List Nat → List String → Prop :=
  List.Forall₂ fun j k => i < j ∧ paths[j]? = some (path ++ [k])

theorem getElem?_of_grown {paths paths' : List (List String)} (h : paths <+: paths') {i : Nat} {path : List String}
    (hi : paths[i]? = some path) : paths'[i]? = some path := by
  obtain ⟨rest, rfl⟩ := h
  rwa [List.getElem?_append_left (List.getElem?_eq_some_iff.mp hi).1]

theorem Numbers.mono {paths paths' : List (List String)} (h : paths <+: paths') {i : Nat} {path : List String}
    {js : List Nat} {ks : List String} (hnumbers : Numbers paths i path js ks) : Numbers paths' i path js ks :=
  hnumbers.imp fun _ _ hj => ⟨hj.1, getElem?_of_grown h hj.2⟩

/-- Numbers are searched as the names that they stand for. -/
theorem Numbers.find?_cases {paths : List (List String)} {i : Nat} {path : List String} {js : List Nat}
    {ks : List String} (h : Numbers paths i path js ks) {nameOf : Nat → Option String} (k : String)
    (hname : ∀ j l, paths[j]? = some (path ++ [l]) → nameOf j = some l) :
    (∃ j, js.find? (fun j => nameOf j == some k) = some j ∧ paths[j]? = some (path ++ [k])) ∧ k ∈ ks ∨
      js.find? (fun j => nameOf j == some k) = none ∧ k ∉ ks := by
  induction h with
  | nil => exact .inr ⟨rfl, List.not_mem_nil⟩
  | @cons j l js ls hfirst _ ih =>
    by_cases hl : l = k
    · subst hl
      refine .inl ⟨⟨j, ?_, hfirst.2⟩, List.mem_cons_self⟩
      rw [List.find?_cons_of_pos (by simp [hname j l hfirst.2])]
    · rw [List.find?_cons_of_neg (by simp [hname j l hfirst.2, hl]), List.mem_cons, or_iff_right (Ne.symm hl)]
      exact ih

/-- Slots that hold a tree's nodes, each for one path. -/
structure Lays (slots : List Slot) (paths : List (List String)) (n : ProfileNode) : Prop where
  length_eq : paths.length = slots.length
  nodup : paths.Nodup
  root : paths[0]? = some []
  reach : ∀ path ∈ paths, (n.reach? path).isSome
  slot : ∀ {i path}, paths[i]? = some path → ∃ s, slots[i]? = some s ∧ s.name = path.getLastD n.name ∧
    s.timing = n.timingAt path ∧ Numbers paths i path s.children (n.namesAt path)

variable {slots : List Slot} {paths : List (List String)} {n : ProfileNode} {path q : List String} {k : String}
  {i depth : Nat} {f : Timing → Timing}

theorem lays_make (name : String) : Lays (make name).slots [[]] (.leaf name) where
  length_eq := rfl
  nodup := List.nodup_singleton _
  root := rfl
  reach path h := by
    rw [List.mem_singleton.mp h]
    rfl
  slot {i path} h := by
    cases i with
    | zero =>
      obtain rfl := Option.some.inj h
      exact ⟨_, rfl, rfl, rfl, .nil⟩
    | succ i => simp at h

theorem getElem?_grow_of_lt {j : Nat} (hj : j < slots.length) :
    (grow slots i k)[j]? = slots[j]?.map fun s =>
      if i = j then { s with children := s.children ++ [slots.length] } else s := by
  rw [grow, List.getElem?_append_left (by simpa using hj), List.getElem?_modify]
  by_cases hij : i = j <;> simp [hij]

theorem getElem?_grow_length : (grow slots i k)[slots.length]? = some { name := k } := by
  rw [grow, List.getElem?_append_right (by simp), List.length_modify, Nat.sub_self]
  rfl

namespace Lays

theorem eq_of_path (h : Lays slots paths n) {j : Nat} (hi : paths[i]? = some path) (hj : paths[j]? = some path) :
    i = j := by
  have hlt : i < paths.length := (List.getElem?_eq_some_iff.mp hi).1
  exact (List.getElem?_inj hlt h.nodup).mp (hi.trans hj.symm)

/-! ### Reading the tree off -/

theorem mapM_eq_some {α β : Type} {g : α → Option β} {as : List α} {bs : List β}
    (h : List.Forall₂ (fun a b => g a = some b) as bs) : as.mapM g = some bs := by
  induction h with
  | nil => rfl
  | cons ha _ ih => simp [List.mapM_cons, ha, ih]

/-- Slots show the tree that they lay out, if no name comes twice below a path. -/
theorem node?_eq (h : Lays slots paths n) (hnames : ∀ q, (n.namesAt q).Nodup) {m : ProfileNode}
    (hi : paths[i]? = some path) (hm : n.reach? path = some m) (hdepth : slots.length ≤ i + depth) :
    node? slots depth i = some m := by
  induction depth generalizing i path m with
  | zero =>
    have hlt : i < paths.length := (List.getElem?_eq_some_iff.mp hi).1
    rw [h.length_eq] at hlt
    omega
  | succ depth ih =>
    obtain ⟨s, hs, hname, htiming, hchildren⟩ := h.slot hi
    have hdistinct : (m.children.map name).Nodup := namesAt_of_reach? hm ▸ hnames path
    have hfound : ∀ c ∈ m.children, n.reach? (path ++ [c.name]) = some c := by
      intro c hc
      rw [reach?_append, hm, Option.bind_some, reach?, child?_of_mem hdistinct hc]
      rfl
    have hnumbers : List.Forall₂ (fun j c => node? slots depth j = some c) s.children m.children := by
      rw [Numbers, namesAt_of_reach? hm, List.forall₂_map_right_iff] at hchildren
      refine List.Forall₂.flip (((List.forall₂_and_left _ _).mpr ⟨hfound, hchildren.flip⟩).imp ?_)
      rintro c j ⟨hc, hlt, hj⟩
      exact ih hj hc (by omega)
    have hsame : ProfileNode.mk s.name s.timing m.children = m := by
      rw [hname, htiming, ← name_of_reach? hm, timing_of_reach? hm]
      cases m
      rfl
    rw [node?, hs]
    simp only [Option.bind_eq_bind, Option.bind_some, mapM_eq_some hnumbers, Option.pure_def, hsame]

/-! ### Changes -/

/-- Slots lay out every tree that shows the same. -/
theorem of_views (h : Lays slots paths n) {m : ProfileNode} (hname : m.name = n.name)
    (hreach : ∀ path ∈ paths, (m.reach? path).isSome) (htiming : ∀ path, m.timingAt path = n.timingAt path)
    (hnames : ∀ path, m.namesAt path = n.namesAt path) : Lays slots paths m where
  length_eq := h.length_eq
  nodup := h.nodup
  root := h.root
  reach := hreach
  slot {i path} hi := by
    rw [hname, htiming, hnames]
    exact h.slot hi

theorem find?_cases (h : Lays slots paths n) (hi : paths[i]? = some path) (k : String) :
    (∃ j, (((slots[i]?.map Slot.children).getD []).find? fun j => slots[j]?.map Slot.name == some k) = some j ∧
        paths[j]? = some (path ++ [k])) ∧ k ∈ n.namesAt path ∨
      (((slots[i]?.map Slot.children).getD []).find? fun j => slots[j]?.map Slot.name == some k) = none ∧
        k ∉ n.namesAt path := by
  obtain ⟨s, hs, -, -, hchildren⟩ := h.slot hi
  rw [hs, Option.map_some, Option.getD_some]
  refine hchildren.find?_cases k fun j l hj => ?_
  obtain ⟨t, ht, hname, -⟩ := h.slot hj
  rw [ht, Option.map_some, hname, List.getLastD_concat]

/-- A child that is there is found, and the tree shows the same when it is made again. -/
theorem update_id (h : Lays slots paths n) (hpath : (n.reach? path).isSome) : Lays slots paths (n.update id path) := by
  refine h.of_views (name_update id path n) (fun q hq => ?_) (fun q => ?_) fun q => namesAt_update_of_reach? hpath
  · exact (isSome_reach?_update n).mpr (.inr (h.reach q hq))
  · rw [timingAt_update, id]
    by_cases hq : q = path <;> simp [hq]

/-- A new slot lays out the tree with the new node. -/
theorem grow (h : Lays slots paths n) (hi : paths[i]? = some path) (hk : k ∉ n.namesAt path) :
    Lays (Arena.grow slots i k) (paths ++ [path ++ [k]]) (n.update id (path ++ [k])) := by
  have hreach := h.reach path (List.mem_of_getElem? hi)
  have hlt : i < slots.length := h.length_eq ▸ (List.getElem?_eq_some_iff.mp hi).1
  have hnew : path ++ [k] ∉ paths := fun hmem => hk (isSome_reach?_concat_iff.mp (h.reach _ hmem))
  have hnone : n.reach? (path ++ [k]) = none := by
    rw [← Option.not_isSome_iff_eq_none, isSome_reach?_concat_iff]
    exact hk
  have htiming : ∀ q, (n.update id (path ++ [k])).timingAt q = n.timingAt q := by
    intro q
    rw [timingAt_update, id]
    by_cases hq : q = path ++ [k] <;> simp [hq]
  have hlast : (paths ++ [path ++ [k]])[slots.length]? = some (path ++ [k]) := by
    rw [← h.length_eq, List.getElem?_concat_length]
  constructor
  case length_eq =>
    simp [Arena.grow, h.length_eq]
  case nodup =>
    refine List.nodup_append.mpr ⟨h.nodup, List.nodup_singleton _, ?_⟩
    intro q hq r hr heq
    exact hnew (List.mem_singleton.mp hr ▸ heq ▸ hq)
  case root =>
    exact getElem?_of_grown (List.prefix_append _ _) h.root
  case reach =>
    intro q hq
    rw [isSome_reach?_update]
    rcases List.mem_append.mp hq with hq | hq
    · exact .inr (h.reach q hq)
    · exact .inl (List.mem_singleton.mp hq ▸ List.prefix_refl _)
  case slot =>
    intro j q hj
    rw [name_update, htiming, namesAt_update n hreach]
    rcases Nat.lt_or_ge j paths.length with hold | hge
    · rw [List.getElem?_append_left hold] at hj
      obtain ⟨s, hs, hname, hsame, hchildren⟩ := h.slot hj
      have hkept := Numbers.mono (List.prefix_append paths [path ++ [k]]) hchildren
      rw [getElem?_grow_of_lt (h.length_eq ▸ hold), hs, Option.map_some]
      -- the parent has one child more, and any other slot is as it was
      by_cases hji : i = j
      · subst hji
        obtain rfl : path = q := Option.some.inj (hi.symm.trans hj)
        refine ⟨{ s with children := s.children ++ [slots.length] }, by simp, hname, hsame, ?_⟩
        rw [if_pos ⟨rfl, hk⟩]
        exact List.rel_append hkept (.cons ⟨hlt, hlast⟩ .nil)
      · have hq : ¬(q = path ∧ k ∉ n.namesAt path) := fun hand => hji (h.eq_of_path hi (hand.1 ▸ hj))
        refine ⟨s, by simp [hji], hname, hsame, ?_⟩
        rw [if_neg hq]
        exact hkept
    · -- the new slot, which is the last
      obtain rfl : j = paths.length := by
        have hlength := (List.getElem?_eq_some_iff.mp hj).1
        rw [List.length_append, List.length_singleton] at hlength
        omega
      obtain rfl : path ++ [k] = q := by simpa using hj
      have hnames : n.namesAt (path ++ [k]) = [] := by rw [namesAt, hnone]; rfl
      refine ⟨{ name := k }, h.length_eq ▸ getElem?_grow_length, List.getLastD_concat.symm,
        (timingAt_of_reach?_eq_none hnone).symm, ?_⟩
      rw [if_neg (by simp), hnames]
      exact .nil

theorem childOf (h : Lays slots paths n) (hi : paths[i]? = some path) (k : String) :
    ∃ paths', paths <+: paths' ∧ paths'[(Arena.childOf slots i k).2]? = some (path ++ [k]) ∧
      Lays (Arena.childOf slots i k).1 paths' (n.update id (path ++ [k])) := by
  rcases h.find?_cases hi k with ⟨⟨j, hfind, hj⟩, hk⟩ | ⟨hfind, hk⟩
  · have hfound : Arena.childOf slots i k = (slots, j) := by rw [Arena.childOf, hfind]
    rw [hfound]
    exact ⟨paths, List.prefix_refl _, hj, h.update_id (isSome_reach?_concat_iff.mpr hk)⟩
  · have hmade : Arena.childOf slots i k = (Arena.grow slots i k, slots.length) := by rw [Arena.childOf, hfind]
    rw [hmade]
    refine ⟨_, List.prefix_append _ _, ?_, h.grow hi hk⟩
    rw [← h.length_eq, List.getElem?_concat_length]

/-- A timing is changed in the slot of its path. -/
theorem modify (h : Lays slots paths n) (hi : paths[i]? = some path) (f : Timing → Timing) :
    Lays (slots.modify i fun s => { s with timing := f s.timing }) paths (n.update f path) := by
  have hreach := h.reach path (List.mem_of_getElem? hi)
  constructor
  case length_eq => rw [List.length_modify, h.length_eq]
  case nodup => exact h.nodup
  case root => exact h.root
  case reach => exact fun q hq => (isSome_reach?_update n).mpr (.inr (h.reach q hq))
  case slot =>
    intro j q hj
    obtain ⟨s, hs, hname, hsame, hchildren⟩ := h.slot hj
    rw [name_update, timingAt_update, namesAt_update_of_reach? hreach, List.getElem?_modify, hs]
    by_cases hji : i = j
    · subst hji
      obtain rfl : path = q := Option.some.inj (hi.symm.trans hj)
      exact ⟨{ s with timing := f s.timing }, by simp, hname, by simp [hsame], hchildren⟩
    · have hq : q ≠ path := fun hq => hji (h.eq_of_path hi (hq ▸ hj))
      exact ⟨s, by simp [hji], hname, by simp [hq, hsame], hchildren⟩

/-- A time is recorded in the slot of its path as it is in the tree. -/
theorem record (h : Lays slots paths n) (hi : paths[i]? = some path) {p : Profile} (hp : p.root = n) (nanos : Nat) :
    (Arena.record slots i nanos).2 = (p.record path nanos).2 ∧
      Lays (Arena.record slots i nanos).1 paths (p.record path nanos).1.root := by
  subst hp
  obtain ⟨s, hs, -, htiming, -⟩ := h.slot hi
  rw [Arena.record, Profile.record, hs]
  simp only [Option.map_some, Option.getD_some, htiming]
  by_cases hfits : Duration.fits ((p.root.timingAt path).nanos + nanos) = true
  · rw [if_pos hfits, if_pos hfits]
    exact ⟨rfl, h.modify hi fun t => ⟨(p.root.timingAt path).nanos + nanos, t.samples + 1⟩⟩
  · rw [if_neg hfits, if_neg hfits]
    exact ⟨rfl, h.update_id (h.reach path (List.mem_of_getElem? hi))⟩

end Lays

/-! ## Runs -/

/-- The open frames have the slots of the paths up to the one that is open. -/
inductive Frames (paths : List (List String)) : List Nat → List String → Prop where
  | root : Frames paths [] []
  | frame {i : Nat} {stack : List Nat} {path : List String} {k : String} (hi : paths[i]? = some (path ++ [k]))
      (hstack : Frames paths stack path) : Frames paths (i :: stack) (path ++ [k])

namespace Frames

variable {paths' : List (List String)} {stack : List Nat}

theorem mono (hgrown : paths <+: paths') (h : Frames paths stack path) : Frames paths' stack path := by
  induction h with
  | root => exact .root
  | frame hi _ ih => exact .frame (getElem?_of_grown hgrown hi) ih

theorem cases (h : Frames paths stack path) : stack = [] ∧ path = [] ∨
    ∃ i rest, stack = i :: rest ∧ path ≠ [] ∧ paths[i]? = some path ∧ Frames paths rest path.dropLast := by
  cases h with
  | root => exact .inl ⟨rfl, rfl⟩
  | frame hi hstack =>
    refine .inr ⟨_, _, rfl, List.append_ne_nil_of_right_ne_nil _ (List.cons_ne_nil _ _), hi, ?_⟩
    rwa [List.dropLast_concat]

theorem top (h : Frames paths stack path) (hroot : paths[0]? = some []) : paths[stack.headD 0]? = some path := by
  cases h with
  | root => exact hroot
  | frame hi _ => exact hi

end Frames

/-- An arena that lays out the tree of a profile, and has the same frames open. -/
structure Shows (a : Arena) (p : Profile) : Prop where
  enabled : p.enabled = true
  slots : ∃ paths, Lays a.slots paths p.root ∧ Frames paths a.stack p.path

namespace Shows

variable {a : Arena} {p : Profile}

theorem push (h : Shows a p) (name : String) : Shows (a.act (.push name)).1 (p.push name) := by
  obtain ⟨henabled, paths, hlays, hframes⟩ := h
  obtain ⟨paths', hgrown, hi, hlays'⟩ := hlays.childOf (hframes.top hlays.root) name
  rw [Profile.push, if_pos henabled]
  exact ⟨henabled, paths', hlays', .frame hi (hframes.mono hgrown)⟩

theorem pop (h : Shows a p) (nanos : Nat) :
    (a.act (.pop nanos)).2 = (p.pop nanos).2 ∧ Shows (a.act (.pop nanos)).1 (p.pop nanos).1 := by
  obtain ⟨henabled, paths, hlays, hframes⟩ := h
  obtain ⟨slots, stack⟩ := a
  rcases hframes.cases with ⟨rfl, hpath⟩ | ⟨i, stack, rfl, hne, hi, hstack⟩
  · have hpop : p.pop nanos = (p, true) := by simp [Profile.pop, hpath]
    rw [hpop]
    exact ⟨rfl, henabled, paths, hlays, hframes⟩
  · have hpop : p.pop nanos =
        ({ (p.record p.path nanos).1 with path := p.path.dropLast }, (p.record p.path nanos).2) := by
      simp [Profile.pop, henabled, hne]
    obtain ⟨hflag, hlays'⟩ := hlays.record hi rfl nanos
    rw [hpop]
    exact ⟨hflag, (enabled_record _ _ _).trans henabled, paths, hlays', hstack⟩

theorem sample (h : Shows a p) (name : String) (nanos : Nat) :
    (a.act (.sample name nanos)).2 = (p.sample name nanos).2 ∧
      Shows (a.act (.sample name nanos)).1 (p.sample name nanos).1 := by
  obtain ⟨henabled, paths, hlays, hframes⟩ := h
  obtain ⟨paths', hgrown, hi, hlays'⟩ := hlays.childOf (hframes.top hlays.root) name
  obtain ⟨hflag, hlays''⟩ := hlays'.record hi (p := { p with root := p.root.update id (p.path ++ [name]) }) rfl nanos
  rw [record_update_id] at hflag hlays''
  rw [Profile.sample, if_pos henabled]
  refine ⟨hflag, (enabled_record _ _ _).trans henabled, paths', hlays'', ?_⟩
  rw [path_record]
  exact hframes.mono hgrown

theorem act (h : Shows a p) (op : Op) : (a.act op).2 = (p.act op).2 ∧ Shows (a.act op).1 (p.act op).1 := by
  cases op with
  | push name => exact ⟨rfl, h.push name⟩
  | pop nanos => exact h.pop nanos
  | sample name nanos => exact h.sample name nanos
  | snapshot => exact ⟨rfl, h⟩

theorem run (h : Shows a p) (ops : List Op) : (a.run ops).2 = (p.run ops).2 ∧ Shows (a.run ops).1 (p.run ops).1 :=
  inTurn_alike Shows.act h ops

/-- Both the tree and the node of the open frame are read off the slots. -/
theorem node?_eq (h : Shows a p) (hnames : ∀ q, (p.root.namesAt q).Nodup) (hdepth : a.slots.length ≤ depth) :
    node? a.slots depth 0 = some p.root ∧ node? a.slots depth a.top = p.root.reach? p.path := by
  obtain ⟨-, paths, hlays, hframes⟩ := h
  have htop := hframes.top hlays.root
  obtain ⟨m, hm⟩ := Option.isSome_iff_exists.mp (hlays.reach p.path (List.mem_of_getElem? htop))
  rw [hm]
  exact ⟨hlays.node?_eq hnames hlays.root rfl (by omega), hlays.node?_eq hnames htop hm (by omega)⟩

end Shows

theorem shows_make (name : String) : Shows (make name) (Profile.make name true) := ⟨rfl, _, lays_make name, .root⟩

end Arena

/-- Operations on a profile that is on all go unless the times told of one path sum up to more than a duration. The
frames that are open after them are the pushes that were not popped. The tree has a node for what was pushed or
sampled, below it the names of these in the order of their first use, each once, and in it the number of samples and
of pops, and the sum of their times. The slots show this tree, and the open frame in it. A profile that is off stays
as it is. -/
theorem run_tells (name : String) (ops : List Op)
    (hfits : ∀ path, Duration.fits (spent path (marks [] ops)) = true) :
    ((make name true).run ops).2 = true ∧ ((Arena.make name).run ops).2 = true ∧
      ((make name true).run ops).1.path = unclosed [] ops ∧
      (∀ path, (((make name true).run ops).1.root.reach? path).isSome ↔
        path = [] ∨ path ∈ (marks [] ops).filterMap Mark.used?) ∧
      (∀ path n, ((make name true).run ops).1.root.reach? path = some n →
        n.children.map ProfileNode.name = ((marks [] ops).filterMap (Mark.nameBelow? path)).eraseDups ∧
          (n.children.map ProfileNode.name).Nodup ∧
          n.timing.samples = (marks [] ops).countP (Mark.closes path) + (marks [] ops).countP (Mark.samples path) ∧
          n.timing.nanos = spent path (marks [] ops)) ∧
      (∀ depth, ((Arena.make name).run ops).1.slots.length ≤ depth →
        Arena.node? ((Arena.make name).run ops).1.slots depth 0 = some ((make name true).run ops).1.root ∧
          Arena.node? ((Arena.make name).run ops).1.slots depth ((Arena.make name).run ops).1.top =
            ((make name true).run ops).1.root.reach? (unclosed [] ops)) ∧
      ∀ off : Profile, off.enabled = false → off.run ops = (off, true) := by
  obtain ⟨hgoes, hopen, hkeeps⟩ := (keeps_make name).run hfits
  have hpath : ((make name true).run ops).1.path = unclosed [] ops := hopen
  obtain ⟨hflag, hshows⟩ := (Arena.shows_make name).run ops
  have htold : Told (marks [] ops) ((make name true).run ops).1.root := hkeeps.told
  refine ⟨hgoes, hflag.trans hgoes, hpath, htold.isSome_reach?_iff, ?_, ?_, fun off hoff => run_of_not_enabled hoff ops⟩
  · intro path n hn
    have hnames := namesAt_of_reach? hn
    have htiming := timing_of_reach? hn
    exact ⟨hnames ▸ htold.namesAt_eq path, hnames ▸ htold.nodup_namesAt path, htiming ▸ htold.samples_eq path,
      htiming ▸ htold.nanos_eq path⟩
  · intro depth hdepth
    rw [← hpath]
    exact hshows.node?_eq htold.nodup_namesAt hdepth

/-- A pop without a push, a child that is sampled and pushed, a frame that is opened again, and one that stays open. -/
theorem run_tells_reopened :
    let ops : List Op := [.pop 4, .push "parse", .sample "read" 3, .push "read", .pop 5, .snapshot, .pop 2,
      .push "parse", .pop 1, .sample "check" 7, .push "check"]
    (∀ path, Duration.fits (spent path (marks [] ops)) = true) ∧
      ((make "all" true).run ops).1.path = ["check"] ∧
      Arena.node? ((Arena.make "all").run ops).1.slots 4 0 = some (.mk "all" {} [
        .mk "parse" ⟨3, 2⟩ [.mk "read" ⟨8, 2⟩ []], .mk "check" ⟨7, 1⟩ []]) := by
  intro ops
  have hmarks : marks [] ops = [.opened ["parse"], .sampled ["parse", "read"] 3, .opened ["parse", "read"],
      .closed ["parse", "read"] 5, .closed ["parse"] 2, .opened ["parse"], .closed ["parse"] 1, .sampled ["check"] 7,
      .opened ["check"]] := rfl
  have hfits : ∀ path, Duration.fits (spent path (marks [] ops)) = true := by
    intro path
    have hle : spent path (marks [] ops) ≤ 18 := by
      rw [hmarks, spent]
      simp only [List.filterMap_cons, Mark.nanosAt?]
      split_ifs <;> simp
    exact fits_of_le hle (by decide)
  obtain ⟨-, -, hpath, -, -, hslots, -⟩ := run_tells "all" ops hfits
  refine ⟨hfits, hpath, ?_⟩
  rw [(hslots 4 (by decide)).1]
  rfl

end EditorAgent.Profile

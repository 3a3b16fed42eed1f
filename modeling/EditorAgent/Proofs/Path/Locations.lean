import EditorAgent.Proofs.Path.Cleaning

/-!
# Where a path leads

Followed from a directory, a path leads some steps up and then down through names. Cleaning keeps the names, but of
the steps up only whether their number is odd, since a step up that finds another before it takes that one back. So a
clean path leads where the path leads if the path is absolute or climbs at most once, and only then.
-/

namespace EditorAgent.Path

/-- One component from a directory, which is told by the names down to it, the last one first. -/
def follow (dir : List String) : Component → List String
  | .root => []
  | .here => dir
  | .up => dir.tail
  | .name s => s :: dir

/-- Where components lead from a directory. -/
def arrive (dir : List String) (cs : List Component) : List String := cs.foldl follow dir

theorem arrive_append (dir : List String) (cs ds : List Component) :
    arrive dir (cs ++ ds) = arrive (arrive dir cs) ds := List.foldl_append

/-- How far components lead up, and the names that they lead down from there, the last one first. -/
structure Route where
  ascent : Nat := 0
  names : List String := []
deriving DecidableEq

namespace Route

def extend (r : Route) : Component → Route
  | .root => {}
  | .here => r
  | .up => match r.names with
    | [] => { r with ascent := r.ascent + 1 }
    | _ :: names => { r with names }
  | .name s => { r with names := s :: r.names }

def of (cs : List Component) : Route := cs.foldl extend {}

/-- Where a route leads from a directory. -/
def target (r : Route) (dir : List String) : List String := r.names ++ dir.drop r.ascent

/-- The route with one step up for an odd number of them, and none for an even number. -/
def parity (r : Route) : Route := { r with ascent := r.ascent % 2 }

/-- The components of a route over what opens the path, the last one first. -/
def stack (r : Route) (base : List Component) : List Component :=
  r.names.map .name ++ (List.replicate r.ascent .up ++ base)

variable {r : Route} {c : Component} {cs base : List Component} {dir : List String}

/-! ## Routes lead where their components lead -/

theorem target_extend (hc : c ≠ .root) : (r.extend c).target dir = follow (r.target dir) c := by
  obtain ⟨ascent, names⟩ := r
  cases c with
  | root => exact absurd rfl hc
  | here => rfl
  | name s => rfl
  | up =>
    cases names with
    | nil => exact List.tail_drop.symm
    | cons s names => rfl

theorem target_foldl_extend (hcs : .root ∉ cs) : (cs.foldl extend r).target dir = arrive (r.target dir) cs := by
  induction cs generalizing r with
  | nil => rfl
  | cons c cs ih =>
    rw [List.mem_cons, not_or] at hcs
    rw [List.foldl_cons, ih hcs.2, target_extend (Ne.symm hcs.1)]
    rfl

theorem arrive_eq_target (hcs : .root ∉ cs) : arrive dir cs = (of cs).target dir :=
  (target_foldl_extend (r := {}) hcs).symm

theorem arrive_reverse_stack (r : Route) : arrive dir (r.stack base).reverse = r.target (arrive dir base.reverse) := by
  have hups : ∀ (k : Nat) (d : List String), arrive d (List.replicate k .up) = d.drop k := by
    intro k
    induction k with
    | zero => exact fun d => rfl
    | succ k ih =>
      intro d
      rw [List.replicate_succ, arrive, List.foldl_cons, ← arrive, ih, follow, List.drop_tail]
  have hnames : ∀ (ns : List String) (d : List String), arrive d (ns.map .name).reverse = ns ++ d := by
    intro ns
    induction ns with
    | nil => exact fun d => rfl
    | cons s ns ih =>
      intro d
      rw [List.map_cons, List.reverse_cons, arrive_append, ih]
      rfl
  rw [stack, List.reverse_append, List.reverse_append, List.reverse_replicate, arrive_append, arrive_append, hups,
    hnames, target]

theorem ascent_foldl_extend_le (cs : List Component) : (cs.foldl extend r).ascent ≤ r.ascent + cs.length := by
  induction cs generalizing r with
  | nil => exact Nat.le_refl _
  | cons c cs ih =>
    have hstep : (r.extend c).ascent ≤ r.ascent + 1 := by
      obtain ⟨ascent, names⟩ := r
      cases c with
      | up => cases names <;> simp [extend]
      | _ => simp [extend]
    have hrest := @ih (r.extend c)
    rw [List.length_cons, List.foldl_cons]
    omega

theorem ascent_of_le (cs : List Component) : (of cs).ascent ≤ cs.length := by
  simpa [of] using ascent_foldl_extend_le (r := {}) cs

/-! ## Routes that are cleaned -/

/-- A step up takes back the last name; over nothing or the root it stays, and over a step up it takes that back. -/
theorem cleanStep_stack (hbase : base ∈ [[], [.root]]) (hc : c ≠ .root) :
    cleanStep (r.parity.stack base) c = (r.extend c).parity.stack base := by
  obtain ⟨ascent, names⟩ := r
  cases c with
  | root => exact absurd rfl hc
  | here => rfl
  | name s => rfl
  | up =>
    cases names with
    | cons s names => rfl
    | nil =>
      rcases Nat.mod_two_eq_zero_or_one ascent with h | h
      · have hodd : (ascent + 1) % 2 = 1 := by omega
        simp only [List.mem_cons, List.not_mem_nil, or_false] at hbase
        rcases hbase with rfl | rfl <;> simp [stack, parity, extend, cleanStep, h, hodd]
      · have heven : (ascent + 1) % 2 = 0 := by omega
        simp [stack, parity, extend, cleanStep, h, heven]

theorem foldl_cleanStep_stack (hbase : base ∈ [[], [.root]]) (hcs : .root ∉ cs) :
    cs.foldl cleanStep (r.parity.stack base) = (cs.foldl extend r).parity.stack base := by
  induction cs generalizing r with
  | nil => rfl
  | cons c cs ih =>
    rw [List.mem_cons, not_or] at hcs
    rw [List.foldl_cons, cleanStep_stack hbase (Ne.symm hcs.1), ih hcs.2]
    rfl

end Route

variable {p : String} {dir : List String}

theorem arrive_components_clean (p : String) (dir : List String) :
    arrive dir (components (clean p)) = arrive dir (cleanComponents (components p)) := by
  rw [clean]
  split
  · next h =>
    have hdot : components "." = [.here] := by decide
    rw [h, hdot]
    rfl
  · rw [components_ofComponents_clean]

theorem arrive_clean_of_relative (hrel : isAbsolute p = false) :
    arrive dir (components (clean p)) = (Route.of (components p)).parity.target dir := by
  have hroot : .root ∉ components p := by
    rw [components, hrel]
    exact root_not_mem_relativeComponents _ _
  have hbase : ([] : List Component) ∈ [[], [.root]] := by decide
  have hstack := Route.foldl_cleanStep_stack (r := {}) hbase hroot
  rw [arrive_components_clean, cleanComponents]
  exact (congrArg (fun acc => arrive dir acc.reverse) hstack).trans (Route.arrive_reverse_stack _)

theorem arrive_clean_of_absolute (habs : isAbsolute p = true) :
    arrive dir (components (clean p)) = arrive dir (components p) := by
  obtain ⟨cs, hcs, hroot⟩ : ∃ cs, components p = .root :: cs ∧ .root ∉ cs := by
    rw [components, if_pos habs]
    exact ⟨_, rfl, root_not_mem_relativeComponents _ _⟩
  have hbase : [Component.root] ∈ [[], [.root]] := by decide
  have hstack := Route.foldl_cleanStep_stack (r := {}) hbase hroot
  have hclean : arrive dir (components (clean p)) = (Route.of cs).parity.target [] := by
    rw [arrive_components_clean, cleanComponents, hcs]
    exact (congrArg (fun acc => arrive dir acc.reverse) hstack).trans (Route.arrive_reverse_stack _)
  have htop : ∀ r : Route, r.parity.target [] = r.target [] := by
    intro r
    rw [Route.target, Route.target, List.drop_nil, List.drop_nil]
    rfl
  rw [hclean, htop, hcs]
  exact (Route.arrive_eq_target hroot).symm

/-- A clean path leads where the path leads, from every directory that is deep enough, if the path is absolute or
leads up at most once. Any other path leads elsewhere once it is clean. -/
theorem clean_keeps_location_iff (p : String) :
    (∀ dir : List String, (components p).length ≤ dir.length →
        arrive dir (components (clean p)) = arrive dir (components p)) ↔
      isAbsolute p = true ∨ (Route.of (components p)).ascent ≤ 1 := by
  by_cases habs : isAbsolute p = true
  · exact iff_of_true (fun dir _ => arrive_clean_of_absolute habs) (.inl habs)
  · have hrel : isAbsolute p = false := by simpa using habs
    have hroot : .root ∉ components p := by
      rw [components, hrel]
      exact root_not_mem_relativeComponents _ _
    have hparity : (Route.of (components p)).ascent % 2 = (Route.of (components p)).ascent ↔
        (Route.of (components p)).ascent ≤ 1 := by omega
    rw [hrel, ← hparity]
    simp only [arrive_clean_of_relative hrel, Route.arrive_eq_target hroot, Bool.false_eq_true, false_or]
    constructor
    · -- the two lead to different depths below a directory of the least depth
      intro h
      have hle := Route.ascent_of_le (components p)
      have hdepth := congrArg List.length (h (List.replicate (components p).length "") (by simp))
      simp only [Route.target, Route.parity, List.length_append, List.length_drop, List.length_replicate] at hdepth
      omega
    · intro h dir _
      rw [Route.target, Route.target, Route.parity, h]

example : clean "../.." = "." ∧ clean "../../a" = "a" ∧ clean "a/../../b" = "../b" := by decide

end EditorAgent.Path

import EditorAgent.Proofs.Go.Standing

/-!
# What records serve

Imports leave the records of packages that are being imported alone, so no check is disturbed by those below it.
Hence records serve what they should along every run of imports, memo clears and questions, on disks that change in
between.
-/

namespace EditorAgent.Go

open Vfs Importer Watched

variable {α β : Type} {free : CacheKey → Prop} {c : CellId} {p : PackagePath}

/-! ## The course of an import -/

/-- What happens between two moments with the same checks under way: records are invalidated, imports get as far as
records that serve, and others run a check with its own course. -/
inductive Course : List Incident → Prop
  | nil : Course []
  | marked (c : CellId) (m : Nat) : Course [.marked c m]
  | served (c : CellId) (p : PackagePath) (x : Except ImportError Package) : Course [.consulted c p (some x)]
  | checked {l : List Incident} (c : CellId) (p : PackagePath) (b : Nat) (r : Except ImportError Package) :
      Course l → Course (.consulted c p none :: .began c b :: (l ++ [.ended c p b r]))
  | append {l l' : List Incident} : Course l → Course l' → Course (l ++ l')

namespace Course

variable {l : List Incident}

theorem marksIn (t t' : Tree) : Course (marksIn t t') := by
  have hall : ∀ l : List Incident, (∀ e ∈ l, ∃ c m, e = .marked c m) → Course l := by
    intro l
    induction l with
    | nil => exact fun _ => .nil
    | cons e l ih =>
      intro hl
      obtain ⟨c, m, rfl⟩ := hl e List.mem_cons_self
      exact .append (.marked c m) (ih fun e he => hl e (List.mem_cons_of_mem _ he))
  refine hall _ fun e he => ?_
  obtain ⟨c, rfl, -⟩ := mem_marksIn he
  exact ⟨c, _, rfl⟩

theorem follow (h : Course l) (under : List CellId) : l.foldl Incident.follow under = under := by
  induction h generalizing under with
  | nil => rfl
  | marked => rfl
  | served => rfl
  | checked c p b r _ ih => simp [Incident.follow, ih]
  | append _ _ ih ih' => rw [List.foldl_append, ih, ih']

theorem opens_append (h : Course l) (log : List Incident) : opens (log ++ l) = opens log := by
  rw [opens, List.foldl_append, h.follow, opens]

end Course

/-! ## Imports -/

/-- Whether a package is being imported. -/
def onChain (chain : List Link) (dir : String) : Bool := chain.any fun l => Path.same l.dir dir

/-- The innermost check under way is that of the last package on the chain. -/
def Within (chain : List Link) (w : Watched) : Prop :=
  ∀ u, (opens w.log).head? = some u → (chain.head?.map (·.cell)) = some u ∧ ∃ y, w.tree.cell? u = some y

/-- What an import does with packages being imported: it leaves their records alone. -/
structure Spares (free : CacheKey → Prop) (chain : List Link) (w w' : Watched) : Prop where
  sound : w'.Sound free
  course : ∃ l, Course l ∧ w'.log = w.log ++ l
  cells : ∀ c x, w.tree.cell? c = some x → ∃ x', w'.tree.cell? c = some x' ∧
    (onChain chain x.content.dir = true → x'.content = x.content)

namespace Spares

variable {w w' w'' : Watched} {chain chain' : List Link}

theorem refl (h : w.Sound free) : Spares free chain w w :=
  ⟨h, ⟨[], .nil, by simp⟩, fun _ x hx => ⟨x, hx, fun _ => rfl⟩⟩

theorem trans (h : Spares free chain w w') (h' : Spares free chain w' w'') : Spares free chain w w'' where
  sound := h'.sound
  course := by
    obtain ⟨l, hl, hlog⟩ := h.course
    obtain ⟨l', hl', hlog'⟩ := h'.course
    exact ⟨l ++ l', hl.append hl', by rw [hlog', hlog, List.append_assoc]⟩
  cells c x hx := by
    obtain ⟨x', hx', hsame⟩ := h.cells c x hx
    obtain ⟨x'', hx'', hsame'⟩ := h'.cells c x' hx'
    refine ⟨x'', hx'', fun hon => ?_⟩
    have hcontent := hsame hon
    exact (hsame' (hcontent ▸ hon)).trans hcontent

theorem log_prefix (h : Spares free chain w w') : w.log <+: w'.log := by
  obtain ⟨l, -, hlog⟩ := h.course
  exact hlog ▸ List.prefix_append _ _

theorem within (h : Spares free chain w w') (hw : Within chain' w) : Within chain' w' := by
  obtain ⟨l, hl, hlog⟩ := h.course
  intro u hu
  rw [hlog, hl.opens_append] at hu
  obtain ⟨hhead, y, hy⟩ := hw u hu
  obtain ⟨y', hy', -⟩ := h.cells u y hy
  exact ⟨hhead, y', hy'⟩

/-- Fewer packages are being imported outside of a check. -/
theorem outside {l : Link} (h : Spares free (l :: chain) w w') : Spares free chain w w' := by
  refine ⟨h.sound, h.course, fun c x hx => ?_⟩
  obtain ⟨x', hx', hsame⟩ := h.cells c x hx
  exact ⟨x', hx', fun hon => hsame (by simp only [onChain, List.any_cons] at hon ⊢; simp [hon])⟩

theorem watch {act : StateM Session α} (h : w.Sound free) (ho : Onward free w.tree (act w.session).2.tree) :
    Spares free chain w (Watched.watch act w).2 := by
  refine ⟨h.watch ho, ⟨_, .marksIn _ _, rfl⟩, fun c x hx => ?_⟩
  obtain ⟨x', hx', hsame⟩ := ho.content c x hx
  exact ⟨x', hx', fun _ => hsame⟩

end Spares

/-- Something that may be done while packages are being imported. -/
def Careful (free : CacheKey → Prop) (chain : List Link) (act : StateM Watched α) : Prop :=
  ∀ w, w.Sound free → Within chain w → Spares free chain w (act w).2

namespace Careful

variable {chain : List Link}

theorem pure (a : α) : Careful free chain (pure a) := fun _ h _ => .refl h

theorem bind {act : StateM Watched α} {f : α → StateM Watched β} (h : Careful free chain act)
    (hf : ∀ a, Careful free chain (f a)) : Careful free chain (act >>= f) :=
  fun w hw hin => (h w hw hin).trans (hf _ _ (h w hw hin).sound ((h w hw hin).within hin))

theorem watch {act : StateM Session α} (h : Asks act) : Careful free chain (Watched.watch act) :=
  fun w hw _ => .watch hw (onward_of_asking (h w.session))

theorem framed {act : StateM Watched α} (h : Careful free chain act) (name : String) :
    Careful free chain (Watched.framed name act) := by
  intro w hw hin
  have hpushed : Watched.Sound free { w with session := { w.session with profile := w.session.profile.push name } } :=
    ⟨hw.filed, hw.used, hw.stamped, hw.marked, hw.mark, hw.begun, hw.ordered, hw.told, hw.known, hw.fair⟩
  have hrun := h _ hpushed hin
  have hs := hrun.sound
  exact ⟨⟨hs.filed, hs.used, hs.stamped, hs.marked, hs.mark, hs.begun, hs.ordered, hs.told, hs.known, hs.fair⟩,
    hrun.course, hrun.cells⟩

theorem all {find : String → WatchedImport} (h : ∀ path, Careful free chain (find path))
    (l : List (String × ImportSpec)) : Careful free chain (watchedAll find l) := by
  induction l with
  | nil => exact .pure _
  | cons q l ih =>
    have hone : Careful free chain (watchedOne find q) := (h q.2.path).bind fun r => by cases r <;> exact .pure _
    refine hone.bind fun r => ?_
    cases r with
    | error e => exact .pure _
    | ok b => exact ih.bind fun r => by cases r <;> exact .pure _

end Careful

theorem asks_conclude (d : Disk) (i : Importer) (p : PackagePath) (files : List PackageFile)
    (imports : List (String × Package)) : Asks (i.conclude d p files imports) := by
  intro s
  rw [(conclude_session d i p files imports s s).2]
  exact .refl s.tree

section Imports

variable {d : Disk} {deps : Importer → String → String → WatchedImport} {i : Importer} {w : Watched}
  {x : Cell PackageRecord}

theorem watched_bind_run (act : StateM Watched α) (f : α → StateM Watched β) (w : Watched) :
    (act >>= f) w = f (act w).1 (act w).2 :=
  rfl

/-- Checking a package whose dependencies are imported with care. -/
theorem spares_check (hdeps : ∀ i path srcDir, Careful free i.chain (deps i path srcDir)) (h : w.Sound free)
    (hx : w.tree.cell? c = some x) (hin : Within (⟨c, x.content.importPath, x.content.dir⟩ :: i.chain) w) :
    Spares free (⟨c, x.content.importPath, x.content.dir⟩ :: i.chain) w (i.watchedCheck d deps c p w).2 := by
  have hparse : Spares free (⟨c, x.content.importPath, x.content.dir⟩ :: i.chain) w (watch (i.parseDir d p) w).2 :=
    Careful.watch (asks_parseDir d i p) w h hin
  rw [watchedCheck]
  generalize watch (i.parseDir d p) = act at hparse ⊢
  rw [watched_bind_run]
  refine hparse.trans ?_
  generalize (act w).2 = w₁ at hparse ⊢
  cases (act w).1 with
  | error e => exact .refl hparse.sound
  | ok files =>
    obtain ⟨x₁, hx₁, hsame⟩ := hparse.cells c x hx
    have hcontent := hsame (by simp [onChain, Path.same])
    have hbranch : (i.branch c w₁.tree).chain = ⟨c, x.content.importPath, x.content.dir⟩ :: i.chain := by
      simp only [branch, hx₁, hcontent]
    have hall : Careful free (i.branch c w₁.tree).chain
        (watchedAll (fun path => deps (i.branch c w₁.tree) path p.dir) (specs files)) :=
      .all (fun path => hdeps _ path p.dir) _
    rw [hbranch] at hall
    dsimp only
    rw [watched_bind_run]
    refine Careful.bind hall (fun r => ?_) w₁ hparse.sound (hparse.within hin)
    cases r with
    | error e => exact .pure _
    | ok imports => exact .watch (asks_conclude d i p files imports)

/-- Notes that an import got as far as a record. -/
def Watched.consult (c : CellId) (p : PackagePath) (stored : Option (Except ImportError Package)) (w : Watched) :
    Watched :=
  { w with log := w.log ++ [.consulted c p stored] }

/-- Checking a package anew, after its record was found to serve nothing, and recording the outcome. -/
theorem spares_renew (hdeps : ∀ i path srcDir, Careful free i.chain (deps i path srcDir))
    (h : (w.consult c p none).Sound free) (hx : w.tree.cell? c = some x) (hpath : x.content.importPath = p.importPath)
    (hfree : onChain i.chain x.content.dir = false) (hold : x.content.checkedAt ≤ markOf w.tree c) :
    Spares free i.chain w (i.watchedRenew d deps c p (w.consult c p none)).2 := by
  have hbegin := h.begin c
  have hlog : ((w.consult c p none).begin c).log = w.log ++ [.consulted c p none, .began c w.tree.tick.1] := by
    simp [Watched.begin, Watched.consult, Watched.tree]
  have hin : Within (⟨c, x.content.importPath, x.content.dir⟩ :: i.chain) ((w.consult c p none).begin c) := by
    intro u hu
    rw [hlog, opens, List.foldl_append] at hu
    obtain rfl : c = u := by simpa [Incident.follow] using hu
    exact ⟨rfl, x, hx⟩
  have hcheck : Spares free _ ((w.consult c p none).begin c) _ :=
    spares_check (d := d) (p := p) (i := i) hdeps hbegin hx hin
  rw [watchedRenew_run]
  generalize i.watchedCheck d deps c p ((w.consult c p none).begin c) = r at hcheck ⊢
  obtain ⟨x₁, hx₁, hsame⟩ := hcheck.cells c x hx
  have hcontent := hsame (by simp [onChain, Path.same])
  have hbegan : .began c w.tree.tick.1 ∈ r.2.log := hcheck.log_prefix.subset (by simp [hlog])
  have hmark : markOf w.tree c ≤ markOf r.2.tree c := by
    rcases h.mark c with hzero | hmem
    · exact (hzero ▸ Nat.zero_le _ : markOf (w.consult c p none).tree c ≤ _)
    · exact hcheck.sound.marked c _ (hcheck.log_prefix.subset (List.mem_append_left _ hmem))
  obtain ⟨l, hl, hrest⟩ := hcheck.course
  refine ⟨hcheck.sound.finish hx₁ (by rw [hcontent, hpath]) ((hcontent ▸ hold).trans hmark) hbegan r.1,
    ⟨_, .checked c p w.tree.tick.1 r.1 hl, ?_⟩, fun c' y hy => ?_⟩
  · change r.2.log ++ [.ended c p w.tree.tick.1 r.1] = _
    rw [hrest, hlog]
    simp
  · obtain ⟨y₁, hy₁, hsame⟩ := hcheck.outside.cells c' y hy
    rw [Watched.Sound.cell?_finish]
    split
    · next heq =>
      obtain rfl := heq
      obtain rfl : x = y := Option.some.inj (hx.symm.trans hy)
      exact ⟨_, congrArg (Option.map _) hy₁, fun hon => by simp [hfree] at hon⟩
    · exact ⟨y₁, hy₁, hsame⟩

theorem checkedAt_le_of_served?_eq_none (h : w.Sound free) (hx : w.tree.cell? c = some x)
    (hserved : served? w.tree c = none) : x.content.checkedAt ≤ markOf w.tree c := by
  have htold := h.told c x hx
  rw [Told] at htold
  split at htold
  · omega
  · obtain ⟨hresult, -, -, hchecked⟩ := htold
    split_ifs at hchecked
    · exact hchecked
    · rw [served?, hx] at hserved
      rw [markOf_of_cell hx]
      by_contra hlt
      have hcond : (x.content.checkedAt != 0 && decide (x.invalidatedAt < x.content.checkedAt)) = true := by
        simp only [Bool.and_eq_true, bne_iff_ne, decide_eq_true_eq]
        omega
      simp [hcond, hresult] at hserved

theorem later_depend (i : Importer) (c : CellId) (t : Tree) : Later CacheKey.Plain t (i.depend c t) := by
  unfold depend
  split
  · exact .addDependent ..
  · exact .refl t

/-- The last package on the chain depends on what it imports. -/
theorem bound_depend {t : Tree} {u : CellId} {y : Cell PackageRecord} (hhead : i.chain.head?.map (·.cell) = some u)
    (hx : t.cell? c = some x) (hy : t.cell? u = some y) : Bound (i.depend c t) u c := by
  obtain ⟨y', hy', -⟩ := (later_depend i c t).cells u y hy
  cases hchain : i.chain with
  | nil =>
    rw [hchain] at hhead
    cases hhead
  | cons l chain =>
    obtain rfl : l.cell = u := by simpa [hchain] using hhead
    have hdepend : i.depend c t = t.addDependent c l.cell := by rw [depend, hchain]
    obtain ⟨x', hx', hmem⟩ := exists_cell_addDependent hx l.cell
    exact ⟨x', y', hdepend ▸ hx', hy', fun _ => hmem⟩

theorem watchedConsult_run (d : Disk) (deps : Importer → String → String → WatchedImport) (i : Importer)
    (p : PackagePath) (w : Watched) :
    i.watchedConsult d deps p w =
      let found := watch (Session.onTree (i.record d p)) w
      let w' := (watch (modify fun s => { s with tree := i.depend found.1 s.tree }) found.2).2
      match served? w'.tree found.1 with
      | some r => (outcome p.importPath r, w'.consult found.1 p (some (outcome p.importPath r)))
      | none =>
        let r := i.watchedRenew d deps found.1 p (w'.consult found.1 p none)
        (outcome p.importPath r.1, r.2) := by
  rw [watchedConsult]
  generalize watch (Session.onTree (i.record d p)) = act
  generalize i.watchedRenew d deps = act'
  rw [watched_bind_run, watched_bind_run]
  dsimp only
  generalize (watch (modify fun s => { s with tree := i.depend (act w).1 s.tree }) (act w).2).2 = w'
  change (match served? w'.tree (act w).1 with
    | some r => (do report (.consulted (act w).1 p (some (outcome p.importPath r))); return outcome p.importPath r)
    | none => (do report (.consulted (act w).1 p none); return outcome p.importPath (← act' (act w).1 p)) :
      WatchedImport) w' = _
  cases served? w'.tree (act w).1 <;> rfl

/-- Going to the record of a package that is not being imported. -/
theorem careful_consult (hdeps : ∀ i path srcDir, Careful free i.chain (deps i path srcDir))
    (hfree : onChain i.chain p.dir = false) : Careful free i.chain (i.watchedConsult d deps p) := by
  intro w h hin
  have hfinds := finds_record h.filed d i p
  rw [watchedConsult_run]
  generalize i.record d p = act at hfinds ⊢
  obtain ⟨x, hx, hsame, hpath⟩ := hfinds.cell
  have hfound : Spares free i.chain w (watch (Session.onTree act) w).2 := .watch h hfinds.onward
  have hx : (watch (Session.onTree act) w).2.tree.cell? (watch (Session.onTree act) w).1 = some x := hx
  generalize watch (Session.onTree act) w = found at hfound hx ⊢
  dsimp only
  have hdepend : Onward free found.2.tree (i.depend found.1 found.2.tree) :=
    onward_of_asking (later_depend i found.1 found.2.tree)
  have hwatch : Spares free i.chain found.2
      (watch (modify fun s => { s with tree := i.depend found.1 s.tree }) found.2).2 := .watch hfound.sound hdepend
  obtain ⟨x', hx', hcontent⟩ := hdepend.content found.1 x hx
  have hx' : (watch (modify fun s => { s with tree := i.depend found.1 s.tree }) found.2).2.tree.cell? found.1 =
    some x' := hx'
  have hbound : ∀ u, (opens (watch (modify fun s => { s with tree := i.depend found.1 s.tree }) found.2).2.log).head? =
      some u → Bound (watch (modify fun s => { s with tree := i.depend found.1 s.tree }) found.2).2.tree u found.1 := by
    obtain ⟨l, hl, hlog⟩ := hwatch.course
    intro u hu
    rw [hlog, hl.opens_append] at hu
    obtain ⟨hhead, y, hy⟩ := hfound.within hin u hu
    exact bound_depend hhead hx hy
  generalize (watch (modify fun s => { s with tree := i.depend found.1 s.tree }) found.2).2 = w' at hwatch hx' hbound ⊢
  have hfair := hwatch.sound.served (p := p) hx' (by rw [hcontent, hpath])
  refine hfound.trans (hwatch.trans ?_)
  cases hserved : served? w'.tree found.1 with
  | some r =>
    rw [hserved] at hfair
    dsimp only
    exact ⟨hwatch.sound.consulted hfair hbound, ⟨_, .served .., rfl⟩, fun _ y hy => ⟨y, hy, fun _ => rfl⟩⟩
  | none =>
    rw [hserved] at hfair
    have hfree' : onChain i.chain x'.content.dir = false := by
      have heq : Path.components x'.content.dir = Path.components p.dir := by
        rw [hcontent]
        simpa [Path.same] using hsame
      simpa only [onChain, Path.same, heq] using hfree
    dsimp only
    exact spares_renew hdeps (hwatch.sound.consulted hfair hbound) hx' (by rw [hcontent, hpath]) hfree'
      (checkedAt_le_of_served?_eq_none hwatch.sound hx' hserved)

theorem careful_package (hdeps : ∀ i path srcDir, Careful free i.chain (deps i path srcDir)) (i : Importer)
    (p : PackagePath) : Careful free i.chain (i.watchedPackage d deps p) := by
  have hchain : (i.retarget p).chain = i.chain := by
    unfold retarget
    extract_lets
    split <;> rfl
  refine Careful.framed ?_ _
  cases hcycle : (i.retarget p).detectCycle p with
  | error e => exact .pure _
  | ok _ =>
    have hfree : onChain (i.retarget p).chain p.dir = false := by
      rw [detectCycle] at hcycle
      split at hcycle
      · cases hcycle
      · next h => simpa [onChain] using h
    exact hchain ▸ careful_consult hdeps hfree

theorem careful_step (hdeps : ∀ i path srcDir, Careful free i.chain (deps i path srcDir)) (i : Importer)
    (path srcDir : String) : Careful free i.chain (watchedStep d deps i path srcDir) := by
  unfold watchedStep
  split
  · exact .pure _
  split
  · exact .pure _
  split
  · exact .pure _
  refine (Careful.watch (.framed (.onTree (looks_findPackage d i.build path _)) _)).bind fun r => ?_
  cases r with
  | error e => exact .pure _
  | ok p => exact careful_package hdeps i p

end Imports

theorem careful_importFrom (d : Disk) (i : Importer) (path srcDir : String) (mode : Nat) :
    Careful free i.chain (i.watchedFrom d path srcDir mode) := by
  have hto : ∀ fuel (i : Importer) path srcDir, Careful free i.chain (watchedTo d fuel i path srcDir) := by
    intro fuel
    induction fuel with
    | zero => exact fun _ _ _ => .pure _
    | succ fuel ih => exact fun i path srcDir => careful_step ih i path srcDir
  unfold watchedFrom
  split
  · exact .pure _
  · exact hto _ i path srcDir

/-! ## Runs -/

/-- What may be asked of a tree, on any disk. -/
inductive Question where
  | clear (n : NodeId)
  | stat (d : Disk) (n : NodeId)
  | readDir (d : Disk) (n : NodeId)
  | blob (d : Disk) (n : NodeId)
  | locate (d : Disk) (n : NodeId) (name : String)
  | scan (d : Disk) (o : ScanOptions) (path : String)
  | expire (n : NodeId)
  | poke (path : String)
  | add (n : NodeId) (name : String) (kind : FileKind)
  | remove (path : String)
  | note (n : NodeId) (k : CacheKey) (x : CacheValue)

namespace Question

def ask : Question → StateM Tree Unit
  | .clear n => modify fun t => t.clearMemo n
  | .stat d n => discard (Vfs.stat d n)
  | .readDir d n => discard (Vfs.readDir d n)
  | .blob d n => discard (Vfs.blob d n)
  | .locate d n name => discard (Vfs.locate d n name)
  | .scan d o path => discard (Vfs.scan d o path)
  | .expire n => modify (Vfs.expire n)
  | .poke path => discard (Vfs.nodeAt path)
  | .add n name kind => modify fun t => (t.addChild n name kind).2
  | .remove path => modify fun t => (t.remove path).2
  | .note n k x => modify fun t => t.putNote n k x

/-- Notes are written under free keys. -/
def Heeds (free : CacheKey → Prop) : Question → Prop
  | .note _ k _ => free k
  | _ => True

theorem looks_ask {q : Question} (hq : q.Heeds free) : Looks free q.ask := by
  cases q with
  | clear n => exact .modify fun t => .clearMemo t n
  | stat d n => exact (looks_stat d n).bind fun _ => .pure _
  | readDir d n => exact (looks_readDir d n).bind fun _ => .pure _
  | blob d n => exact (looks_blob d n).bind fun _ => .pure _
  | locate d n name => exact (looks_locate d n name).bind fun _ => .pure _
  | scan d o path => exact (looks_scan d o path).bind fun _ => .pure _
  | expire n => exact looks_expire n
  | poke path => exact (looks_nodeAt path).bind fun _ => .pure _
  | add n name kind => exact .modify fun t => later_addChild t n name kind
  | remove path => exact .modify fun t => later_remove t path
  | note n k x => exact .modify fun t => later_putNote t n hq x

theorem heeds_of_forall (hfree : ∀ k, free k) (q : Question) : q.Heeds free := by
  cases q with
  | note n k x => exact hfree k
  | _ => trivial

end Question

/-- What may be done with a session. Every import and every question may find another disk. -/
inductive Operation where
  | importing (d : Disk) (i : Importer) (path srcDir : String) (mode : Nat)
  | asking (q : Question)

namespace Operation

def perform : Operation → Session → Session
  | .importing d i path srcDir mode, s => (i.importFrom d path srcDir mode s).2
  | .asking q, s => (Session.onTree q.ask s).2

/-- `perform`, watched. -/
def watched : Operation → Watched → Watched
  | .importing d i path srcDir mode, w => (i.watchedFrom d path srcDir mode w).2
  | .asking q, w => (watch (Session.onTree q.ask) w).2

theorem session_watched (o : Operation) (w : Watched) : (o.watched w).session = o.perform w.session := by
  cases o with
  | importing d i path srcDir mode => exact (erases_importFrom d i path srcDir mode w).2
  | asking q => rfl

/-- Notes are written under free keys. -/
def Heeds (free : CacheKey → Prop) : Operation → Prop
  | .importing .. => True
  | .asking q => q.Heeds free

/-- An operation is done when no check is under way, and leaves none under way. -/
theorem spares_watched {o : Operation} (ho : o.Heeds free) {w : Watched} (h : w.Sound free) (hopens : opens w.log = []) :
    Spares free [] w (o.watched w) := by
  cases o with
  | importing d i path srcDir mode =>
    have hin : Within i.chain w := fun u hu => by simp [hopens] at hu
    have hrun := careful_importFrom d i path srcDir mode w h hin
    refine ⟨hrun.sound, hrun.course, fun c x hx => ?_⟩
    obtain ⟨x', hx', -⟩ := hrun.cells c x hx
    exact ⟨x', hx', fun hon => by simp [onChain] at hon⟩
  | asking q => exact .watch h (onward_of_later (fun _ => id) (q.looks_ask ho w.tree))

end Operation

namespace Watched

/-- A session with a new tree. -/
def start (e : Expiry) (s : Session) : Watched := { session := { s with tree := Vfs.make e } }

def runAll (ops : List Operation) (w : Watched) : Watched := ops.foldl (fun w o => o.watched w) w

theorem sound_start (e : Expiry) (s : Session) : (start e s).Sound free := by
  have hmemo : ∀ n, ((start e s).tree.node n).memo = Memo.empty := memo_make e
  have hmark : ∀ c, markOf (start e s).tree c = 0 := fun _ => rfl
  refine ⟨⟨bounded_make e, fun n => ?_, fun n => ?_, fun n k c hk => ?_, ?_⟩, fun u c hu => ?_, fun c => (hmark c).le, ?_,
    fun c => .inl (hmark c), ?_, .nil, ?_, fun _ _ => rfl, ?_⟩
  · rw [hmemo]
    exact Memo.numbered_empty
  · rw [hmemo]
    exact Memo.intact_empty
  · rw [hmemo] at hk
    exact absurd hk Memo.not_kept_empty
  · rintro c x ⟨⟩
  · obtain ⟨before, p, stored, hpre, -⟩ := hu
    simpa using List.prefix_nil.mp hpre
  · rintro c m ⟨⟩
  · rintro c b ⟨⟩
  · rintro c x ⟨⟩
  · intro before c p stored hpre
    simpa using List.prefix_nil.mp hpre

theorem spares_runAll {ops : List Operation} (hops : ∀ o ∈ ops, o.Heeds free) {w : Watched} (h : w.Sound free)
    (hopens : opens w.log = []) : Spares free [] w (runAll ops w) := by
  induction ops generalizing w with
  | nil => exact .refl h
  | cons o ops ih =>
    have ho := Operation.spares_watched (hops o List.mem_cons_self) h hopens
    obtain ⟨l, hl, hlog⟩ := ho.course
    exact ho.trans (ih (fun o ho => hops o (List.mem_cons_of_mem _ ho)) ho.sound (by rw [hlog, hl.opens_append, hopens]))

theorem session_runAll (ops : List Operation) (w : Watched) :
    (runAll ops w).session = ops.foldl (fun s o => o.perform s) w.session := by
  induction ops generalizing w with
  | nil => rfl
  | cons o ops ih =>
    change (runAll ops (o.watched w)).session = _
    rw [ih, o.session_watched]
    rfl

/-- Along every run, what an import returns of a record without a check is the outcome of the last check of that
record, which was no cycle and began after everything that has invalidated the record; and after such a check, with
no invalidation since it began, the next import returns that outcome. -/
theorem justified_runAll (e : Expiry) (s : Session) (ops : List Operation) :
    (runAll ops (start e s)).session = ops.foldl (fun s o => o.perform s) { s with tree := Vfs.make e } ∧
      Justified (runAll ops (start e s)).log := by
  refine ⟨session_runAll ops (start e s), ?_⟩
  have hops : ∀ o ∈ ops, o.Heeds fun _ => True := by
    intro o _
    cases o with
    | importing => trivial
    | asking q => exact q.heeds_of_forall fun _ => trivial
  exact (spares_runAll hops (sound_start e s) rfl).sound.fair

end Watched

end EditorAgent.Go

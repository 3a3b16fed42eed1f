import EditorAgent.Proofs.Vfs.Coherent
import Mathlib.Data.List.Forall2
import Mathlib.Data.List.Infix

/-!
# What a coherent tree answers

Every question that is asked of a coherent tree has one answer, which the disk alone determines: the kind of
an entry, the sources in a directory, the bytes of a file, the nearest entry of a name. A note is computed at
most once, and serves as if it were computed again.
-/

namespace EditorAgent

/-- The kind of what a path leads to. -/
def Disk.kindAt (d : Disk) (path : String) : Option FileKind :=
  match d.entry path with
  | .ok e => some e.item.kind
  | .error _ => none

namespace Vfs

variable {κ ν ρ α β : Type} {τ : Trust} {d : Disk} {ok : List String → κ → ν → Prop} {v v' : Vfs κ ν ρ} {n c : NodeId}
  {ns : List String}

/-- A run that keeps a tree coherent, leaves the frame alone, and ends as told. -/
def Gives (τ : Trust) (d : Disk) (ok : List String → κ → ν → Prop) (act : StateM (Vfs κ ν ρ) α) (v : Vfs κ ν ρ)
    (Q : α → Vfs κ ν ρ → Prop) : Prop :=
  Coherent τ d ok (act v).2 ∧ Frame v (act v).2 ∧ Q (act v).1 (act v).2

namespace Gives

variable {act : StateM (Vfs κ ν ρ) α} {f : α → StateM (Vfs κ ν ρ) β} {Q Q' : α → Vfs κ ν ρ → Prop}
  {R : β → Vfs κ ν ρ → Prop}

theorem pure {a : α} (h : Coherent τ d ok v) (hq : Q a v) : Gives τ d ok (pure a) v Q := ⟨h, .refl v, hq⟩

theorem bind (h : Gives τ d ok act v Q)
    (hf : ∀ a v', Coherent τ d ok v' → Frame v v' → Q a v' → Gives τ d ok (f a) v' R) :
    Gives τ d ok (act >>= f) v R := by
  obtain ⟨hc, hframe, hq⟩ := h
  obtain ⟨hc', hframe', hr⟩ := hf _ _ hc hframe hq
  exact ⟨hc', hframe.trans hframe', hr⟩

theorem get {f : Vfs κ ν ρ → StateM (Vfs κ ν ρ) β} (h : Gives τ d ok (f v) v R) :
    Gives τ d ok (get >>= f) v R :=
  h

theorem mono (h : Gives τ d ok act v Q) (hq : ∀ a v', Coherent τ d ok v' → Frame v v' → Q a v' → Q' a v') :
    Gives τ d ok act v Q' :=
  ⟨h.1, h.2.1, hq _ _ h.1 h.2.1 h.2.2⟩

end Gives

/-! ## Asking for a node -/

theorem gives_pokeChild {s : String} (h : Coherent τ d ok v) (hn : Stands v n ns) (hs : s ≠ "")
    (hask : Askable τ d ns s) :
    Gives τ d ok (fun v => v.pokeChild n s) v fun c v' => Stands v' c (ns ++ [s]) := by
  cases hc : v.child? n s with
  | some c =>
    have heq : v.pokeChild n s = (c, v) := by rw [pokeChild, hc]
    obtain ⟨hmem, hname⟩ := child?_eq_some hc
    rw [Gives, heq]
    exact ⟨h, .refl v, h.stands_child hn hmem hname hs⟩
  | none =>
    have heq : v.pokeChild n s = v.appendChild n s none := by rw [pokeChild, hc]
    obtain ⟨hcoh, hstands⟩ := h.appendChild none hn hs hask hc
    rw [Gives, heq]
    exact ⟨hcoh, .appendChild v n s none, hstands⟩

/-- The names of a path are asked for one below the other. -/
def Asks (asked : Trust) (ns : List String) : Prop := ∀ pre s, pre ++ [s] <+: ns → asked pre s

theorem asks_nil {asked : Trust} : Asks asked [] := fun pre s hpre => by simp at hpre

theorem Asks.concat {asked : Trust} {s : String} (h : Asks asked ns) (hs : asked ns s) : Asks asked (ns ++ [s]) := by
  intro pre t hpre
  rcases List.prefix_concat_iff.mp hpre with heq | hpre
  · obtain ⟨rfl, hts⟩ := List.append_inj' heq rfl
    obtain rfl := List.singleton_inj.mp hts
    exact hs
  · exact h pre t hpre

/-- Names that may be asked for one after another. -/
def AskablePath (τ : Trust) (d : Disk) (ns : List String) : Prop :=
  ∀ pre s, pre ++ [s] <+: ns → s ≠ "" ∧ Askable τ d pre s

theorem AskablePath.above {ms : List String} (h : AskablePath τ d ns) (hms : ms <+: ns) : AskablePath τ d ms :=
  fun pre s hpre => h pre s (hpre.trans hms)

theorem gives_pokeFrom {rest : List String} (h : Coherent τ d ok v) (hn : Stands v n ns)
    (hask : AskablePath τ d (ns ++ rest)) :
    Gives τ d ok (fun v => v.pokeFrom n rest) v fun c v' => Stands v' c (ns ++ rest) := by
  induction rest generalizing v n ns with
  | nil => exact ⟨h, .refl v, by simpa [pokeFrom] using hn⟩
  | cons s rest ih =>
    obtain ⟨hs, ha⟩ := hask ns s ⟨rest, by simp⟩
    obtain ⟨hc, hframe, hstands⟩ := gives_pokeChild h hn hs ha
    obtain ⟨hc', hframe', hstands'⟩ := ih hc hstands (by simpa using hask)
    rw [List.append_assoc] at hstands'
    exact ⟨hc', hframe.trans hframe', hstands'⟩

theorem gives_nodeAt {path : String} (h : Coherent τ d ok v) (hask : AskablePath τ d (splitPath path)) :
    Gives τ d ok (nodeAt path) v fun c v' => Stands v' c (splitPath path) :=
  gives_pokeFrom h h.stands_root hask

/-- A path none of whose names is that of a source. -/
def Tame (path : String) : Prop := ∀ s ∈ splitPath path, isSourceFile s = false

instance (path : String) : Decidable (Tame path) := inferInstanceAs (Decidable (∀ s ∈ _, _))

namespace Tame

variable {p q : String}

theorem of_subset (h : Tame p) (hq : ∀ s ∈ splitPath q, s ∈ splitPath p) : Tame q := fun s hs => h s (hq s hs)

theorem join (hp : Tame p) (hq : Tame q) : Tame (Path.join p q) := by
  intro s hs
  rcases mem_splitPath_join hs with hs | hs
  · exact hp s hs
  · exact hq s hs

theorem clean (h : Tame p) : Tame (Path.clean p) := h.of_subset fun _ => mem_splitPath_clean

theorem ancestor (h : Tame p) (hq : q ∈ Path.ancestors p) : Tame q :=
  h.of_subset fun _ => mem_splitPath_ancestors hq

end Tame

theorem AskablePath.of_forall (h : ∀ s ∈ ns, s ≠ "" ∧ isSourceFile s = false) : AskablePath τ d ns := by
  intro pre s hpre
  obtain ⟨hs, hgo⟩ := h s (hpre.subset (by simp))
  exact ⟨hs, fun hgo' => absurd hgo' (by simp [hgo])⟩

theorem Tame.askable {path : String} (h : Tame path) : AskablePath τ d (splitPath path) :=
  .of_forall fun s hs => ⟨(isName_of_mem_splitPath hs).1, h s hs⟩

theorem AskablePath.concat {s : String} (h : AskablePath τ d ns) (hs : s ≠ "") (hask : Askable τ d ns s) :
    AskablePath τ d (ns ++ [s]) :=
  Asks.concat h ⟨hs, hask⟩

/-- A name that is not that of a source may be asked for anywhere. -/
theorem AskablePath.file {s : String} (h : AskablePath τ d ns) (hs : s ≠ "") (hgo : isSourceFile s = false) :
    AskablePath τ d (ns ++ [s]) :=
  h.concat hs fun h => absurd h (by simp [hgo])

/-! ## Looking at a node -/

/-- What a look at a node tells, and the tree it leaves. -/
def Tells (d : Disk) (n : NodeId) (ns : List String) (r : Except VfsError FileInfo) (v : Vfs κ ν ρ) : Prop :=
  match d.entry (pathOf ns) with
  | .ok e => ∃ name, r = .ok (infoOf name e) ∧ (v.node n).stat = .found (infoOf name e)
  | .error _ => ∃ cause, r = .error cause

theorem gives_sync (hp : d.Named) (h : Coherent τ d ok v) (hn : Stands v n ns) :
    Gives τ d ok (sync d n) v (Tells d n ns) := by
  cases he : d.entry (pathOf ns) with
  | error e =>
    have hentry : d.entry (v.path n) = .error e := by rw [hn.path_eq, he]
    have hmissing : ∀ x, d.entry (v.path n) ≠ .ok x := by simp [hentry]
    obtain ⟨hc, hframe, -⟩ := coherent_observeMissing h hn.lt hmissing
    have heq : (sync d n v).2 = observeMissing n v := by simp only [sync, hentry]
    refine ⟨heq ▸ hc, heq ▸ hframe, ?_⟩
    simp only [Tells, he, sync, hentry]
    exact ⟨_, rfl⟩
  | ok e =>
    have hentry : d.entry (v.path n) = .ok e := by rw [hn.path_eq, he]
    obtain ⟨hc, hframe, hstat⟩ := coherent_observeFound hp h hn.lt hentry rfl
    have heq : sync d n v = (.ok (infoOf (v.node n).name e), observeFound d n (infoOf (v.node n).name e) v) := by
      simp only [sync, hentry]
      rfl
    rw [Gives, heq]
    refine ⟨hc, hframe, ?_⟩
    simp only [Tells, he]
    exact ⟨_, rfl, hstat⟩

theorem gives_stat (hp : d.Named) (h : Coherent τ d ok v) (hn : Stands v n ns) :
    Gives τ d ok (stat d n) v (Tells d n ns) := by
  have hagrees := (h.sound n hn.lt).stat
  rw [hn.path_eq] at hagrees
  have hsync : stat d n v = sync d n v → Gives τ d ok (stat d n) v (Tells d n ns) := by
    intro heq
    rw [Gives, heq]
    exact gives_sync hp h hn
  cases hf : (v.node n).fresh with
  | false => exact hsync (by simp [stat, hf])
  | true =>
    cases hs : (v.node n).stat with
    | unknown => exact hsync (by simp [stat, hf, hs])
    | found info =>
      have heq : stat d n v = (.ok info, v) := by simp [stat, hf, hs]
      rw [hs] at hagrees
      obtain ⟨e, he, rfl⟩ := hagrees
      rw [Gives, heq]
      refine ⟨h, .refl v, ?_⟩
      simp only [Tells, he]
      exact ⟨_, rfl, hs⟩
    | missing =>
      have heq : stat d n v = (.error (.notExist (v.path n)), v) := by simp [stat, hf, hs]
      rw [hs] at hagrees
      rw [Gives, heq]
      refine ⟨h, .refl v, ?_⟩
      cases he : d.entry (pathOf ns) with
      | ok e => exact absurd he (hagrees e)
      | error e =>
        simp only [Tells, he]
        exact ⟨_, rfl⟩

theorem gives_hasKind (hp : d.Named) (h : Coherent τ d ok v) (hn : Stands v n ns) (kind : FileKind) :
    Gives τ d ok (hasKind d kind n) v fun b _ => b = decide (d.kindAt (pathOf ns) = some kind) := by
  refine (gives_stat hp h hn).bind fun r v' hc _ hr => ?_
  unfold Tells at hr
  cases he : d.entry (pathOf ns) with
  | ok e =>
    rw [he] at hr
    obtain ⟨name, rfl, -⟩ := hr
    refine .pure hc ?_
    simp only [Disk.kindAt, he, Option.some.injEq]
    rfl
  | error e =>
    rw [he] at hr
    obtain ⟨cause, rfl⟩ := hr
    exact .pure hc (by simp [Disk.kindAt, he])

/-- The names that a directory was seen to list, as far as they are those of sources. -/
def Lists (τ : Trust) (d : Disk) (ns : List String) (r : Except VfsError (List String)) : Prop :=
  if d.kindAt (pathOf ns) = some .dir then
    ∃ names, r = .ok names ∧ ∀ s, isSourceFile s = true → τ ns s → (s ∈ names ↔ s ∈ d.names (pathOf ns))
  else ∃ cause, r = .error cause

theorem gives_readDir (hp : d.Named) (h : Coherent τ d ok v) (hn : Stands v n ns) :
    Gives τ d ok (readDir d n) v fun r v' =>
      Lists τ d ns (r.map fun cs => cs.map fun c => (v'.node c).name) ∧
        ∀ cs, r = .ok cs → cs = (v'.node n).children := by
  refine (gives_stat hp h hn).bind fun r v' hc hframe hr => ?_
  have hn' := hn.shape hframe.toShape
  unfold Tells at hr
  cases he : d.entry (pathOf ns) with
  | error e =>
    rw [he] at hr
    obtain ⟨cause, rfl⟩ := hr
    refine .pure hc ⟨?_, by rintro cs ⟨⟩⟩
    simp [Lists, Disk.kindAt, he, Except.map]
  | ok e =>
    rw [he] at hr
    obtain ⟨name, rfl, hstat⟩ := hr
    refine Gives.get ?_
    by_cases hd : e.item.kind = .dir
    · have hk : (infoOf name e).kind = .dir := hd
      rw [if_pos hk]
      refine .pure hc ⟨?_, ?_⟩
      · rw [Lists, if_pos (by simp [Disk.kindAt, he, hd])]
        refine ⟨_, rfl, ?_⟩
        rw [← hn'.path_eq, ← hn'.names]
        exact hc.listed n hn'.lt _ hstat hk
      · rintro cs ⟨⟩
        rfl
    · have hk : (infoOf name e).kind ≠ .dir := hd
      rw [if_neg hk]
      refine .pure hc ⟨?_, by rintro cs ⟨⟩⟩
      rw [Lists, if_neg (by simp [Disk.kindAt, he, hd])]
      exact ⟨_, rfl⟩

/-! ## By path -/

section ByPath

variable {path : String}

theorem gives_isFileAt (hp : d.Named) (h : Coherent τ d ok v) (hask : AskablePath τ d (splitPath path)) :
    Gives τ d ok (isFileAt d path) v fun b _ => b = decide (d.kindAt (pathOf (splitPath path)) = some .file) :=
  (gives_nodeAt h hask).bind fun _ _ hc _ hn => gives_hasKind hp hc hn .file

theorem gives_isDirAt (hp : d.Named) (h : Coherent τ d ok v) (hask : AskablePath τ d (splitPath path)) :
    Gives τ d ok (isDirAt d path) v fun b _ => b = decide (d.kindAt (pathOf (splitPath path)) = some .dir) :=
  (gives_nodeAt h hask).bind fun _ _ hc _ hn => gives_hasKind hp hc hn .dir

theorem gives_namesAt (hp : d.Named) (h : Coherent τ d ok v) (hask : AskablePath τ d (splitPath path)) :
    Gives τ d ok (namesAt d path) v fun r _ => Lists τ d (splitPath path) r := by
  have hread : Gives τ d ok (readDirAt d path) v fun r v' =>
      Lists τ d (splitPath path) (r.map fun cs => cs.map fun c => (v'.node c).name) :=
    (gives_nodeAt h hask).bind fun _ _ hc _ hn => (gives_readDir hp hc hn).mono fun _ _ _ _ hr => hr.1
  refine hread.bind fun r v' hc _ hr => ?_
  cases r with
  | error e => exact .pure hc hr
  | ok cs => exact Gives.get (.pure hc hr)

end ByPath

/-! ## Notes -/

/-- Writing to a memo keeps a tree coherent if the notes are right. -/
theorem Coherent.writeMemo {f : Node κ ν → Node κ ν} {g : Memo (NoteKey κ) (Note ν)} (h : Coherent τ d ok v)
    (hn : Stands v n ns) (hf : f (v.node n) = { v.node n with memo := g }) (hnum : g.Numbered)
    (hnotes : ∀ k x, g.Kept k x → NoteAgrees d ok ns k x) : Coherent τ d ok (v.modifyNode n f) := by
  have hself : (v.modifyNode n f).node n = { v.node n with memo := g } := by
    rw [node_modifyNode_self f hn.lt, hf]
  have hshape : Shape v (v.modifyNode n f) := .modifyNode (by rw [hf]) (by rw [hf])
  have hs := h.sound n hn.lt
  refine h.of_shape hshape (Sound.modifyNode h.sound hshape fun _ => ?_) fun m hm => ?_
  · refine hs.change hn.lt hshape ?_ ?_ ?_ ?_
    all_goals rw [hf]
    · exact hs.children
    · exact hs.stat
    · exact hnum
    · rw [hn.names]
      exact hnotes
  · rw [size_modifyNode] at hm
    refine (h.listed m hm).transfer (h.sound m hm) hshape hm ?_ ?_
    all_goals
      by_cases hmn : m = n
      · rw [hmn, hself]
      · rw [node_modifyNode_of_ne f hmn]

/-- Nothing but the memo is touched if no cell comes or goes. -/
theorem Coherent.setMemo {f : Node κ ν → Node κ ν} {g : Memo (NoteKey κ) (Note ν)} (h : Coherent τ d ok v)
    (hn : Stands v n ns) (hf : f (v.node n) = { v.node n with memo := g }) (hg : (v.node n).memo.Grows g)
    (hnum : g.Numbered) (hnotes : ∀ k x, g.Kept k x → NoteAgrees d ok ns k x)
    (hcells : ∀ k c, g.Kept (.user k) (.cell c) ↔ (v.node n).memo.Kept (.user k) (.cell c)) :
    Coherent τ d ok (v.modifyNode n f) ∧ Frame v (v.modifyNode n f) := by
  have hself : (v.modifyNode n f).node n = { v.node n with memo := g } := by
    rw [node_modifyNode_self f hn.lt, hf]
  refine ⟨h.writeMemo hn hf hnum hnotes, .modifyNode (by rw [hf]) (by rw [hf]), rfl, fun m _ => ?_,
    fun m k c => ?_⟩
  · by_cases hmn : m = n
    · subst hmn
      rw [hself]
      exact hg
    · rw [node_modifyNode_of_ne f hmn]
      exact .refl _
  · by_cases hmn : m = n
    · subst hmn
      rw [hself]
      exact hcells k c
    · rw [node_modifyNode_of_ne f hmn]

variable [DecidableEq κ]

/-- The bytes of a file may be noted. -/
theorem Coherent.putBlob {data : Bytes} (h : Coherent τ d ok v) (hn : Stands v n ns)
    (hread : d.read (pathOf ns) = .ok data) :
    Coherent τ d ok (v.modifyNode n fun nd => { nd with memo := nd.memo.put .blob (.blob data) }) ∧
      Frame v (v.modifyNode n fun nd => { nd with memo := nd.memo.put .blob (.blob data) }) := by
  have hs := h.sound n hn.lt
  refine h.setMemo hn rfl (Memo.grows_put _) (hs.numbered.put _) (fun k x hk => ?_) fun k c => ⟨fun hk => ?_, fun hk => ?_⟩
  · rcases Memo.Kept.of_put hs.numbered hk with ⟨rfl, rfl⟩ | hk
    · exact hread
    · exact hn.names ▸ hs.notes k x hk
  · rcases Memo.Kept.of_put hs.numbered hk with ⟨hk, -⟩ | hk
    · cases hk
    · exact hk
  · exact hk.put hs.numbered (by simp)

theorem gives_blob (hp : d.Named) (h : Coherent τ d ok v) (hn : Stands v n ns) :
    Gives τ d ok (blob d n) v fun r _ => ∀ data, r = .ok data ↔ d.read (pathOf ns) = .ok data := by
  refine (gives_stat hp h hn).bind fun r v' hc hframe hr => ?_
  have hn' := hn.shape hframe.toShape
  unfold Tells at hr
  cases he : d.entry (pathOf ns) with
  | error e =>
    rw [he] at hr
    obtain ⟨cause, rfl⟩ := hr
    exact .pure hc (by simp [Disk.read, he])
  | ok e =>
    rw [he] at hr
    obtain ⟨name, rfl, -⟩ := hr
    refine Gives.get ?_
    by_cases hd : e.item.kind = .dir
    · have hk : (infoOf name e).kind = .dir := hd
      rw [if_pos hk]
      refine .pure hc ?_
      obtain ⟨item, modified⟩ := e
      cases item <;> cases hd
      simp [Disk.read, he]
    · have hk : (infoOf name e).kind ≠ .dir := hd
      rw [if_neg hk]
      split
      · next data hpeek =>
        have := (hc.sound n hn'.lt).notes _ _ (Memo.kept_of_peek? hpeek)
        rw [hn'.names] at this
        have hread : d.read (pathOf ns) = .ok data := this
        exact .pure hc (by simp [hread])
      · rw [hn'.path_eq]
        cases hread : d.read (pathOf ns) with
        | error e => exact .pure hc (by simp)
        | ok data =>
          obtain ⟨hc', hframe'⟩ := hc.putBlob hn' hread
          refine ⟨hc', hframe', fun x => ?_⟩
          change (Except.ok data : Except VfsError Bytes) = .ok x ↔ _
          simp

theorem gives_blobAt {path : String} (hp : d.Named) (h : Coherent τ d ok v)
    (hask : AskablePath τ d (splitPath path)) :
    Gives τ d ok (blobAt d path) v fun r _ =>
      ∀ data, r = .ok data ↔ d.read (pathOf (splitPath path)) = .ok data :=
  (gives_nodeAt h hask).bind fun _ _ hc _ hn => gives_blob hp hc hn

/-- The tree in which the computation of a note is started. -/
def noteStarted (v : Vfs κ ν ρ) (n : NodeId) (k : κ) : Vfs κ ν ρ :=
  v.modifyNode n fun nd => { nd with memo := ((v.node n).memo.start (.user k) Note.isUser).1 }

theorem readNote_eq (n : NodeId) (k : κ) (init : StateM (Vfs κ ν ρ) ν) (v : Vfs κ ν ρ) :
    readNote n k init v = match ((v.node n).memo.start (.user k) Note.isUser).2 with
      | .found (.user x) => (x, v.noteStarted n k)
      | .found _ => init (v.noteStarted n k)
      | .missing serial =>
        ((init (v.noteStarted n k)).1, (init (v.noteStarted n k)).2.modifyNode n fun nd =>
          { nd with memo := nd.memo.finish serial (.user (init (v.noteStarted n k)).1) false }) :=
  rfl

theorem Coherent.noteStarted (h : Coherent τ d ok v) (hn : Stands v n ns) (k : κ) :
    Coherent τ d ok (v.noteStarted n k) ∧ Frame v (v.noteStarted n k) := by
  have hs := h.sound n hn.lt
  exact h.setMemo hn rfl (Memo.grows_start _) (hs.numbered.start _)
    (fun k x hk => hn.names ▸ hs.notes k x ((Memo.kept_start _).mp hk)) (fun _ _ => Memo.kept_start _)

omit [DecidableEq κ] in
/-- A computed note may be kept: its slot still belongs to its key. -/
theorem Coherent.finishNote {k : κ} {a : ν} {serial : Nat} (h : Coherent τ d ok v) (hn : Stands v n ns)
    (ha : ok ns k a) (howns : ∀ k', (v.node n).memo.Owns k' serial → k' = .user k) :
    Coherent τ d ok (v.modifyNode n fun nd => { nd with memo := nd.memo.finish serial (.user a) false }) ∧
      Frame v (v.modifyNode n fun nd => { nd with memo := nd.memo.finish serial (.user a) false }) := by
  have hs := h.sound n hn.lt
  refine h.setMemo hn rfl (Memo.grows_modify fun _ => rfl) (hs.numbered.finish _ _) ?_ ?_
  · intro k' x hk
    rcases Memo.Kept.of_write (fun _ => rfl) howns hk with ⟨rfl, rfl⟩ | hk
    · exact ha
    · exact hn.names ▸ hs.notes k' x hk
  · refine fun k' c => ⟨fun hk => ?_, fun hk => hk.write fun e he hse hv => ?_⟩
    · rcases Memo.Kept.of_write (fun _ => rfl) howns hk with ⟨-, hk⟩ | hk
      · cases hk
      · exact hk
    · -- A cell under this key would leave no value that is right there.
      have hkey := howns e.1 ⟨e, he, rfl, hse⟩
      have : ∀ ns x, ¬ ok ns k x := hs.notes (.user k) (.cell c) ⟨e, he, hkey, hv⟩
      exact this ns a ha

/-- A note is what its computation gives, whether it is read or made. -/
theorem gives_readNote {k : κ} {init : StateM (Vfs κ ν ρ) ν} (h : Coherent τ d ok v) (hn : Stands v n ns)
    (hinit : ∀ v', Coherent τ d ok v' → Gives τ d ok init v' fun x _ => ok ns k x) :
    Gives τ d ok (readNote n k init) v fun x _ => ok ns k x := by
  have hs := h.sound n hn.lt
  obtain ⟨hc₁, hframe₁⟩ := h.noteStarted hn k
  rw [Gives, readNote_eq]
  split
  · next x hl =>
    obtain ⟨hkept, -⟩ := Memo.start_found hl
    exact ⟨hc₁, hframe₁, hn.names ▸ hs.notes _ _ hkept⟩
  · next x hx hl =>
    obtain ⟨-, hwant⟩ := Memo.start_found hl
    cases x with
    | user x => exact absurd rfl (hx x)
    | blob => cases hwant
    | cell => cases hwant
  · next serial hl =>
    obtain ⟨hc₂, hframe₂, hx⟩ := hinit _ hc₁
    have hn₁ := hn.shape hframe₁.toShape
    have hn₂ := hn₁.shape hframe₂.toShape
    have hs₁ := hc₁.sound n hn₁.lt
    have hown : ((v.noteStarted n k).node n).memo.Owns (.user k) serial := by
      rw [noteStarted, node_modifyNode_self _ hn.lt]
      exact (Memo.start_missing hs.numbered hl).1
    have howns : ∀ k', ((init (v.noteStarted n k)).2.node n).memo.Owns k' serial → k' = .user k := by
      intro k' ho
      obtain ⟨e, he, -, hse⟩ := id hown
      have hlt : serial < ((v.noteStarted n k).node n).memo.next := hse ▸ hs₁.numbered.lt e he
      exact hs₁.numbered.owns_unique ((hframe₂.memo n hn₁.lt).owns _ _ ho hlt) hown
    obtain ⟨hc₃, hframe₃⟩ := hc₂.finishNote hn₂ hx howns
    exact ⟨hc₃, hframe₁.trans (hframe₂.trans hframe₃), hx⟩

/-! ## Walking up -/

omit [DecidableEq κ] in
theorem Coherent.lineage_stands (h : Coherent τ d ok v) (hn : Stands v n ns) :
    List.Forall₂ (Stands v) (v.lineage n) ns.inits.reverse := by
  induction n using Nat.strongRecOn generalizing ns with
  | ind n ih =>
    have hs := h.sound n hn.lt
    rw [lineage]
    split
    · next p hp =>
      obtain ⟨hlt, hne⟩ := hs.parent p hp
      have hnames := names_child hp hlt rfl hne
      rw [hn.names] at hnames
      have hup := ih p hlt ⟨Nat.lt_trans hlt hn.lt, rfl⟩
      have hinits : ns.inits.reverse = ns :: (v.names p).inits.reverse := by
        rw [hnames, List.inits_append]
        simp
      rw [dif_pos hlt, hinits]
      exact .cons hn hup
    · next hp =>
      obtain rfl := hs.top hp
      obtain rfl := hn.names.symm.trans h.stands_root.names
      simpa using hn

/-- The nearest of several places that has an entry of a name. -/
def nearest (d : Disk) (name : String) (places : List (List String)) : Option (List String) :=
  (places.map (· ++ [name])).find? fun ns => (d.kindAt (pathOf ns)).isSome

/-- The node that was found, if any, stands for the names that were looked for. -/
inductive Reaches (v : Vfs κ ν ρ) : Option NodeId → Option (List String) → Prop where
  | found {c : NodeId} {ns : List String} (h : Stands v c ns) : Reaches v (some c) (some ns)
  | missing : Reaches v none none

omit [DecidableEq κ] in
theorem gives_locateIn {name : String} (hp : d.Named) (hne : name ≠ "") (hgo : isSourceFile name = false)
    {up : List NodeId} {places : List (List String)} (h : Coherent τ d ok v)
    (hup : List.Forall₂ (Stands v) up places) :
    Gives τ d ok (locateIn d name up) v fun o v' => Reaches v' o (nearest d name places) := by
  induction up generalizing v places with
  | nil =>
    cases hup
    exact .pure h .missing
  | cons n up ih =>
    obtain ⟨ns, rest, hn, hrest, rfl⟩ := List.forall₂_cons_left_iff.mp hup
    have hask : Askable τ d ns name := fun h => absurd h (by simp [hgo])
    refine (gives_pokeChild h hn hne hask).bind fun c v₁ hc₁ hframe₁ hstands => ?_
    refine (gives_stat hp hc₁ hstands).bind fun r v₂ hc₂ hframe₂ hr => ?_
    have hup₂ : List.Forall₂ (Stands v₂) up rest :=
      hrest.imp fun _ _ hx => hx.shape (hframe₁.trans hframe₂).toShape
    unfold Tells at hr
    cases he : d.entry (pathOf (ns ++ [name])) with
    | ok e =>
      rw [he] at hr
      obtain ⟨_, rfl, -⟩ := hr
      have hnear : nearest d name (ns :: rest) = some (ns ++ [name]) := by simp [nearest, Disk.kindAt, he]
      rw [hnear]
      exact .pure hc₂ (.found (hstands.shape hframe₂.toShape))
    | error e =>
      rw [he] at hr
      obtain ⟨_, rfl⟩ := hr
      have hnear : nearest d name (ns :: rest) = nearest d name rest := by simp [nearest, Disk.kindAt, he]
      rw [hnear]
      exact ih hc₂ hup₂

omit [DecidableEq κ] in
theorem gives_locate {name : String} (hp : d.Named) (hne : name ≠ "") (hgo : isSourceFile name = false)
    (h : Coherent τ d ok v) (hn : Stands v n ns) :
    Gives τ d ok (locate d n name) v fun o v' => Reaches v' o (nearest d name ns.inits.reverse) :=
  Gives.get (gives_locateIn hp hne hgo h (h.lineage_stands hn))

end Vfs
end EditorAgent

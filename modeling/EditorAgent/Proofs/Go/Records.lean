import EditorAgent.Proofs.Go.Unmemoised

/-!
# The records of imported packages

Every cell of the tree belongs to one package under one platform and one set of flags: its site. `Ledger` says
that the tree is coherent and that the outcome a record serves is what importing without records comes to.
Each thing an import does to the tree keeps the ledger.
-/

namespace EditorAgent.Go

open Vfs Importer

variable {d : Disk} {b : BuildContext} {o : Overlay} {t t' : Trail} {sites : List Site} {σ : Site} {v v' v'' : Tree} {c : CellId}
  {p : PackagePath} {x : Outcome}

/-- The key that a package is recorded under. -/
def Site.key (σ : Site) : PackageKey :=
  (Importer.under σ.build σ.flags σ.overlay []).key { dir := σ.dir, importPath := σ.importPath }

/-- A context that differs from another in the platform at most. -/
def BuildContext.Kin (b b' : BuildContext) : Prop := b' = b.withTarget b'.goos b'.goarch

/-- One context and plain directories leave a key no choice. -/
theorem Site.eq_of_key_eq {σ' : Site} (hkin : b.Kin σ.build) (hkin' : b.Kin σ'.build)
    (hover : σ.overlay = σ'.overlay) (hdir : Path.Plain σ.dir) (hdir' : Path.Plain σ'.dir) (h : σ.key = σ'.key) : σ = σ' := by
  obtain ⟨build, flags, overlay, importPath, dir⟩ := σ
  obtain ⟨build', flags', overlay', importPath', dir'⟩ := σ'
  obtain rfl : overlay = overlay' := hover
  simp only [Site.key, Importer.key, Importer.under, PackageKey.mk.injEq] at h
  obtain ⟨rfl, hd, rfl, -, harch, hos, -, -, -⟩ := h
  have hbuild : build = build' := by
    calc build = b.withTarget build.goos build.goarch := hkin
      _ = b.withTarget build'.goos build'.goarch := by rw [hos, harch]
      _ = build' := hkin'.symm
  rw [hdir.normal_eq, hdir'.normal_eq] at hd
  simp only at hd
  rw [hbuild, hd]

/-- What a record says of its package. -/
structure Entered (d : Disk) (t : Trail) (σ : Site) (x : Cell PackageRecord) : Prop where
  importPath : x.content.importPath = σ.importPath
  dir : x.content.dir = σ.dir
  valid : x.invalidatedAt = 0
  result : x.content.checkedAt ≠ 0 → ∃ r n, x.content.result = some r ∧ isCycle r = false ∧
    (σ.check d fun path => evalTo d false n t (σ.request path)) = some r

/-- Cells belong to sites, keys lead to the cells of their sites, and what cells say is so. -/
structure Ledger (d : Disk) (b : BuildContext) (o : Overlay) (t : Trail) (sites : List Site) (v : Tree) : Prop where
  coherent : Coherent .full d (Noted d b) v
  size : v.cells.size = sites.length
  filed : ∀ n k c, (v.node n).memo.Kept (.user k) (.cell c) → ∃ σ, sites[c]? = some σ ∧ k = .package σ.key
  entered : ∀ c σ x, sites[c]? = some σ → v.cell? c = some x → Entered d t σ x
  known : ∀ σ ∈ sites, b.Kin σ.build ∧ σ.overlay = o ∧ Path.Plain σ.dir

theorem ledger_make (d : Disk) (b : BuildContext) (o : Overlay) (t : Trail) (e : Expiry) : Ledger d b o t [] (Vfs.make e) := by
  have hmemo : ∀ n, ((Vfs.make e : Tree).node n).memo = Memo.empty := by
    intro n
    cases n with
    | zero => rfl
    | succ n =>
      rw [Vfs.node, Array.getD_eq_getD_getElem?, Array.getElem?_eq_none (by simp [Vfs.make])]
      rfl
  refine ⟨coherent_make .full d _ e, rfl, ?_, by simp, by simp⟩
  intro n k c hk
  rw [hmemo] at hk
  exact absurd hk Memo.not_kept_empty

theorem getElem?_mono {α : Type} {l l' : List α} {n : Nat} {a : α} (h : l <+: l') (hc : l[n]? = some a) :
    l'[n]? = some a := by
  obtain ⟨rest, rfl⟩ := h
  exact (List.getElem?_append_left (List.getElem?_eq_some_iff.mp hc).1).trans hc

namespace Ledger

theorem cell (h : Ledger d b o t sites v) (hc : sites[c]? = some σ) : ∃ x, v.cell? c = some x := by
  obtain ⟨hlt, -⟩ := List.getElem?_eq_some_iff.mp hc
  rw [← h.size] at hlt
  exact ⟨_, Array.getElem?_eq_getElem hlt⟩

theorem site_of_mem (h : Ledger d b o t sites v) (hc : sites[c]? = some σ) :
    b.Kin σ.build ∧ σ.overlay = o ∧ Path.Plain σ.dir :=
  h.known σ (List.mem_of_getElem? hc)

/-- Looking at the disk does not touch the records. -/
theorem of_frame (h : Ledger d b o t sites v) (hv : Coherent .full d (Noted d b) v') (hf : Frame v v') :
    Ledger d b o t sites v' where
  coherent := hv
  size := by rw [hf.cells, h.size]
  filed n k c hk := h.filed n k c ((hf.files n k c).mp hk)
  entered c σ x hc hx := h.entered c σ x hc (by rwa [cell?, hf.cells] at hx)
  known := h.known

theorem of_eq (h : Ledger d b o t sites v) (hn : v'.nodes = v.nodes) (hc : v'.cells = v.cells) :
    Ledger d b o t sites v' where
  coherent := h.coherent.of_nodes hn
  size := by rw [hc, h.size]
  filed n k c hk := h.filed n k c (by rwa [Vfs.node, hn] at hk)
  entered c σ x hs hx := h.entered c σ x hs (by rwa [cell?, hc] at hx)
  known := h.known

end Ledger

theorem cell?_modifyCell (v : Tree) (c c' : CellId) (f : Cell PackageRecord → Cell PackageRecord) :
    (v.modifyCell c f).cell? c' = if c = c' then (v.cell? c').map f else v.cell? c' := by
  rw [cell?, modifyCell, Array.getElem?_modify]
  rfl

theorem Ledger.modifyCell {f : Cell PackageRecord → Cell PackageRecord} (h : Ledger d b o t sites v)
    (hf : ∀ σ x, sites[c]? = some σ → v.cell? c = some x → Entered d t σ (f x)) :
    Ledger d b o t sites (v.modifyCell c f) where
  coherent := h.coherent.of_nodes rfl
  size := by rw [Vfs.modifyCell, Array.size_modify, h.size]
  filed := h.filed
  entered c' σ x hc hx := by
    rw [cell?_modifyCell] at hx
    split at hx
    · next heq =>
      subst heq
      obtain ⟨y, hy, rfl⟩ := Option.map_eq_some_iff.mp hx
      exact hf σ y hc hy
    · exact h.entered c' σ x hc hx
  known := h.known

/-! ## Records that are left alone -/

/-- The records of the packages on a trail are as they were. -/
def Spared (t : Trail) (v v' : Tree) : Prop :=
  ∀ c x, v.cell? c = some x → t.meets x.content.dir = true → ∃ x', v'.cell? c = some x' ∧ x'.content = x.content

namespace Spared

theorem trans (h : Spared t v v') (h' : Spared t v' v'') : Spared t v v'' := by
  intro c x hx hm
  obtain ⟨x', hx', heq⟩ := h c x hx hm
  obtain ⟨x'', hx'', heq'⟩ := h' c x' hx' (by rw [heq, hm])
  exact ⟨x'', hx'', heq'.trans heq⟩

theorem of_cells (h : ∀ c x, v.cell? c = some x → v'.cell? c = some x) : Spared t v v' :=
  fun c x hx _ => ⟨x, h c x hx, rfl⟩

theorem of_eq (h : v'.cells = v.cells) : Spared t v v' := of_cells fun c x hx => by rw [cell?, h]; exact hx

theorem within (h : Spared t v v') (ht : t'.Within t) : Spared t' v v' := fun c x hx hm => h c x hx (ht _ hm)

theorem modifyCell {f : Cell PackageRecord → Cell PackageRecord}
    (h : ∀ x, v.cell? c = some x → t.meets x.content.dir = true → (f x).content = x.content) :
    Spared t v (v.modifyCell c f) := by
  intro c' x hx hm
  rw [cell?_modifyCell]
  split
  · next heq =>
    subst heq
    exact ⟨f x, by rw [hx, Option.map_some], h x hx hm⟩
  · exact ⟨x, hx, rfl⟩

end Spared

/-! ## What an import does to records -/

theorem Ledger.addDependent (h : Ledger d b o t sites v) (user : CellId) :
    Ledger d b o t sites (v.addDependent c user) :=
  h.modifyCell fun σ x hc hx =>
    let hx := h.entered c σ x hc hx
    ⟨hx.importPath, hx.dir, hx.valid, hx.result⟩

theorem spared_addDependent (v : Tree) (c user : CellId) : Spared t v (v.addDependent c user) :=
  .modifyCell fun _ _ _ => rfl

/-- A record serves what importing without records comes to. -/
theorem Ledger.served (h : Ledger d b o t sites v) (hc : sites[c]? = some σ) (hs : served? v c = some x) :
    isCycle x = false ∧ ∃ n, (σ.check d fun path => evalTo d false n t (σ.request path)) = some x := by
  obtain ⟨y, hy⟩ := h.cell hc
  rw [served?, hy] at hs
  simp only at hs
  split at hs
  · next hcond =>
    simp only [Bool.and_eq_true, bne_iff_ne] at hcond
    obtain ⟨r, n, hr, hcycle, hn⟩ := (h.entered c σ y hc hy).result hcond.1
    obtain rfl : r = x := by simpa [hr] using hs
    exact ⟨hcycle, n, hn⟩
  · cases hs

/-- A record that serves nothing has not been checked. -/
theorem Ledger.checkedAt_eq_zero (h : Ledger d b o t sites v) (hc : sites[c]? = some σ) (hs : served? v c = none)
    {y : Cell PackageRecord} (hy : v.cell? c = some y) : y.content.checkedAt = 0 := by
  by_contra hne
  have he := h.entered c σ y hc hy
  obtain ⟨r, n, hr, -, -⟩ := he.result hne
  rw [served?, hy] at hs
  have hpos : 0 < y.content.checkedAt := Nat.pos_of_ne_zero hne
  simp [he.valid, hne, hpos, hr] at hs

/-- An outcome is recorded: one that counts if it is not a cycle, and else only where nothing counted. -/
theorem Ledger.store {began : Nat} (h : Ledger d b o t sites v) (hc : sites[c]? = some σ)
    (hx : isCycle x = false → ∃ n, (σ.check d fun path => evalTo d false n t (σ.request path)) = some x)
    (hzero : ∀ y, v.cell? c = some y → y.content.checkedAt = 0) :
    Ledger d b o t sites (store c began x v) := by
  refine h.modifyCell fun σ' y hc' hy => ?_
  obtain rfl : σ = σ' := by simpa [hc] using hc'
  have he := h.entered c σ y hc hy
  refine ⟨he.importPath, he.dir, he.valid, fun hne => ?_⟩
  cases hcycle : isCycle x with
  | true => simp [hcycle, hzero y hy] at hne
  | false =>
    obtain ⟨n, hn⟩ := hx hcycle
    exact ⟨x, n, rfl, hcycle, hn⟩

theorem Ledger.spared_store {began : Nat} (h : Ledger d b o t sites v) (hc : sites[c]? = some σ)
    (hσ : t'.meets σ.dir = false) : Spared t' v (Importer.store c began x v) := by
  refine .modifyCell fun y hy hm => ?_
  rw [(h.entered c σ y hc hy).dir, hσ] at hm
  cases hm

/-- The importer for the dependencies of a package. -/
def Site.importer (σ : Site) (c : CellId) (chain : List Link) : Importer :=
  Importer.under σ.build {} σ.overlay (⟨c, σ.importPath, σ.dir⟩ :: chain)

theorem Ledger.branch (h : Ledger d b o t sites v) (hc : sites[c]? = some σ) (flags : CheckFlags)
    (chain : List Link) : (Importer.under σ.build flags σ.overlay chain).branch c v = σ.importer c chain := by
  obtain ⟨y, hy⟩ := h.cell hc
  have he := h.entered c σ y hc hy
  rw [Importer.branch, hy]
  simp only [he.importPath, he.dir]
  rfl

/-! ## Finding a record -/

theorem gives_statAll {τ : Trust} {ok : List String → CacheKey → CacheValue → Prop} (hp : d.Named) {cs : List NodeId}
    (hv : Coherent τ d ok v) (hcs : ∀ c ∈ cs, c < v.nodes.size) :
    Gives τ d ok (cs.forM fun c => do let _ ← Vfs.stat d c) v fun _ _ => True := by
  induction cs generalizing v with
  | nil => exact .pure hv trivial
  | cons c cs ih =>
    have hstat := gives_stat hp hv ⟨hcs c List.mem_cons_self, rfl⟩
    refine (hstat.bind fun _ v₁ hv₁ _ _ => Gives.pure hv₁ (Q := fun _ _ => True) trivial).bind
      fun _ v₁ hv₁ hf _ => ih hv₁ fun c' hc' => ?_
    exact Nat.lt_of_lt_of_le (hcs c' (List.mem_cons_of_mem _ hc')) hf.size_le

theorem gives_refresh {τ : Trust} {ok : List String → CacheKey → CacheValue → Prop} (hp : d.Named) {n : NodeId}
    {ns : List String} (hv : Coherent τ d ok v) (hn : Stands v n ns) :
    Gives τ d ok (refresh d n) v fun _ _ => True := by
  refine (gives_readDir hp hv hn).bind fun r v₁ hv₁ hf hr => ?_
  cases r with
  | error e => exact .pure hv₁ trivial
  | ok cs =>
    refine Gives.get (gives_statAll hp hv₁ fun c hc => ?_)
    rw [hr.2 cs rfl] at hc
    exact ((hv₁.sound n (hn.shape hf.toShape).lt).children c (List.mem_of_mem_filter hc)).1

/-- The memo that leads to a new cell. -/
def memoMade (v : Tree) (n : NodeId) (k : CacheKey) (serial : Nat) : Memo (NoteKey CacheKey) (Note CacheValue) :=
  ((v.node n).memo.start (.user k) Note.isCell).1.finish serial (.cell v.cells.size) true

/-- The tree with a new cell in it. -/
def cellMade (v : Tree) (n : NodeId) (k : CacheKey) (serial : Nat) (content : PackageRecord) : Tree :=
  { v.modifyNode n fun nd => { nd with memo := memoMade v n k serial } with
    cells := v.cells.push { home := n, content } }

theorem readCell_eq (v : Tree) (n : NodeId) (k : CacheKey) (content : PackageRecord) :
    v.readCell n k content = match ((v.node n).memo.start (.user k) Note.isCell).2 with
      | .found (.cell c) => (c, v)
      | .found _ => (v.cells.size, v)
      | .missing serial => (v.cells.size, cellMade v n k serial content) := by
  rw [readCell]
  cases hstart : (v.node n).memo.start (.user k) Note.isCell with
  | mk memo found =>
    simp only [cellMade, memoMade, hstart]
    cases found with
    | found x => cases x <;> rfl
    | missing serial => rfl

theorem not_noted_package (k : PackageKey) (ns : List String) (x : CacheValue) : ¬ Noted d b ns (.package k) x := by
  cases x <;> exact id

section CellMade

variable {n : NodeId} {ns : List String} {serial : Nat}

/-- The new cell is the one new thing in a memo. -/
theorem kept_cellMade {τ : Trust} {ok : List String → CacheKey → CacheValue → Prop} {key : CacheKey}
    (h : Coherent τ d ok v) (hn : Stands v n ns)
    (hstart : ((v.node n).memo.start (.user key) Note.isCell).2 = .missing serial)
    {k : NoteKey CacheKey} {x : Note CacheValue} (hk : (memoMade v n key serial).Kept k x) :
    (k = .user key ∧ x = .cell v.cells.size) ∨ (v.node n).memo.Kept k x := by
  have hnum := (h.sound n hn.lt).numbered
  have howns := (Memo.start_missing hnum hstart).1
  rcases Memo.Kept.of_write (fun _ => rfl) (fun _ ho => (hnum.start _).owns_unique ho howns) hk with hk | hk
  · exact .inl hk
  · exact .inr ((Memo.kept_start _).mp hk)

/-- A cell may be made under a key for which no note is right. -/
theorem coherent_cellMade {τ : Trust} {ok : List String → CacheKey → CacheValue → Prop} {key : CacheKey}
    (h : Coherent τ d ok v) (hn : Stands v n ns)
    (hstart : ((v.node n).memo.start (.user key) Note.isCell).2 = .missing serial) (hkey : ∀ ns x, ¬ ok ns key x)
    (content : PackageRecord) : Coherent τ d ok (cellMade v n key serial content) := by
  have hs := h.sound n hn.lt
  have hnum : (memoMade v n key serial).Numbered := (hs.numbered.start _).finish _ _
  have hwrite : Coherent τ d ok (v.modifyNode n fun nd => { nd with memo := memoMade v n key serial }) := by
    refine h.writeMemo hn rfl hnum fun k x hk => ?_
    rcases kept_cellMade h hn hstart hk with ⟨rfl, rfl⟩ | hk
    · exact hkey
    · exact hn.names ▸ hs.notes k x hk
  exact hwrite.of_nodes rfl

theorem Ledger.cellMade (h : Ledger d b o t sites v) (hkin : b.Kin σ.build) (hover : σ.overlay = o)
    (hplain : Path.Plain σ.dir) (hn : Stands v n ns)
    (hstart : ((v.node n).memo.start (.user (.package σ.key)) Note.isCell).2 = .missing serial) :
    Ledger d b o t (sites ++ [σ])
      (cellMade v n (.package σ.key) serial { importPath := σ.importPath, dir := σ.dir }) := by
  have hlast : (sites ++ [σ])[v.cells.size]? = some σ := by simp [h.size]
  have hold : sites <+: sites ++ [σ] := List.prefix_append _ _
  refine ⟨coherent_cellMade h.coherent hn hstart (not_noted_package σ.key) _, by simp [Go.cellMade, h.size], ?_, ?_, ?_⟩
  · intro m k c hk
    have hk : ((v.modifyNode n fun nd => { nd with memo := memoMade v n (.package σ.key) serial }).node m).memo.Kept
        (.user k) (.cell c) := hk
    by_cases hmn : m = n
    · subst hmn
      rw [node_modifyNode_self _ hn.lt] at hk
      rcases kept_cellMade h.coherent hn hstart hk with ⟨hkey, hc⟩ | hk
      · cases hkey
        cases hc
        exact ⟨σ, hlast, rfl⟩
      · obtain ⟨σ', hσ', hkey⟩ := h.filed m k c hk
        exact ⟨σ', getElem?_mono hold hσ', hkey⟩
    · rw [node_modifyNode_of_ne _ hmn] at hk
      obtain ⟨σ', hσ', hkey⟩ := h.filed m k c hk
      exact ⟨σ', getElem?_mono hold hσ', hkey⟩
  · intro c σ' x hc hx
    have hx : (v.cells.push { home := n, content := { importPath := σ.importPath, dir := σ.dir } })[c]? = some x := hx
    rw [Array.getElem?_push] at hx
    split at hx
    · next heq =>
      rw [heq, hlast] at hc
      cases hc
      cases hx
      exact ⟨rfl, rfl, rfl, fun hne => absurd rfl hne⟩
    · have hlt : c < sites.length := by
        rw [← h.size]
        exact (Array.getElem?_eq_some_iff.mp hx).1
      rw [List.getElem?_append_left hlt] at hc
      exact h.entered c σ' x hc hx
  · intro σ' hσ'
    rcases List.mem_append.mp hσ' with hσ' | hσ'
    · exact h.known σ' hσ'
    · obtain rfl := List.mem_singleton.mp hσ'
      exact ⟨hkin, hover, hplain⟩

end CellMade

/-- What comes of looking a package up among the records. -/
structure Recorded (d : Disk) (b : BuildContext) (o : Overlay) (t : Trail) (sites : List Site) (σ : Site) (v : Tree)
    (r : CellId × Tree) : Prop where
  ledger : ∃ sites', sites <+: sites' ∧ Ledger d b o t sites' r.2 ∧ sites'[r.1]? = some σ
  cells : ∀ c x, v.cell? c = some x → r.2.cell? c = some x

theorem Ledger.readCell (h : Ledger d b o t sites v) (hkin : b.Kin σ.build) (hover : σ.overlay = o)
    (hplain : Path.Plain σ.dir) {n : NodeId} {ns : List String} (hn : Stands v n ns) :
    Recorded d b o t sites σ v
      (v.readCell n (.package σ.key) { importPath := σ.importPath, dir := σ.dir }) := by
  rw [readCell_eq]
  cases hstart : ((v.node n).memo.start (.user (.package σ.key)) Note.isCell).2 with
  | found x =>
    obtain ⟨hkept, hcell⟩ := Memo.start_found hstart
    cases x with
    | cell c =>
      obtain ⟨σ', hσ', hkey⟩ := h.filed n _ c hkept
      obtain ⟨hkin', hover', hplain'⟩ := h.site_of_mem hσ'
      obtain rfl := Site.eq_of_key_eq hkin hkin' (hover.trans hover'.symm) hplain hplain' (CacheKey.package.inj hkey)
      exact ⟨⟨sites, List.prefix_refl _, h, hσ'⟩, fun _ _ hx => hx⟩
    | _ => cases hcell
  | missing serial =>
    refine ⟨⟨sites ++ [σ], List.prefix_append _ _, h.cellMade hkin hover hplain hn hstart, by simp [h.size]⟩, ?_⟩
    intro c x hx
    have hne : c ≠ v.cells.size := Nat.ne_of_lt (Array.getElem?_eq_some_iff.mp hx).1
    have hpush : (v.cells.push { home := n, content := { importPath := σ.importPath, dir := σ.dir } })[c]? = some x := by
      rw [Array.getElem?_push, if_neg hne]
      exact hx
    exact hpush

/-- Looks at a package's directory before its record is used. -/
def look (d : Disk) (dir : String) : StateM Tree NodeId := do
  let n ← Vfs.nodeAt dir
  refresh d n
  return n

theorem look_run (d : Disk) (dir : String) (v : Tree) :
    look d dir v = ((Vfs.nodeAt dir v).1, (refresh d (Vfs.nodeAt dir v).1 (Vfs.nodeAt dir v).2).2) := by
  rw [look]
  generalize Vfs.nodeAt dir = act
  rfl

theorem record_eq (d : Disk) (i : Importer) (p : PackagePath) (v : Tree) :
    i.record d p v = (look d p.dir v).2.readCell (look d p.dir v).1 (.package (i.key p))
      { importPath := p.importPath, dir := p.dir } := by
  have hbind : i.record d p = look d p.dir >>= fun n =>
      modifyGet fun t => t.readCell n (.package (i.key p)) { importPath := p.importPath, dir := p.dir } := by
    simp only [Importer.record, look, bind_assoc, pure_bind]
  rw [hbind]
  generalize look d p.dir = act
  rfl

theorem gives_look {τ : Trust} {ok : List String → CacheKey → CacheValue → Prop} (hp : d.Named) {dir : String}
    (hdir : AskablePath τ d (splitPath dir)) (hv : Coherent τ d ok v) :
    Gives τ d ok (look d dir) v fun n v' => Stands v' n (splitPath dir) := by
  refine (gives_nodeAt hv hdir).bind fun n v₁ hv₁ _ hn => ?_
  refine (gives_refresh hp hv₁ hn).bind fun _ v₂ hv₂ hf _ => ?_
  exact .pure hv₂ (hn.shape hf.toShape)

/-- A package's record, found or made. -/
theorem Ledger.record (hp : d.Proper) (h : Ledger d b o t sites v) (hkin : b.Kin σ.build)
    (hover : σ.overlay = o) (hplain : Path.Plain σ.dir) (htame : Tame σ.dir) (hdir : p.dir = σ.dir)
    (hpath : p.importPath = σ.importPath) (chain : List Link) :
    Recorded d b o t sites σ v ((Importer.under σ.build σ.flags σ.overlay chain).record d p v) := by
  obtain ⟨hcoherent, hframe, hn⟩ := gives_look hp.named htame.askable h.coherent
  have hkey : (Importer.under σ.build σ.flags σ.overlay chain).key p = σ.key := by
    rw [Site.key, Importer.key, Importer.key, hdir, hpath]
    rfl
  have hread := (h.of_frame hcoherent hframe).readCell hkin hover hplain hn
  rw [record_eq, hkey, hdir, hpath]
  refine ⟨hread.ledger, fun c x hx => hread.cells c x ?_⟩
  rw [cell?, hframe.cells]
  exact hx

end EditorAgent.Go

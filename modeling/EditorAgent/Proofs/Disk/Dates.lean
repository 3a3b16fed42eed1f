import EditorAgent.Disk.Edit
import EditorAgent.Proofs.Disk.Following

/-!
# Dates

Every edit gives what it makes or changes a date that nothing had before. So a path that leads to something of the
same date again leads to the same, unless it has come to lead from one file of the first disk to another. It cannot as
long as the links stay.
-/

namespace EditorAgent.Disk

variable {first d d' d'' : Disk} {ds : List Disk} {x y : Location × DiskEntry} {e e' : DiskEntry} {l l' here : Location}
  {p : String} {links : Nat} {xs : List String} {t : Int} {item : Item}

/-! ## Histories -/

/-- The disks since the first one, the last one first. What is new on a disk has a date that was on no disk before, and
files that are new have different dates, unless they are the same. -/
inductive Dated (first : Disk) : List Disk → Prop
  | start : Dated first [first]
  | edit {d d' : Disk} {ds : List Disk} (h : Dated first (d :: ds))
      (hnew : ∀ x ∈ d'.entries, x ∈ d.entries ∨ ∀ b ∈ d :: ds, ∀ y ∈ b.entries, y.2.modified ≠ x.2.modified)
      (hapart : ∀ x ∈ d'.entries, x ∉ d.entries → ∀ y ∈ d'.entries, y ∉ d.entries → x.2.item.kind ≠ .dir →
        y.2.item.kind ≠ .dir → x.2.modified = y.2.modified → x.2 = y.2) : Dated first (d' :: d :: ds)

/-- Files of the same date are the same, if they were not on the first disk already. -/
theorem Dated.eq_or_mem_first (h : Dated first ds) (hd : d ∈ ds) (hd' : d' ∈ ds) (hx : x ∈ d.entries)
    (hy : y ∈ d'.entries) (hxkind : x.2.item.kind ≠ .dir) (hykind : y.2.item.kind ≠ .dir)
    (hdate : x.2.modified = y.2.modified) : x.2 = y.2 ∨ x ∈ first.entries ∧ y ∈ first.entries := by
  induction h generalizing d d' with
  | start =>
    obtain rfl := List.mem_singleton.mp hd
    obtain rfl := List.mem_singleton.mp hd'
    exact .inr ⟨hx, hy⟩
  | @edit b b' bs _ hnew hapart ih =>
    -- What is not new was on one of the disks before.
    have hbefore : ∀ {a : Disk} {z : Location × DiskEntry}, a ∈ b' :: b :: bs → z ∈ a.entries →
        (∃ a' ∈ b :: bs, z ∈ a'.entries) ∨
          z ∈ b'.entries ∧ z ∉ b.entries ∧ ∀ a' ∈ b :: bs, ∀ y ∈ a'.entries, y.2.modified ≠ z.2.modified := by
      intro a z ha hz
      rcases List.mem_cons.mp ha with rfl | ha
      · by_cases hold : z ∈ b.entries
        · exact .inl ⟨b, List.mem_cons_self, hold⟩
        · exact .inr ⟨hz, hold, (hnew z hz).resolve_left hold⟩
      · exact .inl ⟨a, ha, hz⟩
    rcases hbefore hd hx with ⟨a, ha, hx⟩ | ⟨hx, hxold, hxnew⟩ <;>
      rcases hbefore hd' hy with ⟨a', ha', hy⟩ | ⟨hy, hyold, hynew⟩
    · exact ih ha ha' hx hy
    · exact absurd hdate (hynew a ha x hx)
    · exact absurd hdate.symm (hxnew a' ha' y hy)
    · exact .inl (hapart x hx hxold y hy hyold hxkind hykind hdate)

/-! ## Where a path leads -/

/-- A path leads to a place and to what stands there. -/
def LeadsTo (d : Disk) (p : String) (x : Location × DiskEntry) : Prop :=
  d.locate p true = .ok x.1 ∧ d.get? x.1 = some x.2

theorem exists_leadsTo (h : d.entry p = .ok e) : ∃ l, d.LeadsTo p (l, e) := by
  rw [entry] at h
  split at h
  · cases h
  · next l hl =>
    split at h
    · next x hget =>
      cases h
      exact ⟨l, hl, hget⟩
    · cases h

/-- What is no directory can be read, alike at every path that leads to it. -/
theorem exists_read (h : d.entry p = .ok e) (hkind : e.item.kind ≠ .dir) :
    ∃ data, ∀ q, d.entry q = d.entry p → d.read q = .ok data := by
  obtain ⟨item, modified⟩ := e
  cases item with
  | dir => exact absurd rfl hkind
  | file data tool => exact ⟨data, fun q hq => by rw [read, hq, h]⟩
  | link target => exact ⟨[], fun q hq => by rw [read, hq, h]⟩
  | device => exact ⟨[], fun q hq => by rw [read, hq, h]⟩

theorem LeadsTo.mem_entries (h : d.LeadsTo p x) (hkind : x.2.item.kind ≠ .dir) : x ∈ d.entries := by
  refine mem_entries_of_get? h.2 fun hroot => hkind ?_
  have hget := h.2
  rw [hroot, get?, if_pos rfl] at hget
  exact (Option.some.inj hget).symm ▸ rfl

/-- No path comes to lead from one file of the first disk to a different one of the same date. -/
def Steady (first : Disk) (ds : List Disk) : Prop :=
  ∀ p, ∀ d ∈ ds, ∀ d' ∈ ds, ∀ x ∈ first.entries, ∀ y ∈ first.entries, d.LeadsTo p x → d'.LeadsTo p y →
    x.2.item.kind ≠ .dir → y.2.item.kind ≠ .dir → x.2.modified = y.2.modified → x.2 = y.2

/-- What is read at a path that leads to something of the same date again is the same. -/
theorem Dated.read_eq (h : Dated first ds) (hsteady : Steady first ds) (hd : d ∈ ds) (hd' : d' ∈ ds)
    (he : d.entry p = .ok e) (he' : d'.entry p = .ok e') (hkind : e.item.kind ≠ .dir) (hkind' : e'.item.kind ≠ .dir)
    (hdate : e.modified = e'.modified) : d.read p = d'.read p := by
  obtain ⟨l, hl⟩ := exists_leadsTo he
  obtain ⟨l', hl'⟩ := exists_leadsTo he'
  have hsame : e = e' := by
    rcases h.eq_or_mem_first hd hd' (hl.mem_entries hkind) (hl'.mem_entries hkind') hkind hkind' hdate with
      hsame | ⟨hx, hy⟩
    · exact hsame
    · exact hsteady p d hd d' hd' _ hx _ hy hl hl' hkind hkind' hdate
  rw [read, read, he, he', hsame]

/-- Files of the first disk that have different dates are told apart wherever they are. -/
theorem steady_of_apart (h : ∀ x ∈ first.entries, ∀ y ∈ first.entries, x.2.item.kind ≠ .dir → y.2.item.kind ≠ .dir →
    x.2.modified = y.2.modified → x.2 = y.2) (ds : List Disk) : Steady first ds :=
  fun _ _ _ _ _ x hx y hy _ _ => h x hx y hy

/-! ### Links that stay -/

/-- The target of a link. -/
def linkAt? (d : Disk) (l : Location) : Option String :=
  match d.get? l with
  | some ⟨.link target, _⟩ => some target
  | _ => none

theorem Linkless.linkAt?_eq (h : d.Linkless) (l : Location) : d.linkAt? l = none := by
  rw [linkAt?]
  split
  · next target modified hget =>
    by_cases hl : l = []
    · rw [hl, get?, if_pos rfl] at hget
      cases hget
    · exact absurd hget (h.get?_ne_link hl)
  · rfl

theorem linkAt?_eq_some {target : String} :
    d.linkAt? l = some target ↔ ∃ modified, d.get? l = some ⟨.link target, modified⟩ := by
  rw [linkAt?]
  split
  · next t modified hget => simp [hget]
  · next hget => simpa using fun modified => hget target modified

/-- Paths are followed alike on disks that have the same links. -/
theorem follow_eq_of_linkAt? (hlinks : ∀ l, d.linkAt? l = d'.linkAt? l) (h : d.follow true links here xs = .ok l)
    (h' : d'.follow true links here xs = .ok l') : l = l' := by
  fun_induction d.follow true links here xs with
  | case1 links here =>
    rw [follow] at h'
    exact Except.ok.inj (h.symm.trans h')
  | case2 links here rest _ hdir ih =>
    obtain ⟨modified, hdir'⟩ := exists_dir_of_follow h'
    refine ih h ?_
    simpa only [follow, hdir', if_true] using h'
  | case3 links here rest _ hdir hdot ih =>
    obtain ⟨modified, hdir'⟩ := exists_dir_of_follow h'
    refine ih h ?_
    simpa only [follow, hdir', if_neg hdot, if_true] using h'
  | case8 here s rest _ hdir hdot hup hshort target _ hlink hlast links start ih =>
    obtain ⟨modified, hdir'⟩ := exists_dir_of_follow h'
    obtain ⟨modified', hlink'⟩ := linkAt?_eq_some.mp ((hlinks _).symm.trans (linkAt?_eq_some.mpr ⟨_, hlink⟩))
    refine ih h ?_
    simpa only [follow, hdir', if_neg hdot, if_neg hup, if_neg hshort, hlink', Bool.not_true, Bool.and_false,
      Bool.false_eq_true, if_false, start, dite_eq_ite] using h'
  | case9 links here s rest _ hdir hdot hup hshort x hlink hx ih =>
    obtain ⟨modified, hdir'⟩ := exists_dir_of_follow h'
    refine ih h ?_
    cases hget : d'.get? (here ++ [s]) with
    | none => simp only [follow, hdir', if_neg hdot, if_neg hup, if_neg hshort, hget, reduceCtorEq] at h'
    | some y =>
      obtain ⟨item, modified'⟩ := y
      cases item with
      | link target =>
        -- The other disk would have the link, too.
        obtain ⟨modified'', hlink'⟩ := linkAt?_eq_some.mp ((hlinks _).trans (linkAt?_eq_some.mpr ⟨_, hget⟩))
        exact absurd (Option.some.inj (hx.symm.trans hlink')) (hlink target modified'')
      | _ => simpa only [follow, hdir', if_neg hdot, if_neg hup, if_neg hshort, hget] using h'
  | case6 links here s rest _ hdir hdot hup hshort target _ hlink hlast => simp at hlast
  | _ => cases h

/-- Where no link is made, removed or changed, every path leads where it led. -/
theorem steady_of_linkAt? (hkeys : (first.entries.map (·.1)).Nodup)
    (hlinks : ∀ d ∈ ds, ∀ d' ∈ ds, ∀ l, d.linkAt? l = d'.linkAt? l) : Steady first ds := by
  intro p d hd d' hd' x hx y hy hleads hleads' _ _ _
  have hl := hleads.1
  have hl' := hleads'.1
  rw [locate] at hl hl'
  split_ifs at hl hl'
  rw [List.inj_on_of_nodup_map hkeys hx hy (follow_eq_of_linkAt? (hlinks d hd d' hd') hl hl')]

theorem steady_of_linkless (hkeys : (first.entries.map (·.1)).Nodup) (hlinks : ∀ d ∈ ds, d.Linkless) :
    Steady first ds :=
  steady_of_linkAt? hkeys fun d hd d' hd' l => by rw [(hlinks d hd).linkAt?_eq, (hlinks d' hd').linkAt?_eq]

/-! ## Edits -/

/-- What is new on a disk has one date, and is a directory or one thing. -/
def Changes (t : Int) (item : Item) (d d' : Disk) : Prop :=
  ∀ x ∈ d'.entries, x ∈ d.entries ∨ x.2.modified = t ∧ (x.2.item = .dir ∨ x.2.item = item)

/-- An edit at a time that was not there before continues a history. -/
theorem Dated.of_changes (h : Dated first (d :: ds)) (hc : Changes t item d d')
    (ht : ∀ b ∈ d :: ds, ∀ y ∈ b.entries, y.2.modified ≠ t) : Dated first (d' :: d :: ds) := by
  have hfile : ∀ x ∈ d'.entries, x ∉ d.entries → x.2.item.kind ≠ .dir → x.2 = ⟨item, t⟩ := by
    rintro ⟨l, i, m⟩ hx hold hkind
    obtain ⟨hm, hdir | hitem⟩ := (hc _ hx).resolve_left hold
    · exact absurd (congrArg Item.kind hdir) hkind
    · exact congrArg₂ DiskEntry.mk hitem hm
  refine .edit h (fun x hx => ?_) fun x hx hxold y hy hyold hxkind hykind _ => ?_
  · refine (hc x hx).imp id fun ⟨hm, _⟩ => ?_
    rw [hm]
    exact ht
  · rw [hfile x hx hxold hxkind, hfile y hy hyold hykind]

theorem Changes.trans (h : Changes t item d d') (h' : Changes t item d' d'') : Changes t item d d'' :=
  fun x hx => (h' x hx).elim (h x) .inr

theorem mem_set (hx : x ∈ (d.set l e).entries) : x ∈ d.entries ∨ x = (l, e) := by
  unfold set at hx
  split at hx
  · obtain ⟨y, hy, rfl⟩ := List.mem_map.mp hx
    split
    · exact .inr rfl
    · exact .inl hy
  · exact (List.mem_append.mp hx).imp id List.mem_singleton.mp

theorem mem_stamp (hx : x ∈ (d.stamp l t).entries) :
    x ∈ d.entries ∨ x.1 = l ∧ x.2.modified = t ∧ ∃ y ∈ d.entries, y.1 = l ∧ y.2.item = x.2.item := by
  obtain ⟨y, hy, rfl⟩ := List.mem_map.mp hx
  split
  · next hl => exact .inr ⟨rfl, rfl, y, hy, hl, rfl⟩
  · exact .inl hy

theorem changes_set (hitem : e.item = .dir ∨ e.item = item) : Changes e.modified item d (d.set l e) := by
  intro x hx
  rcases mem_set hx with hold | rfl
  · exact .inl hold
  · exact .inr ⟨rfl, hitem⟩

theorem changes_stamp (hitem : ∀ x ∈ d.entries, x.1 = l → x.2.item = .dir ∨ x.2.item = item) :
    Changes t item d (d.stamp l t) := by
  intro x hx
  rcases mem_stamp hx with hold | ⟨-, hm, y, hy, hyl, heq⟩
  · exact .inl hold
  · exact .inr ⟨hm, heq ▸ hitem y hy hyl⟩

/-- Everything on the way to a place, and at the place itself, is a directory as far as it is there. -/
def DirsTo (d : Disk) (l : Location) : Prop := ∀ x ∈ d.entries, x.1 <+: l → x.2.item = .dir

instance (d : Disk) (l : Location) : Decidable (d.DirsTo l) :=
  inferInstanceAs (Decidable (∀ x ∈ d.entries, x.1 <+: l → x.2.item = .dir))

theorem DirsTo.mono (h : d.DirsTo l) (hl : l' <+: l) : d.DirsTo l' := fun x hx hpre => h x hx (hpre.trans hl)

theorem DirsTo.set (h : d.DirsTo l) (l' : Location) (t : Int) : (d.set l' ⟨.dir, t⟩).DirsTo l := by
  intro x hx hpre
  rcases mem_set hx with hold | rfl
  · exact h x hold hpre
  · rfl

theorem DirsTo.stamp (h : d.DirsTo l) (l' : Location) (t : Int) : (d.stamp l' t).DirsTo l := by
  intro x hx hpre
  rcases mem_stamp hx with hold | ⟨hxl, -, y, hy, hyl, heq⟩
  · exact h x hold hpre
  · exact heq ▸ h y hy (hyl.trans hxl.symm ▸ hpre)

theorem DirsTo.changes_stamp (h : d.DirsTo l) : Changes t item d (d.stamp l t) :=
  Disk.changes_stamp fun x hx hxl => .inl (h x hx (hxl ▸ List.prefix_rfl))

/-- Making directories makes directories alone. -/
theorem DirsTo.mkdirs (h : d.DirsTo l) (t : Int) (item : Item) :
    Changes t item d (d.mkdirs l t) ∧ (d.mkdirs l t).DirsTo l := by
  have hmade : ∀ (ls : List Location) (d : Disk), d.DirsTo l →
      Changes t item d (ls.foldl (fun d p => d.set p ⟨.dir, t⟩) d) ∧
        (ls.foldl (fun d p => d.set p ⟨.dir, t⟩) d).DirsTo l := by
    intro ls
    induction ls with
    | nil => exact fun d hd => ⟨fun _ => .inl, hd⟩
    | cons l' ls ih =>
      intro d hd
      obtain ⟨hc, hdirs⟩ := ih (d.set l' ⟨.dir, t⟩) (hd.set l' t)
      exact ⟨(changes_set (.inl rfl)).trans hc, hdirs⟩
  unfold Disk.mkdirs
  extract_lets missing d'
  obtain ⟨hc, hdirs⟩ : Changes t item d d' ∧ d'.DirsTo l := hmade missing d h
  cases hmissing : missing with
  | nil => exact ⟨hc, hdirs⟩
  | cons l' ls =>
    have hl' : l' <+: l := by
      have hmem : l' ∈ missing := hmissing ▸ List.mem_cons_self
      obtain ⟨k, -, rfl⟩ := List.mem_map.mp (List.mem_of_mem_filter hmem)
      exact List.take_prefix _ _
    exact ⟨hc.trans (hdirs.mono ((List.dropLast_prefix l').trans hl')).changes_stamp, hdirs.stamp _ t⟩

theorem DirsTo.place (h : d.DirsTo l.dropLast) (t : Int) (item : Item) : Changes t item d (d.place l item t t) := by
  obtain ⟨hc, hdirs⟩ := h.mkdirs t item
  refine (hc.trans (changes_set (.inr rfl))).trans (Disk.changes_stamp fun x hx hxl => ?_)
  rcases mem_set hx with hold | rfl
  · exact .inl (hdirs x hold (hxl ▸ List.prefix_rfl))
  · exact .inr rfl

/-! ### Each edit continues a history -/

section Edits

variable (h : Dated first (d :: ds)) (ht : ∀ b ∈ d :: ds, ∀ y ∈ b.entries, y.2.modified ≠ t)

include h ht

theorem Dated.mkdir (hdirs : d.DirsTo (d.target (steps p))) : Dated first (d.mkdir p t :: d :: ds) :=
  h.of_changes (hdirs.mkdirs t .dir).1 ht

theorem Dated.link (hdirs : d.DirsTo (d.ownLocation p).dropLast) (dest : String) :
    Dated first (d.link p dest t :: d :: ds) :=
  h.of_changes (hdirs.place t (.link dest)) ht

theorem Dated.write (hdirs : d.DirsTo (d.target (steps p)).dropLast) (data : Bytes) (tool : Option Tool) :
    Dated first (d.write p data tool t t :: d :: ds) := by
  unfold Disk.write
  extract_lets l
  split
  · exact h.of_changes (changes_set (.inr rfl)) ht
  · exact h.of_changes (hdirs.place t _) ht

theorem Dated.remove (hdirs : d.DirsTo (d.ownLocation p).dropLast) : Dated first (d.remove p t :: d :: ds) := by
  unfold Disk.remove
  extract_lets l
  split
  · have hless : (⟨d.entries.filter fun e => !l.isPrefixOf e.1⟩ : Disk).DirsTo l.dropLast :=
      fun x hx => hdirs x (List.mem_of_mem_filter hx)
    have hc : Changes t .dir d _ := fun x hx => (hless.changes_stamp x hx).imp List.mem_of_mem_filter id
    exact h.of_changes hc ht
  · have hc : Changes t .dir d d := fun _ => .inl
    exact h.of_changes hc ht

end Edits

end EditorAgent.Disk

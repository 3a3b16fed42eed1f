import EditorAgent.Go.Importer
import EditorAgent.Proofs.Go.Lookup
import Mathlib.Data.String.Basic
import Mathlib.Data.List.Sort

/-!
# The sources of a package on a disk that does not change

Which files a package has, and what they say, depends on its directory and the settings alone. `sources` is
what reading a directory through a coherent tree gives.
-/

namespace EditorAgent.Go

open Vfs

/-! ## Sets of names -/

namespace SourceFile

theorem eraseRepsBy_loop_spec {a : String} {as : List String} (acc : List String) (h : (a :: as).Pairwise (· ≤ ·))
    (hacc : (acc.reverse ++ [a]).Pairwise (· < ·)) :
    (List.eraseRepsBy.loop (· == ·) a as acc).Pairwise (· < ·) ∧
      ∀ s, s ∈ List.eraseRepsBy.loop (· == ·) a as acc ↔ s ∈ acc ∨ s = a ∨ s ∈ as := by
  induction as generalizing a acc with
  | nil =>
    rw [List.eraseRepsBy.loop]
    exact ⟨by simpa using hacc, by simp [or_comm]⟩
  | cons c as ih =>
    rw [List.pairwise_cons] at h
    rw [List.eraseRepsBy.loop]
    split
    · next heq =>
      obtain rfl : a = c := by simpa using heq
      obtain ⟨hsorted, hmem⟩ := ih acc h.2 hacc
      refine ⟨hsorted, fun s => ?_⟩
      rw [hmem]
      simp
    · next hne =>
      have hlt : a < c := lt_of_le_of_ne (h.1 c List.mem_cons_self) (by simpa using hne)
      have hacc' : ((a :: acc).reverse ++ [c]).Pairwise (· < ·) := by
        rw [List.reverse_cons, List.pairwise_append]
        refine ⟨hacc, by simp, ?_⟩
        intro x hx y hy
        obtain rfl := List.mem_singleton.mp hy
        rcases List.mem_append.mp hx with hx | hx
        · have := (List.pairwise_append.mp hacc).2.2 x hx a (by simp)
          exact this.trans hlt
        · obtain rfl := List.mem_singleton.mp hx
          exact hlt
      obtain ⟨hsorted, hmem⟩ := ih (a :: acc) h.2 hacc'
      refine ⟨hsorted, fun s => ?_⟩
      rw [hmem]
      simp only [List.mem_cons]
      tauto

theorem nameSet_spec (names : List String) :
    (nameSet names).Pairwise (· < ·) ∧ ∀ s, s ∈ nameSet names ↔ s ∈ names := by
  have hsorted : (names.mergeSort fun a b => a ≤ b).Pairwise (· ≤ ·) := by
    have := @List.pairwise_mergeSort String (fun a b => decide (a ≤ b))
      (fun a b c hab hbc => by simpa using le_trans (by simpa using hab) (by simpa using hbc : b ≤ c))
      (fun a b => by simpa using le_total a b) names
    simpa using this
  rw [nameSet, List.eraseReps]
  have hmem : ∀ s, s ∈ names.mergeSort (fun a b => a ≤ b) ↔ s ∈ names := fun s => List.mem_mergeSort
  generalize names.mergeSort (fun a b => a ≤ b) = l at hsorted hmem
  cases l with
  | nil => exact ⟨by simp [List.eraseRepsBy], by simpa [List.eraseRepsBy] using hmem⟩
  | cons a as =>
    obtain ⟨h, hm⟩ := eraseRepsBy_loop_spec [] hsorted (by simp)
    refine ⟨h, fun s => ?_⟩
    rw [← hmem s]
    simpa [List.eraseRepsBy] using hm s

/-- Only the names that are asked for matter. -/
theorem filter_nameSet_eq {p : String → Bool} {names names' : List String}
    (h : ∀ s, p s = true → (s ∈ names ↔ s ∈ names')) : (nameSet names).filter p = (nameSet names').filter p := by
  obtain ⟨hs, hm⟩ := nameSet_spec names
  obtain ⟨hs', hm'⟩ := nameSet_spec names'
  refine (hs.filter p).eq_of_mem_iff (hs'.filter p) fun s => ?_
  rw [List.mem_filter, List.mem_filter, hm, hm']
  exact and_congr_left (h s)

end SourceFile

/-! ## Reading a directory -/

/-- Sources that stand in front of those on disk. -/
structure Overlay where
  overrides : Overrides := []
  view : Option View := none
deriving DecidableEq

/-- The source of a path, if one stands in front of the disk. -/
def Overlay.source? (o : Overlay) (path : String) : Option Bytes :=
  (o.view.bind fun v => if Path.same v.path path && !v.src.isEmpty then some v.src else none) <|> o.overrides.get? path

variable {α β : Type} {τ : Trust} {d : Disk} {b : BuildContext} {flags : CheckFlags} {o : Overlay} {chain : List Link}
  {ok : List String → CacheKey → CacheValue → Prop} {s : Session}

/-- The importer for a platform, a set of flags and an overlay. -/
def Importer.under (b : BuildContext) (flags : CheckFlags) (o : Overlay) (chain : List Link) : Importer :=
  { build := b, overrides := o.overrides, flags, view := o.view, chain }

/-- The bytes of a source. -/
def contents (d : Disk) (o : Overlay) (path : String) : Except ImportError Bytes :=
  match o.source? path with
  | some src => .ok src
  | none => match d.read (pathOf (splitPath path)) with
    | .ok src => .ok src
    | .error _ => match d.read path with
      | .ok src => .ok src
      | .error e => .error (.ofDisk e)

def CheckFlags.mode (flags : CheckFlags) : ParseMode := if flags.checkFuncs then .full else .skipBodies

/-- A source that is built; `none` if it is not. -/
def readFile (d : Disk) (b : BuildContext) (flags : CheckFlags) (o : Overlay) (path : String) :
    Except ImportError (Option PackageFile) :=
  match contents d o path with
  | .error e => .error e
  | .ok src =>
    if !b.matchConstraints src then .ok none
    else match (SourceFile.parse flags.mode src).error with
      | some e => .error (.parse ⟨path, e.row, e.col⟩ e.message)
      | none => .ok (some ⟨path, SourceFile.parse flags.mode src⟩)

/-- The names of the sources in a directory. -/
def sourceNames (d : Disk) (b : BuildContext) (flags : CheckFlags) (o : Overlay) (dir : String) : List String :=
  (SourceFile.nameSet (d.names (pathOf (splitPath dir)) ++ (Importer.under b flags o []).overriddenNames dir)).filter
    (Importer.under b flags o []).isSourceName

/-- The files of the package in a directory. -/
def sources (d : Disk) (b : BuildContext) (flags : CheckFlags) (o : Overlay) (dir : String) :
    Except ImportError (List PackageFile) :=
  match (sourceNames d b flags o dir).mapM fun n => readFile d b flags o (Path.join dir n) with
  | .error e => .error e
  | .ok files => match Importer.arrange (files.filterMap id) with
    | [] => .error (.noGo dir)
    | files => .ok files

theorem bind_run {σ : Type} (act : StateM σ α) (f : α → StateM σ β) (s : σ) :
    (act >>= f) s = f (act s).1 (act s).2 :=
  rfl

/-- A run of a session that keeps its tree coherent and leaves the frame alone. -/
def Session.Gives (τ : Trust) (d : Disk) (ok : List String → CacheKey → CacheValue → Prop) (act : StateM Session α)
    (s : Session) (a : α) : Prop :=
  Coherent τ d ok (act s).2.tree ∧ Frame s.tree (act s).2.tree ∧ (act s).1 = a

namespace Session.Gives

variable {act : StateM Session α} {f : α → StateM Session β} {a : α} {x : β}

theorem pure (h : Coherent τ d ok s.tree) : Session.Gives τ d ok (pure a) s a := ⟨h, .refl _, rfl⟩

theorem bind (h : Session.Gives τ d ok act s a)
    (hf : ∀ s', Coherent τ d ok s'.tree → Frame s.tree s'.tree → Session.Gives τ d ok (f a) s' x) :
    Session.Gives τ d ok (act >>= f) s x := by
  obtain ⟨hc, hframe, rfl⟩ := h
  obtain ⟨hc', hframe', hx⟩ := hf _ hc hframe
  exact ⟨hc', hframe.trans hframe', hx⟩

theorem onTree {act : StateM Tree α} (h : Vfs.Gives τ d ok act s.tree fun x _ => x = a) :
    Session.Gives τ d ok (Session.onTree act) s a :=
  h

theorem framed {name : String} (hs : Coherent τ d ok s.tree)
    (h : ∀ s', Coherent τ d ok s'.tree → Session.Gives τ d ok act s' a) :
    Session.Gives τ d ok (Session.framed name act) s a :=
  h { s with profile := s.profile.push name } hs

theorem untilFailure {f : α → StateM Session (Except ImportError β)} {g : α → Except ImportError β}
    {xs : List α} (hs : Coherent τ d ok s.tree)
    (h : ∀ x ∈ xs, ∀ s', Coherent τ d ok s'.tree → Session.Gives τ d ok (f x) s' (g x)) :
    Session.Gives τ d ok (Importer.untilFailure f xs) s (xs.mapM g) := by
  induction xs generalizing s with
  | nil => exact .pure hs
  | cons x xs ih =>
    refine (h x List.mem_cons_self s hs).bind fun s₁ hs₁ _ => ?_
    rw [List.mapM_cons]
    cases g x with
    | error e => exact .pure hs₁
    | ok y =>
      refine (ih hs₁ fun z hz => h z (List.mem_cons_of_mem _ hz)).bind fun s₂ hs₂ _ => ?_
      cases xs.mapM g with
      | error e => exact .pure hs₂
      | ok ys => exact .pure hs₂

end Session.Gives

theorem gives_readSource (hp : d.Named) {path : String}
    (hask : o.source? path = none → AskablePath τ d (splitPath path)) {t : Tree} (ht : Coherent τ d ok t) :
    Vfs.Gives τ d ok (Importer.readSource d o.view o.overrides path) t fun x _ => x = contents d o path := by
  rw [contents]
  cases hsrc : o.source? path with
  | some src =>
    rw [Overlay.source?] at hsrc
    simp only [Importer.readSource, hsrc]
    exact .pure ht rfl
  | none =>
  have hask := hask hsrc
  rw [Overlay.source?] at hsrc
  simp only [Importer.readSource, hsrc]
  refine (gives_blobAt hp ht hask).bind fun r t' ht' _ hr => ?_
  cases r with
  | ok src =>
    rw [(hr src).mp rfl]
    exact .pure ht' rfl
  | error e =>
    cases hread : d.read (pathOf (splitPath path)) with
    | ok src => cases (hr src).mpr hread
    | error _ =>
      cases hraw : d.read path with
      | ok src => exact .pure ht' rfl
      | error e => exact .pure ht' rfl

theorem parse_under (src : Bytes) :
    (Importer.under b flags o chain).parse src = pure (SourceFile.parse flags.mode src) :=
  rfl

theorem gives_parseFile (hp : d.Named) {path : String}
    (hask : o.source? path = none → AskablePath τ d (splitPath path)) (hs : Coherent τ d ok s.tree) :
    Session.Gives τ d ok ((Importer.under b flags o chain).parseFile d path) s (readFile d b flags o path) := by
  refine (Session.Gives.onTree (gives_readSource hp hask hs)).bind fun s' hs' _ => ?_
  rw [readFile]
  cases contents d o path with
  | error e => exact .pure hs'
  | ok src =>
    simp only [parse_under, pure_bind]
    by_cases hm : b.matchConstraints src
    · cases herr : (SourceFile.parse flags.mode src).error with
      | some e => simpa [Importer.under, hm, herr] using .pure hs'
      | none => simpa [Importer.under, hm, herr] using .pure hs'
    · simpa [Importer.under, hm] using .pure hs'

theorem isSourceFile_of_isSourceName {i : Importer} {name : String} (h : i.isSourceName name = true) :
    isSourceFile name = true := by
  simp only [Importer.isSourceName, Bool.and_eq_true] at h
  exact h.1.1.1.1

/-- The names in a directory, of whose sources the tree is trusted with all. -/
theorem gives_sourceNames (hp : d.Named) {dir : String} (hdir : AskablePath τ d (splitPath dir))
    (htrust : ∀ s, τ (splitPath dir) s) (his : IsDir d dir) {t : Tree} (ht : Coherent τ d ok t) :
    Vfs.Gives τ d ok ((Importer.under b flags o chain).sourceNames d dir) t
      fun x _ => x = .ok (sourceNames d b flags o dir) := by
  refine (gives_namesAt hp ht hdir).bind fun r t' ht' _ hr => ?_
  have hdir' : d.kindAt (pathOf (splitPath dir)) = some .dir := his
  rw [Vfs.Lists, if_pos hdir'] at hr
  obtain ⟨names, rfl, hnames⟩ := hr
  refine .pure ht' ?_
  rw [sourceNames]
  refine congrArg _ (SourceFile.filter_nameSet_eq fun s hs => ?_)
  rw [List.mem_append, List.mem_append]
  exact or_congr_left (hnames s (isSourceFile_of_isSourceName hs) (htrust s))

section Overlays

variable {dir name : String}

/-- An overlay whose paths are spelled in one way. -/
def Overlay.Plain (o : Overlay) : Prop := ∀ e ∈ o.overrides, Path.Plain e.1

/-- The names that an overlay adds to a directory. -/
theorem Overlay.Plain.mem_overriddenNames (h : o.Plain) (hdir : Path.Plain dir) :
    name ∈ (Importer.under b flags o chain).overriddenNames dir ↔
      ∃ e ∈ o.overrides, splitPath e.1 = splitPath dir ++ [name] := by
  rw [Importer.overriddenNames, List.mem_filterMap]
  refine exists_congr fun e => and_congr_right fun he => ?_
  have hplain := h e he
  constructor
  · intro hname
    split at hname
    case isFalse => cases hname
    case isTrue hparent =>
      rcases List.eq_nil_or_concat (splitPath e.1) with hnil | ⟨ns, s, hns⟩
      · rw [hplain.1, hnil, Path.parent?_pathOf_nil] at hparent
        cases hparent
      · rw [List.concat_eq_append] at hns
        rw [hplain.parent?_eq hns] at hparent
        rw [hplain.fileName?_eq hns] at hname
        have hnames : ∀ t ∈ ns, IsName t := fun t ht => isName_of_mem_splitPath (hns ▸ List.mem_append_left _ ht)
        have hup : ".." ∉ ns := fun ht => hplain.2 (hns ▸ List.mem_append_left _ ht)
        have heq : pathOf ns = dir := ((Path.plain_pathOf hnames hup).same_iff hdir).mp hparent
        rw [hns, ← heq, splitPath_pathOf hnames, Option.some.inj hname]
  · intro hsplit
    rw [hplain.parent?_eq hsplit, ← hdir.1, hplain.fileName?_eq hsplit]
    simp [Path.same]

/-- A name that an overlay adds to a directory is that of a source it has. -/
theorem Overlay.Plain.source?_ne_none (h : o.Plain) (hdir : Path.Plain dir)
    (hname : name ∈ (Importer.under b flags o chain).overriddenNames dir) : o.source? (Path.join dir name) ≠ none := by
  obtain ⟨e, he, hsplit⟩ := (h.mem_overriddenNames hdir).mp hname
  have hnames : ∀ s ∈ splitPath dir ++ [name], IsName s := fun s hs => isName_of_mem_splitPath (hsplit ▸ hs)
  have hjoin : Path.join dir name = e.1 := by
    rw [hdir.1, Path.join_pathOf (fun s hs => hnames s (by simp [hs])) (hnames name (by simp)), (h e he).1, hsplit]
  intro hnone
  rw [hjoin, source?, Option.orElse_eq_none, Overrides.get?, Option.map_eq_none_iff, List.find?_eq_none] at hnone
  exact hnone.2 e he (by simp [Path.same])

end Overlays

/-- A source that a directory lists may be asked for. -/
theorem askable_source (hp : d.Proper) (ho : o.Plain) {dir name : String} (hplain : Path.Plain dir) (hdir : Tame dir)
    (hname : name ∈ sourceNames d b flags o dir) (hsrc : o.source? (Path.join dir name) = none) :
    AskablePath .full d (splitPath (Path.join dir name)) := by
  have hmem : name ∈ d.names (pathOf (splitPath dir)) := by
    rcases List.mem_append.mp (((SourceFile.nameSet_spec _).2 name).mp (List.mem_filter.mp hname).1) with hmem | hmem
    · exact hmem
    · exact absurd hsrc (ho.source?_ne_none hplain hmem)
  have hn := (hp.of_mem_names hmem).1
  rw [splitPath_join (Path.isAbsolute_of_isName hn), splitPath_of_isName hn]
  exact hdir.askable.concat hn.1 fun _ _ _ => hmem

/-- What reading a directory through a coherent tree gives, if its sources may be asked for. -/
theorem gives_parseDir_of_askable (hp : d.Named) {p : PackagePath} (hdir : AskablePath τ d (splitPath p.dir))
    (htrust : ∀ s, τ (splitPath p.dir) s) (his : IsDir d p.dir)
    (hask : ∀ n ∈ sourceNames d b flags o p.dir, o.source? (Path.join p.dir n) = none →
      AskablePath τ d (splitPath (Path.join p.dir n))) (hs : Coherent τ d ok s.tree) :
    Session.Gives τ d ok ((Importer.under b flags o chain).parseDir d p) s (sources d b flags o p.dir) := by
  refine Session.Gives.framed hs fun s₀ hs₀ => ?_
  refine (Session.Gives.onTree (gives_sourceNames hp hdir htrust his hs₀)).bind fun s₁ hs₁ _ => ?_
  refine (Session.Gives.untilFailure hs₁ fun n hn s' hs' => gives_parseFile hp (hask n hn) hs').bind
    fun s₂ hs₂ _ => ?_
  rw [sources]
  cases (sourceNames d b flags o p.dir).mapM fun n => readFile d b flags o (Path.join p.dir n) with
  | error e => exact .pure hs₂
  | ok files =>
    simp only
    cases Importer.arrange (files.filterMap id) with
    | nil => exact .pure hs₂
    | cons f fs => exact .pure hs₂

/-- What reading a directory through a coherent tree gives. -/
theorem gives_parseDir (hp : d.Proper) (ho : o.Plain) {p : PackagePath} (hplain : Path.Plain p.dir)
    (hdir : Tame p.dir) (his : IsDir d p.dir) (hs : Coherent .full d ok s.tree) :
    Session.Gives .full d ok ((Importer.under b flags o chain).parseDir d p) s (sources d b flags o p.dir) :=
  gives_parseDir_of_askable hp.named hdir.askable (fun _ => trivial) his
    (fun _ hn => askable_source hp ho hplain hdir hn) hs

/-! ## Parsing with and without function bodies -/

namespace SourceFile

open Syntax

mutual

theorem errorIn_skipBodies (parent : String) :
    ∀ n : Syntax.Node, errorIn .full parent n = none → errorIn .skipBodies parent n = none
  | .mk i cs => by
    intro h
    rw [errorIn] at h ⊢
    simp only [show (ParseMode.full = .skipBodies) = False by simp, decide_false, Bool.false_and,
      Bool.false_eq_true, if_false] at h
    split
    · rfl
    · split_ifs at h ⊢
      · exact errorInAll_skipBodies i.kind cs h
      · rfl

theorem errorInAll_skipBodies (parent : String) :
    ∀ ns : List Syntax.Node, errorInAll .full parent ns = none → errorInAll .skipBodies parent ns = none
  | [] => fun _ => rfl
  | n :: r => by
    intro h
    rw [errorInAll] at h ⊢
    cases hn : errorIn .full parent n with
    | some e => simp [hn] at h
    | none =>
      rw [errorIn_skipBodies parent n hn]
      exact errorInAll_skipBodies parent r (by simpa [hn] using h)

end

/-- A source without a mistake is the same file in both modes. -/
theorem parse_skipBodies {src : Bytes} (h : (parse .full src).error = none) :
    parse .skipBodies src = parse .full src := by
  rw [parse, parse] at *
  split
  · rfl
  · next hne =>
    rw [if_neg hne] at h
    cases hroot : language.parse src with
    | none => rfl
    | some root =>
      rw [hroot] at h
      have herr : errorIn .full "" root = none := h
      simp only [ofNode, herr, errorIn_skipBodies "" root herr]

end SourceFile

theorem parse_default {src : Bytes} (h : (SourceFile.parse flags.mode src).error = none) :
    SourceFile.parse (CheckFlags.mode {}) src = SourceFile.parse flags.mode src := by
  have hmode : CheckFlags.mode {} = .skipBodies := rfl
  rw [hmode]
  cases hf : flags.checkFuncs with
  | true =>
    have : flags.mode = .full := by simp [CheckFlags.mode, hf]
    rw [this] at h ⊢
    exact SourceFile.parse_skipBodies h
  | false => simp [CheckFlags.mode, hf]

theorem readFile_default {path : String} {f : Option PackageFile} (h : readFile d b flags o path = .ok f) :
    readFile d b {} o path = .ok f := by
  rw [readFile] at h ⊢
  cases hc : contents d o path with
  | error e => simp [hc] at h
  | ok src =>
    simp only [hc] at h ⊢
    split at h
    · next hm => rw [if_pos hm, h]
    · next hm =>
      rw [if_neg hm]
      split at h
      · cases h
      · next herr =>
        have hp := parse_default herr
        rw [hp, herr]
        exact h

theorem mapM_ok_of_forall {f g : α → Except ImportError β} (hfg : ∀ x y, f x = .ok y → g x = .ok y)
    {xs : List α} {ys : List β} (h : xs.mapM f = .ok ys) : xs.mapM g = .ok ys := by
  induction xs generalizing ys with
  | nil => exact h
  | cons x xs ih =>
    rw [List.mapM_cons] at h ⊢
    cases hf : f x with
    | error e =>
      rw [hf] at h
      cases h
    | ok y =>
      rw [hf] at h
      rw [hfg x y hf]
      cases hr : xs.mapM f with
      | error e =>
        rw [hr] at h
        cases h
      | ok rest =>
        rw [hr] at h
        rw [ih hr]
        exact h

/-- As a dependency, a package has the files it has by itself, tests apart. -/
theorem sources_default {dir : String} {files : List PackageFile} (ht : flags.tests = false)
    (h : sources d b flags o dir = .ok files) : sources d b {} o dir = .ok files := by
  have hnames : sourceNames d b {} o dir = sourceNames d b flags o dir := by
    have hname : (Importer.under b {} o []).isSourceName = (Importer.under b flags o []).isSourceName := by
      funext s
      simp [Importer.isSourceName, Importer.under, ht]
    rw [sourceNames, sourceNames, hname]
    rfl
  rw [sources] at h ⊢
  rw [hnames]
  cases hf : (sourceNames d b flags o dir).mapM fun n => readFile d b flags o (Path.join dir n) with
  | error e =>
    rw [hf] at h
    cases h
  | ok fs =>
    rw [hf] at h
    rw [mapM_ok_of_forall (fun _ _ => readFile_default) hf]
    exact h

end EditorAgent.Go

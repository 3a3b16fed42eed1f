import EditorAgent.Proofs.Go.ModuleCache

/-!
# Names in a module cache

A module path is written with its capitals marked, so that modules stay apart on a disk that does not tell
capitals from small letters. Reading the marks undoes the writing: two paths are written alike if and only
if they read alike, and a path without marks reads as it stands.

## Main definitions

* `readMarks`, `decodePath`: a name of the module cache, read.

## Main statements

* `encodePath_eq_iff`: which paths are written alike.
* `cacheName_toLower_eq_iff`: which directories have one name, where case is ignored.
* `CachedModule.name_eq_of_dir_eq`: a directory belongs to one module.
-/

namespace EditorAgent.Go

open Vfs

variable {c x : Char} {s : List Char} {p q v w : String}

/-! ## Reading marks -/

/-- A mark and a small letter are the capital. -/
def readMarks : List Char → List Char
  | '!' :: c :: r => if c.isLower then c.toUpper :: readMarks r else '!' :: readMarks (c :: r)
  | c :: r => c :: readMarks r
  | [] => []

/-- The module path that a name in a module cache is read as. -/
def decodePath (name : String) : String := String.ofList (readMarks name.toList)

theorem readMarks_cons (h : c ≠ '!') (r : List Char) : readMarks (c :: r) = c :: readMarks r := by
  rw [readMarks]
  rintro _ _ rfl
  exact absurd rfl h

theorem readMarks_capital (h : c.isLower = true) (r : List Char) :
    readMarks ('!' :: c :: r) = c.toUpper :: readMarks r := by
  rw [readMarks, if_pos h]

/-- A mark that no small letter follows is read as it stands. -/
theorem readMarks_mark (h : ∀ c ∈ s.head?, c.isLower = false) : readMarks ('!' :: s) = '!' :: readMarks s := by
  cases s with
  | nil => rfl
  | cons c r =>
    have hc : c.isLower = false := h c rfl
    rw [readMarks, if_neg (by simp [hc])]

theorem readMarks_of_unmarked (h : '!' ∉ s) : readMarks s = s := by
  induction s with
  | nil => rfl
  | cons c r ih =>
    rw [List.mem_cons, not_or] at h
    rw [readMarks_cons (Ne.symm h.1), ih h.2]

theorem decodePath_of_unmarked (h : '!' ∉ p.toList) : decodePath p = p := by
  rw [decodePath, readMarks_of_unmarked h, String.ofList_toList]

/-! ## Reading undoes writing -/

theorem markCapital_mark : markCapital '!' = ['!'] := by decide

theorem isUpper_of_mem_markCapital (h : x ∈ markCapital c) : x.isUpper = false := by
  rw [markCapital] at h
  split at h
  · rcases List.mem_cons.mp h with rfl | h
    · decide
    · rw [List.mem_singleton.mp h, Char.isUpper_toLower_eq_false]
  · next hc => simpa [List.mem_singleton.mp h] using hc

/-- What is written for a character opens with a small letter only if that is the character. -/
theorem isLower_head_markCapital (h : c.isLower = false) (r : List Char) :
    ∀ x ∈ (markCapital c ++ r).head?, x.isLower = false := by
  intro x hx
  cases hc : c.isUpper with
  | true =>
    obtain rfl : '!' = x := by simpa [markCapital_of_isUpper hc] using hx
    decide
  | false =>
    obtain rfl : c = x := by simpa [markCapital_of_not_isUpper hc] using hx
    exact h

/-- A path reads alike before and after it is written: an old mark has a small letter behind it as before, and a
new one stands for its capital. -/
theorem readMarks_flatMap_markCapital (s : List Char) : readMarks (s.flatMap markCapital) = readMarks s := by
  fun_induction readMarks s with
  | case1 c r hlower ih =>
    have hc : markCapital c = [c] := by
      refine markCapital_of_not_isUpper ?_
      simpa using Char.not_isUpper_of_isLower hlower
    rw [List.flatMap_cons, List.flatMap_cons, markCapital_mark, hc, List.singleton_append, List.singleton_append,
      readMarks_capital hlower, ih]
  | case2 c r hlower ih =>
    have hc : c.isLower = false := by simpa using hlower
    rw [List.flatMap_cons, markCapital_mark, List.singleton_append, readMarks_mark, ih]
    exact isLower_head_markCapital hc _
  | case3 c r hne ih =>
    rw [List.flatMap_cons]
    cases hc : c.isUpper with
    | true =>
      have hlower : c.toLower.isLower = true := by simp [Char.isAlpha, hc]
      have hsame : c.toUpper = c := Char.toUpper_eq_of_not_isLower (Char.not_isLower_of_isUpper hc)
      rw [markCapital_of_isUpper hc, List.cons_append, List.singleton_append, readMarks_capital hlower, ih,
        Char.toUpper_toLower_eq_toUpper, hsame]
    | false =>
      rw [markCapital_of_not_isUpper hc, List.singleton_append]
      by_cases hbang : c = '!'
      · -- a mark that stands alone is the last character
        subst hbang
        cases r with
        | nil => rfl
        | cons d r => exact absurd rfl (hne d r rfl)
      · rw [readMarks_cons hbang, ih]
  | case4 => rfl

/-- What reads alike is written alike. -/
theorem flatMap_markCapital_readMarks (s : List Char) : (readMarks s).flatMap markCapital = s.flatMap markCapital := by
  fun_induction readMarks s with
  | case1 c r hlower ih =>
    have hupper : c.toUpper.isUpper = true := by simp [Char.isAlpha, hlower]
    have hc : c.isUpper = false := by simpa using Char.not_isUpper_of_isLower hlower
    rw [List.flatMap_cons, List.flatMap_cons, List.flatMap_cons, ih, markCapital_of_isUpper hupper, markCapital_mark,
      markCapital_of_not_isUpper hc, Char.toLower_toUpper_eq_toLower,
      Char.toLower_eq_of_not_isUpper (by simp [hc])]
    rfl
  | case2 c r hlower ih => rw [List.flatMap_cons, ih, ← List.flatMap_cons]
  | case3 c r hne ih => rw [List.flatMap_cons, ih, List.flatMap_cons]
  | case4 => rfl

theorem decodePath_encodePath (p : String) : decodePath (encodePath p) = decodePath p := by
  rw [decodePath, toList_encodePath, readMarks_flatMap_markCapital, decodePath]

theorem encodePath_decodePath (p : String) : encodePath (decodePath p) = encodePath p := by
  apply String.toList_injective
  rw [toList_encodePath, decodePath, String.toList_ofList, flatMap_markCapital_readMarks, toList_encodePath]

/-- Paths are written alike if and only if they read alike. -/
theorem encodePath_eq_iff : encodePath p = encodePath q ↔ decodePath p = decodePath q := by
  constructor
  · intro h
    rw [← decodePath_encodePath, h, decodePath_encodePath]
  · intro h
    rw [← encodePath_decodePath, h, encodePath_decodePath]

example : encodePath "!a" = encodePath "A" := by decide

theorem encodePath_eq_iff_of_unmarked (hp : '!' ∉ p.toList) (hq : '!' ∉ q.toList) :
    encodePath p = encodePath q ↔ p = q := by
  rw [encodePath_eq_iff, decodePath_of_unmarked hp, decodePath_of_unmarked hq]

/-! ## Where case is ignored -/

theorem isUpper_of_mem_encodePath (h : x ∈ (encodePath p).toList) : x.isUpper = false := by
  rw [toList_encodePath, List.mem_flatMap] at h
  obtain ⟨c, -, hx⟩ := h
  exact isUpper_of_mem_markCapital hx

@[simp] theorem toLower_encodePath (p : String) : (encodePath p).toLower = encodePath p := by
  have hlower : ∀ x ∈ (encodePath p).toList, x.toLower = x := fun x hx =>
    Char.toLower_eq_of_not_isUpper (by simp [isUpper_of_mem_encodePath hx])
  apply String.toList_injective
  rw [String.toLower, String.toList_map, List.map_congr_left hlower, List.map_id']

theorem not_mem_toLower (hx : x.isAlpha = false) (h : x ∉ v.toList) : x ∉ v.toLower.toList := by
  rw [String.toLower, String.toList_map, List.mem_map]
  rintro ⟨c, hc, rfl⟩
  have hupper : c.isUpper = false := by
    rw [Char.isAlpha_toLower_eq_isAlpha, Char.isAlpha, Bool.or_eq_false_iff] at hx
    exact hx.1
  rw [Char.toLower_eq_of_not_isUpper (by simp [hupper])] at h
  exact h hc

/-! ## Directories -/

/-- The last of a sign parts a text in one way. -/
theorem append_cons_inj_of_last {a b s t : List Char} (hs : x ∉ s) (ht : x ∉ t) :
    a ++ x :: s = b ++ x :: t ↔ a = b ∧ s = t := by
  have hlast {u m n : List Char} (hm : x ∉ m) (h : x :: m = u ++ x :: n) : u = [] := by
    cases u with
    | nil => rfl
    | cons y u =>
      rw [List.cons_append, List.cons.injEq] at h
      exact absurd (by simp [h.2]) hm
  constructor
  · intro h
    rcases List.append_eq_append_iff.mp h with ⟨u, rfl, hu⟩ | ⟨u, rfl, hu⟩
    · obtain rfl := hlast hs hu
      simpa using hu
    · obtain rfl := hlast ht hu
      simpa using hu.symm
  · rintro ⟨rfl, rfl⟩
    rfl

theorem toList_cacheName (p v : String) :
    (cacheName p v).toList = "pkg/mod/".toList ++ (encodePath p).toList ++ '@' :: v.toList := by
  simp [cacheName, toString]

theorem toLower_cacheName (p v : String) : (cacheName p v).toLower = cacheName p v.toLower := by
  have hpath := congrArg String.toList (toLower_encodePath p)
  rw [String.toLower, String.toList_map] at hpath
  apply String.toList_injective
  rw [String.toLower, String.toList_map, toList_cacheName, toList_cacheName, List.map_append, List.map_append, hpath,
    List.map_cons, String.toLower, String.toList_map]
  rfl

/-- Versions have no `@`, so that a directory's name tells where the version starts. -/
theorem cacheName_eq_iff (hp : '!' ∉ p.toList) (hq : '!' ∉ q.toList) (hv : '@' ∉ v.toList) (hw : '@' ∉ w.toList) :
    cacheName p v = cacheName q w ↔ p = q ∧ v = w := by
  rw [← String.toList_inj, toList_cacheName, toList_cacheName, append_cons_inj_of_last hv hw,
    List.append_right_inj, String.toList_inj, String.toList_inj, encodePath_eq_iff_of_unmarked hp hq]

/-- Two names that differ in case at most are of one module. -/
theorem cacheName_toLower_eq_iff (hp : '!' ∉ p.toList) (hq : '!' ∉ q.toList) (hv : '@' ∉ v.toList)
    (hw : '@' ∉ w.toList) : (cacheName p v).toLower = (cacheName q w).toLower ↔ p = q ∧ v.toLower = w.toLower := by
  rw [toLower_cacheName, toLower_cacheName]
  exact cacheName_eq_iff hp hq (not_mem_toLower (by decide) hv) (not_mem_toLower (by decide) hw)

/-- No directory holds packages of two modules, or of two versions of one. -/
theorem CachedModule.name_eq_of_dir_eq {c c' : CachedModule} {sub sub' : List String} (hc : '!' ∉ c.name.toList)
    (hc' : '!' ∉ c'.name.toList) (hsub : ∀ s ∈ sub, IsStep s) (hsub' : ∀ s ∈ sub', IsStep s)
    (h : c.dir sub = c'.dir sub') : c.name = c'.name ∧ c.version = c'.version := by
  have hfound := c.cachedModule?_dir hsub
  rw [h, c'.cachedModule?_dir hsub'] at hfound
  simp only [Option.some.injEq, Prod.mk.injEq] at hfound
  obtain ⟨-, hname, hversion⟩ := hfound
  exact ⟨(encodePath_eq_iff_of_unmarked hc hc').mp hname.symm, hversion.symm⟩

/-- Names in the module cache are put together as module paths are and have no capitals, and two module paths without
marks never share a name, not even where case is ignored. -/
theorem encodePath_separates (p q : String) :
    encodePath (p ++ q) = encodePath p ++ encodePath q ∧
      (∀ x ∈ (encodePath p).toList, x.isUpper = false) ∧
      ('!' ∉ p.toList → '!' ∉ q.toList →
        (encodePath p = encodePath q ↔ p = q) ∧
        ((encodePath p).toLower = (encodePath q).toLower ↔ p = q) ∧
        ∀ v w : String, '@' ∉ v.toList → '@' ∉ w.toList →
          ((cacheName p v).toLower = (cacheName q w).toLower ↔ p = q ∧ v.toLower = w.toLower)) := by
  refine ⟨encodePath_append p q, fun x hx => isUpper_of_mem_encodePath hx, fun hp hq => ?_⟩
  have hexact : encodePath p = encodePath q ↔ p = q := encodePath_eq_iff_of_unmarked hp hq
  refine ⟨hexact, ?_, fun v w hv hw => cacheName_toLower_eq_iff hp hq hv hw⟩
  rw [toLower_encodePath, toLower_encodePath, hexact]

theorem encodePath_separates_toml :
    '!' ∉ "m.org/Toml".toList ∧ '!' ∉ "m.org/toml".toList ∧ '@' ∉ "v1.0.0-RC".toList ∧ '@' ∉ "v1.0.0-rc".toList ∧
      encodePath "m.org/Toml" ≠ encodePath "m.org/toml" ∧
      (encodePath "m.org/Toml").toLower ≠ (encodePath "m.org/toml").toLower ∧
      (cacheName "m.org/Toml" "v1.0.0-RC").toLower ≠ (cacheName "m.org/toml" "v1.0.0-rc").toLower := by
  have hdiffer : "m.org/Toml" ≠ "m.org/toml" := by decide
  have hp : '!' ∉ "m.org/Toml".toList := by decide
  have hq : '!' ∉ "m.org/toml".toList := by decide
  have hv : '@' ∉ "v1.0.0-RC".toList := not_mem_of_isVersion (by decide) (by decide) (by decide) (by decide)
  have hw : '@' ∉ "v1.0.0-rc".toList := not_mem_of_isVersion (by decide) (by decide) (by decide) (by decide)
  obtain ⟨-, -, hpaths⟩ := encodePath_separates "m.org/Toml" "m.org/toml"
  obtain ⟨hexact, hfold, hdirs⟩ := hpaths hp hq
  exact ⟨hp, hq, hv, hw, mt hexact.mp hdiffer, mt hfold.mp hdiffer, fun h => hdiffer ((hdirs _ _ hv hw).mp h).1⟩

end EditorAgent.Go

import EditorAgent.Go.ModFile
import EditorAgent.Proofs.Text.Words
import Mathlib

/-!
# The grammar of versions

A version is `v` and one to three numerals with dots between them. Identifiers of a pre-release and of a build may
follow three numerals. The texts that are accepted are those of the grammar whose numerals have digits of any script
after their first, so they are the versions in ASCII and those with a foreign digit. The versions of a `go.sum` text are
those in the second of three fields.
-/

namespace EditorAgent

namespace Text

/-! ## Joining what was split -/

theorem join_cons_of_ne_nil {ts : List String} (sep s : String) (h : ts ≠ []) :
    join sep (s :: ts) = s ++ sep ++ join sep ts := by
  obtain ⟨t, ts, rfl⟩ := List.exists_cons_of_ne_nil h
  exact join_cons_cons sep s t ts

theorem join_split (c : Char) (s : String) : join (String.ofList [c]) (split (· == c) s) = s := by
  suffices ∀ cs : List Char, join (String.ofList [c]) (split (· == c) (String.ofList cs)) = String.ofList cs by
    simpa using this s.toList
  intro cs
  induction cs with
  | nil => simp [split, splitChars, join]
  | cons x cs ih =>
    obtain ⟨first, rest, hparts⟩ := List.exists_cons_of_ne_nil (split_ne_nil (· == c) (String.ofList cs))
    have hparts' : splitChars (· == c) cs = first.toList :: rest.map String.toList := by
      have hmap := congrArg (List.map String.toList) hparts
      simpa [split, Function.comp_def] using hmap
    rw [hparts] at ih
    by_cases hx : x = c
    · subst hx
      have hsplit : split (· == x) (String.ofList (x :: cs)) = "" :: first :: rest := by
        simp [split, splitChars, hparts', Function.comp_def]
      rw [hsplit, join_cons_cons, ih]
      exact String.toList_injective (by simp)
    · have hsplit : split (· == c) (String.ofList (x :: cs)) = (String.ofList [x] ++ first) :: rest := by
        have hcons : String.ofList (x :: first.toList) = String.ofList [x] ++ first := String.toList_injective (by simp)
        simp [split, splitChars, hparts', hx, Function.comp_def, hcons]
      have hcons : String.ofList (x :: cs) = String.ofList [x] ++ String.ofList cs := String.toList_injective (by simp)
      rw [hsplit, hcons, ← ih]
      cases rest with
      | nil => simp [join]
      | cons t ts => simp only [join_cons_cons, String.append_assoc]

theorem forall_mem_join {P : Char → Prop} {sep : String} {ts : List String} (hsep : ∀ c ∈ sep.toList, P c)
    (hts : ∀ t ∈ ts, ∀ c ∈ t.toList, P c) : ∀ c ∈ (join sep ts).toList, P c := by
  induction ts with
  | nil => simp [join]
  | cons t ts ih =>
    rw [List.forall_mem_cons] at hts
    by_cases hnil : ts = []
    · simpa [hnil, join] using hts.1
    · rw [join_cons_of_ne_nil sep t hnil, String.toList_append, String.toList_append]
      simp only [List.mem_append]
      rintro c ((hc | hc) | hc)
      · exact hts.1 c hc
      · exact hsep c hc
      · exact ih hts.2 c hc

theorem mem_join_of_mem {sep : String} {ts : List String} {t : String} (ht : t ∈ ts) {c : Char} (hc : c ∈ t.toList) :
    c ∈ (join sep ts).toList := by
  induction ts with
  | nil => cases ht
  | cons u ts ih =>
    by_cases hnil : ts = []
    · subst hnil
      obtain rfl := List.mem_singleton.mp ht
      simpa [join] using hc
    · rw [join_cons_of_ne_nil sep u hnil, String.toList_append, String.toList_append]
      rcases List.mem_cons.mp ht with rfl | ht
      · exact List.mem_append_left _ (List.mem_append_left _ hc)
      · exact List.mem_append_right _ (ih ht)

end Text

namespace Go

/-! ## The grammar -/

/-- `0`, or digits that do not start with it. The class is that of the digits after the first. -/
def IsNumeral (digit : Char → Bool) (s : String) : Prop :=
  s = "0" ∨ ∃ c r, s.toList = c :: r ∧ '1' ≤ c ∧ c ≤ '9' ∧ ∀ x ∈ r, digit x = true

/-- A run of letters, digits and hyphens in ASCII. -/
def IsIdent (s : String) : Prop := s ≠ "" ∧ ∀ c ∈ s.toList, c.isAlphanum = true ∨ c = '-'

/-- The numerals of a version, and the identifiers of its pre-release and of its build. -/
structure VersionParts where
  numerals : List String
  pre : Option (List String) := none
  build : Option (List String) := none

namespace VersionParts

def text (v : VersionParts) : String :=
  "v" ++ Text.join "." v.numerals ++ v.pre.elim "" (fun ids => "-" ++ Text.join "." ids) ++
    v.build.elim "" fun ids => "+" ++ Text.join "." ids

structure IsValid (digit : Char → Bool) (v : VersionParts) : Prop where
  numerals : ∀ s ∈ v.numerals, IsNumeral digit s
  some_numeral : v.numerals ≠ []
  at_most_three : v.numerals.length ≤ 3
  /-- Only three numerals are followed by more. -/
  only_three : v.pre.isSome = true ∨ v.build.isSome = true → v.numerals.length = 3
  pre : ∀ ids ∈ v.pre, ids ≠ [] ∧ ∀ s ∈ ids, IsIdent s
  build : ∀ ids ∈ v.build, ids ≠ [] ∧ ∀ s ∈ ids, IsIdent s

end VersionParts

/-- The versions in the grammar with a class of digits. -/
def InGrammar (digit : Char → Bool) (v : String) : Prop := ∃ parts : VersionParts, parts.IsValid digit ∧ v = parts.text

variable {digit : Char → Bool} {s v : String} {ids : List String} {c : Char}

/-! ## Its parts are what is checked -/

theorem isVersionNumber_iff : isVersionNumber s.toList = true ↔ IsNumeral Text.isDecimal s := by
  have hzero : s = "0" ↔ s.toList = ['0'] := by
    rw [← String.toList_inj]
    rfl
  rw [IsNumeral, hzero]
  unfold isVersionNumber
  split
  · next h => simp [h]
  · next c r hne h =>
    rw [h]
    simp [and_assoc] at hne ⊢
    tauto
  · next h => simp [h]

theorem isIdentifier_iff : isIdentifier s.toList = true ↔ IsIdent s := by
  simp [isIdentifier, isIdentifierChar, IsIdent]

theorem isIdentifierList_iff :
    isIdentifierList s.toList = true ↔ ∀ id ∈ Text.split (· == '.') s, IsIdent id := by
  simp [isIdentifierList, Text.split, ← isIdentifier_iff]

/-- A text is cut at the first place of a character. -/
theorem cutFrom_eq_iff {s a : List Char} {rest : Option (List Char)} :
    cutFrom c s = (a, rest) ↔ c ∉ a ∧ s = a ++ rest.elim [] (c :: ·) := by
  have hbefore : c ∉ s.takeWhile (· != c) := fun hc => by
    simpa using List.all_eq_true.mp (List.all_takeWhile (p := (· != c)) (l := s)) c hc
  constructor
  · intro h
    rw [cutFrom] at h
    split at h
    · next hnone =>
      obtain ⟨rfl, rfl⟩ := Prod.mk.inj h
      rw [List.dropWhile_eq_nil_iff] at hnone
      exact ⟨fun hc => by simpa using hnone c hc, by simp⟩
    · next x r hr =>
      obtain ⟨rfl, rfl⟩ := Prod.mk.inj h
      have hx : x = c := by
        have hhead := List.head?_dropWhile_not (· != c) s
        simpa [hr] using hhead
      refine ⟨hbefore, ?_⟩
      rw [Option.elim_some, ← hx, ← hr, hx, List.takeWhile_append_dropWhile]
  · rintro ⟨hc, rfl⟩
    have hne : ∀ x ∈ a, (x != c) = true := fun x hx => by simpa using ne_of_mem_of_not_mem hx hc
    cases rest with
    | none =>
      rw [Option.elim_none, List.append_nil, cutFrom, List.dropWhile_eq_nil_iff.mpr hne]
    | some r =>
      rw [Option.elim_some, cutFrom, List.dropWhile_append_of_pos hne, List.takeWhile_append_of_pos hne]
      simp

theorem cutFrom_append {a : List Char} (h : c ∉ a) (rest : Option (List Char)) :
    cutFrom c (a ++ rest.elim [] (c :: ·)) = (a, rest) :=
  cutFrom_eq_iff.mpr ⟨h, rfl⟩

theorem IsNumeral.forall_mem {P : Char → Prop} (h : IsNumeral digit s) (hascii : ∀ x, x.isDigit = true → P x)
    (hdigit : ∀ x, digit x = true → P x) : ∀ x ∈ s.toList, P x := by
  rcases h with rfl | ⟨x, r, hs, hlow, hhigh, hr⟩
  · exact List.forall_mem_singleton.mpr (hascii '0' (by decide))
  · rw [hs]
    refine List.forall_mem_cons.mpr ⟨hascii x ?_, fun y hy => hdigit y (hr y hy)⟩
    simp only [Char.isDigit, Bool.and_eq_true, decide_eq_true_eq]
    exact ⟨Nat.le_trans (by decide) hlow, hhigh⟩

theorem IsNumeral.not_mem (h : IsNumeral Text.isDecimal s) (hc : Text.isDecimal c = false) : c ∉ s.toList := by
  have hne : ∀ x, Text.isDecimal x = true → x ≠ c := by
    rintro x hx rfl
    exact absurd hx (by simp [hc])
  exact fun hmem => h.forall_mem (fun x hx => hne x (by simp [Text.isDecimal, hx])) hne c hmem rfl

theorem IsIdent.not_mem (h : IsIdent s) (hc : c.isAlphanum = false) (hhyphen : c ≠ '-') : c ∉ s.toList := fun hmem => by
  simpa [hc, hhyphen] using h.2 c hmem

theorem VersionParts.toList_text (v : VersionParts) :
    v.text.toList = 'v' :: ((Text.join "." v.numerals).toList ++
      (v.pre.map (Text.join ".")).elim [] (fun t => '-' :: t.toList) ++
      (v.build.map (Text.join ".")).elim [] fun t => '+' :: t.toList) := by
  obtain ⟨numerals, pre, build⟩ := v
  cases pre <;> cases build <;> simp [text]

/-- What is checked, by the texts that the signs cut out. -/
theorem isVersion_iff_cut : isVersion v = true ↔ ∃ (numerals : String) (pre build : Option String),
    v.toList = 'v' :: (numerals.toList ++ pre.elim [] (fun t => '-' :: t.toList) ++
      build.elim [] fun t => '+' :: t.toList) ∧
    '-' ∉ numerals.toList ∧ '+' ∉ numerals.toList ++ pre.elim [] (fun t => '-' :: t.toList) ∧
    (∀ s ∈ Text.split (· == '.') numerals, IsNumeral Text.isDecimal s) ∧
    (Text.split (· == '.') numerals).length ≤ 3 ∧
    ((Text.split (· == '.') numerals).length = 3 ∨ pre = none ∧ build = none) ∧
    (∀ t ∈ pre, ∀ id ∈ Text.split (· == '.') t, IsIdent id) ∧
    ∀ t ∈ build, ∀ id ∈ Text.split (· == '.') t, IsIdent id := by
  have helim (o : Option String) (x : Char) :
      o.elim [] (fun t => x :: t.toList) = (o.map String.toList).elim [] (x :: ·) := by cases o <;> rfl
  have hnumeral (t : String) : (∀ s ∈ Text.split (· == '.') t, IsNumeral Text.isDecimal s) ↔
      (Text.splitChars (· == '.') t.toList).all isVersionNumber = true := by
    simp [Text.split, ← isVersionNumber_iff]
  have hident (o : Option String) : (∀ t ∈ o, ∀ id ∈ Text.split (· == '.') t, IsIdent id) ↔
      (o.map String.toList).all isIdentifierList = true := by
    cases o <;> simp [← isIdentifierList_iff]
  simp only [helim, hnumeral, hident]
  simp only [Text.split, List.length_map]
  rw [isVersion]
  split
  · next r hr =>
    simp only [hr, Bool.and_eq_true, Bool.or_eq_true, decide_eq_true_eq, Option.isNone_iff_eq_none, and_assoc,
      List.cons.injEq, true_and]
    constructor
    · intro h
      rcases hbuild : cutFrom '+' r with ⟨front, build⟩
      rcases hpre : cutFrom '-' front with ⟨numerals, pre⟩
      simp only [hbuild, hpre] at h
      obtain ⟨hplus, rfl⟩ := cutFrom_eq_iff.mp hbuild
      obtain ⟨hminus, rfl⟩ := cutFrom_eq_iff.mp hpre
      have hback (o : Option (List Char)) : (o.map String.ofList).map String.toList = o := by
        simp [Option.map_map, Function.comp_def]
      refine ⟨String.ofList numerals, pre.map String.ofList, build.map String.ofList, ?_⟩
      rw [hback, hback, String.toList_ofList, Option.map_eq_none_iff, Option.map_eq_none_iff]
      exact ⟨rfl, hminus, hplus, h⟩
    · rintro ⟨numerals, pre, build, rfl, hminus, hplus, h⟩
      simp only [cutFrom_append hplus, cutFrom_append hminus, Option.map_eq_none_iff]
      exact h
  · next hno =>
    refine iff_of_false (by simp) ?_
    rintro ⟨_, _, _, hr, _⟩
    exact hno _ hr

/-- What is accepted is in the grammar, with digits of any script after the first of a numeral. -/
theorem isVersion_iff : isVersion v = true ↔ InGrammar Text.isDecimal v := by
  have hdot : String.ofList ['.'] = "." := rfl
  have hjoin (t : String) : Text.join "." (Text.split (· == '.') t) = t := hdot ▸ Text.join_split '.' t
  have hsplit {ts : List String} (hne : ts ≠ []) (hts : ∀ t ∈ ts, '.' ∉ t.toList) :
      Text.split (· == '.') (Text.join "." ts) = ts := Text.split_join hts hne
  rw [isVersion_iff_cut]
  constructor
  · rintro ⟨numerals, pre, build, hv, -, -, hnumerals, hcount, hthree, hpre, hbuild⟩
    have hids {o : Option String} (ho : ∀ t ∈ o, ∀ id ∈ Text.split (· == '.') t, IsIdent id) :
        ∀ ids ∈ o.map (Text.split (· == '.')), ids ≠ [] ∧ ∀ s ∈ ids, IsIdent s := by
      intro ids hmem
      obtain ⟨t, ht, rfl⟩ := Option.map_eq_some_iff.mp hmem
      exact ⟨Text.split_ne_nil _ _, ho t ht⟩
    refine ⟨⟨Text.split (· == '.') numerals, pre.map (Text.split (· == '.')), build.map (Text.split (· == '.'))⟩,
      ⟨hnumerals, Text.split_ne_nil _ _, hcount, fun hmore => hthree.resolve_right ?_, hids hpre, hids hbuild⟩, ?_⟩
    · rintro ⟨rfl, rfl⟩
      simp at hmore
    · apply String.toList_injective
      rw [hv, VersionParts.toList_text]
      simp only [Option.map_map, Function.comp_def, hjoin, Option.map_id']
  · rintro ⟨⟨numerals, pre, build⟩, ⟨hnumerals, hsome, hcount, hthree, hpre, hbuild⟩, rfl⟩
    have hnumeral {x : Char} (hx : Text.isDecimal x = false) (t) (ht : t ∈ numerals) : x ∉ t.toList :=
      (hnumerals t ht).not_mem hx
    have hid {o : Option (List String)} (ho : ∀ ids ∈ o, ids ≠ [] ∧ ∀ s ∈ ids, IsIdent s) :
        ∀ t ∈ o.map (Text.join "."), ∀ id ∈ Text.split (· == '.') t, IsIdent id := by
      intro t ht
      obtain ⟨ids, hids, rfl⟩ := Option.map_eq_some_iff.mp ht
      obtain ⟨hne, hall⟩ := ho ids hids
      rwa [hsplit hne fun s hs => (hall s hs).not_mem (by decide) (by decide)]
    have hnone {x : Char} (hx : Text.isDecimal x = false) (hdot : x ≠ '.') : x ∉ (Text.join "." numerals).toList := by
      intro hmem
      refine Text.forall_mem_join (P := (· ≠ x)) (by simpa using hdot.symm) (fun t ht c hc => ?_) x hmem rfl
      exact ne_of_mem_of_not_mem hc (hnumeral hx t ht)
    have hback : Text.split (· == '.') (Text.join "." numerals) = numerals := hsplit hsome (hnumeral (by decide))
    refine ⟨Text.join "." numerals, pre.map (Text.join "."), build.map (Text.join "."), VersionParts.toList_text _,
      hnone (by decide) (by decide), ?_, ?_, ?_, ?_, hid hpre, hid hbuild⟩
    · rw [List.mem_append, not_or]
      refine ⟨hnone (by decide) (by decide), ?_⟩
      cases pre with
      | none => simp
      | some ids =>
        rw [Option.map_some, Option.elim_some, List.mem_cons, not_or]
        refine ⟨by decide, fun hmem => ?_⟩
        refine Text.forall_mem_join (P := (· ≠ '+')) (by simp) (fun t ht c hc => ?_) '+' hmem rfl
        exact ne_of_mem_of_not_mem hc (((hpre ids rfl).2 t ht).not_mem (by decide) (by decide))
    · rwa [hback]
    · rwa [hback]
    · rw [hback, Option.map_eq_none_iff, Option.map_eq_none_iff]
      by_cases hmore : pre.isSome = true ∨ build.isSome = true
      · exact .inl (hthree hmore)
      · rw [not_or, Option.not_isSome_iff_eq_none, Option.not_isSome_iff_eq_none] at hmore
        exact .inr hmore

/-! ## The characters of a version -/

/-- A version has signs, letters and digits, and the digits of its numerals. -/
theorem VersionParts.IsValid.forall_mem {P : Char → Prop} {parts : VersionParts} (h : parts.IsValid digit)
    (hsign : ∀ x ∈ ['.', '-', '+'], P x) (halphanum : ∀ x, x.isAlphanum = true → P x)
    (hdigit : ∀ x, digit x = true → P x) : ∀ x ∈ parts.text.toList, P x := by
  have hdot : ∀ x ∈ ".".toList, P x := List.forall_mem_singleton.mpr (hsign '.' (by decide))
  have hnumerals : ∀ x ∈ (Text.join "." parts.numerals).toList, P x :=
    Text.forall_mem_join hdot fun s hs =>
      (h.numerals s hs).forall_mem (fun x hx => halphanum x (by simp [Char.isAlphanum, hx])) hdigit
  have hids {y : Char} (hy : P y) {o : Option (List String)} (ho : ∀ ids ∈ o, ids ≠ [] ∧ ∀ s ∈ ids, IsIdent s) :
      ∀ x ∈ (o.map (Text.join ".")).elim [] (fun t => y :: t.toList), P x := by
    cases o with
    | none => simp
    | some ids =>
      refine List.forall_mem_cons.mpr ⟨hy, Text.forall_mem_join hdot fun s hs x hx => ?_⟩
      rcases ((ho ids rfl).2 s hs).2 x hx with hx | rfl
      · exact halphanum x hx
      · exact hsign '-' (by decide)
  rw [toList_text, List.forall_mem_cons, List.forall_mem_append, List.forall_mem_append]
  exact ⟨halphanum 'v' (by decide), ⟨hnumerals, hids (hsign '-' (by decide)) h.pre⟩,
    hids (hsign '+' (by decide)) h.build⟩

theorem not_mem_of_isVersion (h : isVersion v = true) (hsign : c ∉ ['.', '-', '+']) (halphanum : c.isAlphanum = false)
    (hdigit : Text.isDecimal c = false) : c ∉ v.toList := by
  obtain ⟨parts, hvalid, rfl⟩ := isVersion_iff.mp h
  have hne {f : Char → Bool} (hc : f c = false) (x : Char) (hx : f x = true) : x ≠ c := by
    rintro rfl
    exact absurd hx (by simp [hc])
  have hall : ∀ x ∈ parts.text.toList, x ≠ c :=
    hvalid.forall_mem (fun x hx => ne_of_mem_of_not_mem hx hsign) (hne halphanum) (hne hdigit)
  exact fun hmem => hall c hmem rfl

/-! ## Digits of other scripts -/

theorem isDigit_of_isDecimal (h : Text.isDecimal c = true) (hascii : c.toNat < 128) : c.isDigit = true := by
  have hranges : ∀ r ∈ Text.digitRanges, 128 ≤ r.1 := by decide
  rw [Text.isDecimal, Bool.or_eq_true] at h
  refine h.resolve_right fun hin => ?_
  simp only [Text.inRanges, List.any_eq_true, Bool.and_eq_true, decide_eq_true_eq] at hin
  obtain ⟨r, hr, hlow, -⟩ := hin
  have := hranges r hr
  omega

theorem IsNumeral.mono {digit' : Char → Bool} (h : IsNumeral digit s)
    (hdigit : ∀ c ∈ s.toList, digit c = true → digit' c = true) : IsNumeral digit' s := by
  refine h.imp_right fun ⟨c, r, hs, hlow, hhigh, hr⟩ => ⟨c, r, hs, hlow, hhigh, fun x hx => hdigit x ?_ (hr x hx)⟩
  exact hs ▸ List.mem_cons_of_mem _ hx

theorem VersionParts.IsValid.mono {digit' : Char → Bool} {parts : VersionParts} (h : parts.IsValid digit)
    (hdigit : ∀ s ∈ parts.numerals, ∀ c ∈ s.toList, digit c = true → digit' c = true) : parts.IsValid digit' :=
  { h with numerals := fun s hs => (h.numerals s hs).mono (hdigit s hs) }

theorem VersionParts.mem_text_of_numeral {parts : VersionParts} (hs : s ∈ parts.numerals) (hc : c ∈ s.toList) :
    c ∈ parts.text.toList := by
  rw [toList_text]
  simp [Text.mem_join_of_mem hs hc]

/-- A version with ASCII digits is in ASCII. -/
theorem VersionParts.IsValid.ascii {parts : VersionParts} (h : parts.IsValid Char.isDigit) :
    ∀ c ∈ parts.text.toList, c.toNat < 128 := by
  have hlast (c : Char) (hc : c ≤ 'z') : c.toNat < 128 := by
    have hle : c.toNat ≤ 122 := hc
    omega
  have halphanum (c : Char) (hc : c.isAlphanum = true) : c.toNat < 128 := by
    simp only [Char.isAlphanum, Char.isAlpha, Char.isUpper, Char.isLower, Char.isDigit, Bool.or_eq_true,
      Bool.and_eq_true, decide_eq_true_eq] at hc
    rcases hc with (hc | hc) | hc
    · exact hlast c (Nat.le_trans hc.2 (by decide))
    · exact hlast c hc.2
    · exact hlast c (Nat.le_trans hc.2 (by decide))
  exact h.forall_mem (by simp) halphanum fun c hc => halphanum c (by simp [Char.isAlphanum, hc])

/-- With ASCII digits the grammar has the versions that are accepted and have no digit of another script. -/
theorem inGrammar_ascii_iff :
    InGrammar Char.isDigit v ↔ isVersion v = true ∧ ∀ c ∈ v.toList, Text.isDecimal c = true → c.isDigit = true := by
  rw [isVersion_iff]
  constructor
  · rintro ⟨parts, hvalid, rfl⟩
    refine ⟨⟨parts, hvalid.mono fun s _ c _ hc => by simp [Text.isDecimal, hc], rfl⟩, fun c hc hdecimal => ?_⟩
    exact isDigit_of_isDecimal hdecimal (hvalid.ascii c hc)
  · rintro ⟨⟨parts, hvalid, rfl⟩, hdigit⟩
    exact ⟨parts, hvalid.mono fun s hs c hc => hdigit c (VersionParts.mem_text_of_numeral hs hc), rfl⟩

/-! ## The versions of a `go.sum` text -/

/-- The fields of a line, with white space between them and around them. -/
inductive Fields : List String → String → Prop where
  | none {blank : String} (hblank : ∀ c ∈ blank.toList, Text.isBlank c = true) : Fields [] blank
  | cons {blank field rest : String} {fields : List String} (hblank : ∀ c ∈ blank.toList, Text.isBlank c = true)
      (hne : field ≠ "") (hfield : ∀ c ∈ field.toList, Text.isBlank c = false)
      (hsep : ∀ c ∈ rest.toList.head?, Text.isBlank c = true) (hrest : Fields fields rest) :
      Fields (field :: fields) (blank ++ field ++ rest)

/-- A line with a path, a version and a third field. -/
def ListsVersion (line path version : String) : Prop :=
  InGrammar Text.isDecimal version ∧ ∃ hash, Fields [path, version, hash] line

/-- The versions that lines list, in the order of the lines. -/
inductive Listed : List String → List Require → Prop where
  | nil : Listed [] []
  | version {line path version : String} {lines : List String} {rs : List Require}
      (hline : ListsVersion line path version) (hrest : Listed lines rs) :
      Listed (line :: lines) (⟨path, version⟩ :: rs)
  | other {line : String} {lines : List String} {rs : List Require}
      (hline : ∀ path version, ¬ListsVersion line path version) (hrest : Listed lines rs) : Listed (line :: lines) rs

variable {line : String} {fields : List String}

theorem Fields.words_eq (h : Fields fields line) : Text.words line = fields := by
  induction h with
  | @none blank hblank =>
    have hwords := Text.words_blanks_append hblank []
    rw [List.append_nil, String.ofList_toList] at hwords
    exact hwords.trans (by decide)
  | @cons blank field rest fields hblank hne hfield hsep hrest ih =>
    have hsplit : blank ++ field ++ rest = String.ofList (blank.toList ++ (field.toList ++ rest.toList)) :=
      String.toList_injective (by simp)
    have hlist : field.toList ≠ [] := by simpa using hne
    rw [hsplit, Text.words_blanks_append hblank, Text.words_append hfield hsep, if_neg hlist, String.ofList_toList,
      String.ofList_toList, ih, List.singleton_append]

theorem exists_fields (line : String) : ∃ fields, Fields fields line := by
  induction hn : line.length using Nat.strong_induction_on generalizing line with
  | _ n ih =>
    have hblank : ∀ c ∈ line.toList.takeWhile Text.isBlank, Text.isBlank c = true :=
      List.all_eq_true.mp List.all_takeWhile
    have hline : line = String.ofList (line.toList.takeWhile Text.isBlank) ++ Text.trimStart line :=
      String.toList_injective (by simp [Text.trimStart])
    obtain ⟨field, rest, htrim, hfield, hsep⟩ := Text.exists_run (Text.trimStart line)
    by_cases hne : field = []
    · -- what is left begins with no blank and with no field
      have hend : Text.trimStart line = "" := by
        have hhead := List.head?_dropWhile_not Text.isBlank line.toList
        rw [hne, List.nil_append] at htrim
        rw [← String.toList_ofList (l := line.toList.dropWhile Text.isBlank), ← Text.trimStart, htrim,
          String.toList_ofList] at hhead
        rw [htrim]
        cases rest with
        | nil => rfl
        | cons c rest => simp [hsep c rfl] at hhead
      refine ⟨[], ?_⟩
      rw [hline, hend, String.append_empty]
      exact .none (by simpa using hblank)
    · have hsplit : line = String.ofList (line.toList.takeWhile Text.isBlank) ++ String.ofList field ++
          String.ofList rest := by
        conv_lhs => rw [hline, htrim]
        exact String.toList_injective (by simp)
      have hshorter : (String.ofList rest).length < n := by
        have hlength := congrArg String.length hsplit
        have hpos := List.length_pos_iff.mpr hne
        simp only [String.length_append, String.length_ofList] at hlength ⊢
        omega
      obtain ⟨fields, hfields⟩ := ih _ hshorter _ rfl
      refine ⟨String.ofList field :: fields, ?_⟩
      rw [hsplit]
      exact .cons (by simpa using hblank) (by simpa using hne) (by simpa using hfield) (by simpa using hsep) hfields

theorem words_eq_iff : Text.words line = fields ↔ Fields fields line := by
  refine ⟨fun h => ?_, Fields.words_eq⟩
  obtain ⟨found, hfound⟩ := exists_fields line
  rwa [← h, hfound.words_eq]

/-- The version that a line lists, if there is one. -/
theorem sumLine_eq_some_iff {r : Require} :
    (match Text.words line with
      | [path, version, _] => if isVersion version then some ⟨path, version⟩ else none
      | _ => none : Option Require) = some r ↔ ListsVersion line r.path r.version := by
  simp only [ListsVersion, ← words_eq_iff, ← isVersion_iff]
  split
  · next path version hash hwords =>
    rw [hwords]
    split
    · next h =>
      constructor
      · rintro ⟨⟩
        exact ⟨h, hash, rfl⟩
      · rintro ⟨-, hash', hfields⟩
        cases r
        simp_all
    · next h =>
      refine iff_of_false (by simp) ?_
      rintro ⟨hversion, hash', hfields⟩
      simp_all
  · next hno =>
    exact iff_of_false (by simp) fun ⟨_, hash, hwords⟩ => hno _ _ _ hwords

theorem filterMap_eq_iff_listed {f : String → Option Require} {lines : List String} {rs : List Require}
    (hf : ∀ line r, f line = some r ↔ ListsVersion line r.path r.version) :
    lines.filterMap f = rs ↔ Listed lines rs := by
  constructor
  · rintro rfl
    induction lines with
    | nil => exact .nil
    | cons line lines ih =>
      cases hline : f line with
      | none =>
        rw [List.filterMap_cons_none hline]
        refine .other (fun path version hlists => ?_) ih
        have hsome := (hf line ⟨path, version⟩).mpr hlists
        simp [hline] at hsome
      | some r =>
        rw [List.filterMap_cons_some hline]
        exact .version ((hf line r).mp hline) ih
  · intro h
    induction h with
    | nil => rfl
    | @version line path version lines rs hline hrest ih =>
      rw [List.filterMap_cons_some ((hf line ⟨path, version⟩).mpr hline), ih]
    | @other line lines rs hline hrest ih =>
      have hnone : f line = none :=
        Option.eq_none_iff_forall_ne_some.mpr fun r hr => hline r.path r.version ((hf line r).mp hr)
      rw [List.filterMap_cons_none hnone, ih]

theorem parseSum_eq_iff {src : String} {rs : List Require} : parseSum src = rs ↔ Listed (Text.lines src) rs :=
  filterMap_eq_iff_listed fun _ _ => sumLine_eq_some_iff

/-- The versions that are accepted are those of the grammar, with digits of any script after the first digit of a
numeral; those of them without a foreign digit are the versions in ASCII. A `go.sum` text lists the versions of its
lines with three fields, in their order. -/
theorem versions_accepted (v src : String) (rs : List Require) :
    (isVersion v = true ↔ InGrammar Text.isDecimal v) ∧
      (InGrammar Char.isDigit v ↔
        isVersion v = true ∧ ∀ c ∈ v.toList, Text.isDecimal c = true → c.isDigit = true) ∧
      (parseSum src = rs ↔ Listed (Text.lines src) rs) :=
  ⟨isVersion_iff, inGrammar_ascii_iff, parseSum_eq_iff⟩

example : isVersion "v1.2.3-rc.1+b" = true ∧ isVersion "v1.2-rc" = false ∧ isVersion "v1.02.3" = false ∧
    isVersion "v1\u0661" = true := by decide

end Go
end EditorAgent

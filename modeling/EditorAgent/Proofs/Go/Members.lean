import EditorAgent.Proofs.Go.Archive
import EditorAgent.Proofs.Text.Repair
import EditorAgent.Proofs.Text.Words
import Mathlib

/-!
# Archives and their members

An archive is laid out member by member, each behind a header of padded fields. The search for export data goes from
header to header, whatever the members hold, so it finds just what the names of the members say: the export data, if
some member is named for it but for slashes and then blanks at the end.
-/

namespace EditorAgent.Go.Archive

open String (utf8EncodeChar)

/-! ## Members -/

/-- A member of an archive: the fields of its header, its contents, and the byte that fills up an odd length. -/
structure Member where
  name : Bytes
  date : Bytes
  owner : Bytes
  group : Bytes
  mode : Bytes
  contents : Bytes
  filler : UInt8
  name_le : name.length ≤ 16
  name_ends : ∀ b ∈ name.getLast?, b ≠ 0x20 ∧ b ≠ 0x2F
  date_le : date.length ≤ 12
  owner_le : owner.length ≤ 6
  group_le : group.length ≤ 6
  mode_le : mode.length ≤ 8
  contents_lt : contents.length < 10 ^ 10

/-- A field of a header, filled up with spaces. -/
def padded (width : Nat) (s : Bytes) : Bytes := s ++ List.replicate (width - s.length) 0x20

theorem length_padded {width : Nat} {s : Bytes} (h : s.length ≤ width) : (padded width s).length = width := by
  rw [padded, List.length_append, List.length_replicate]
  omega

namespace Member

variable (m : Member)

/-- The length of the contents, in decimal. -/
def size : Bytes := Utf8.encode (toString m.contents.length)

def heading : Bytes :=
  padded 16 m.name ++ (padded 12 m.date ++ (padded 6 m.owner ++ (padded 6 m.group ++ (padded 8 m.mode ++
    (padded 10 m.size ++ Utf8.encode "`\n")))))

def bytes : Bytes :=
  m.heading ++ (m.contents ++ if m.contents.length % 2 = 1 then [m.filler] else [])

end Member

def layout (ms : List Member) : Bytes := magic ++ ms.flatMap Member.bytes

/-! ## Padding -/

theorem lossy_padded (width : Nat) (s : Bytes) :
    (Utf8.lossy (padded width s)).toList = (Utf8.lossy s).toList ++ List.replicate (width - s.length) ' ' := by
  have hspaces : List.replicate (width - s.length) (0x20 : UInt8) =
      (List.replicate (width - s.length) ' ').flatMap utf8EncodeChar := by
    induction width - s.length with
    | zero => rfl
    | succ n ih => rw [List.replicate_succ, ih]; rfl
  have hascii : ∀ c ∈ (List.replicate (width - s.length) ' ').head?, c.toNat < 0x80 := fun c hc => by
    rw [List.eq_of_mem_replicate (List.mem_of_mem_head? hc)]
    decide
  rw [padded, hspaces, Utf8.lossy, Utf8.lossyChars_append [] s hascii, String.toList_ofList, Utf8.lossy,
    String.toList_ofList]

/-! ## Sizes -/

theorem isBlank_of_isDigit {c : Char} (hc : c.isDigit = true) : Text.isBlank c = false := by
  have hrange : 48 ≤ c.toNat ∧ c.toNat ≤ 57 := by
    simpa [Char.isDigit, UInt32.le_iff_toNat_le] using hc
  simp only [Text.isBlank, Bool.or_eq_false_iff, Bool.and_eq_false_iff, decide_eq_false_iff_not]
  omega

theorem length_flatMap_of_isDigit {cs : List Char} (hcs : ∀ c ∈ cs, c.isDigit = true) :
    (cs.flatMap utf8EncodeChar).length = cs.length := by
  have hone : ∀ c ∈ cs, (utf8EncodeChar c).length = 1 := fun c hc => by
    have hrange : 48 ≤ c.toNat ∧ c.toNat ≤ 57 := by
      simpa [Char.isDigit, UInt32.le_iff_toNat_le] using hcs c hc
    rw [Utf8.utf8EncodeChar_of_lt (by omega), List.length_singleton]
  rw [List.length_flatMap, List.map_congr_left hone, List.map_const', List.sum_replicate_nat, Nat.mul_one]

/-- Digits are read as the number that they spell. -/
theorem size?_digits {s : Bytes} {cs : List Char} (hne : cs ≠ []) (hcs : ∀ c ∈ cs, c.isDigit = true)
    (htrim : (Text.trim (Utf8.lossy s)).toList = cs) : size? s = some (Nat.ofDigitChars 10 cs 0 : Int) := by
  have hempty : cs.isEmpty = false := by simpa using hne
  have hall : cs.all Char.isDigit = true := List.all_eq_true.mpr hcs
  have hfold : Nat.ofDigitChars 10 cs 0 = cs.foldl (fun n c => n * 10 + (c.toNat - 48)) 0 := by
    rw [Nat.ofDigitChars_eq_foldl]
    exact congrArg (cs.foldl · 0) (funext₂ fun n c => congrArg (· + (c.toNat - 48)) (Nat.mul_comm 10 n))
  unfold size?
  rw [htrim]
  dsimp only
  split
  · exact absurd (hcs '-' List.mem_cons_self) (by decide)
  · exact absurd (hcs '+' List.mem_cons_self) (by decide)
  · rw [hempty, hall, hfold]
    rfl

namespace Member

variable (m : Member)

theorem size_eq : m.size = (Nat.toDigits 10 m.contents.length).flatMap utf8EncodeChar := by
  rw [size, Utf8.encode, Nat.toString_eq_ofList_toDigits, String.toList_ofList]

theorem isDigit_of_mem_digits {n : Nat} : ∀ c ∈ Nat.toDigits 10 n, c.isDigit = true := fun _ hc =>
  Nat.isDigit_of_mem_toDigits (by decide) (by decide) hc

theorem length_size : m.size.length ≤ 10 := by
  rw [size_eq, length_flatMap_of_isDigit isDigit_of_mem_digits]
  exact (Nat.length_toDigits_le_iff (by decide) (by decide)).mpr m.contents_lt

/-- The size is read back. -/
theorem size?_padded : size? (padded 10 m.size) = some (m.contents.length : Int) := by
  have htrim : (Text.trim (Utf8.lossy (padded 10 m.size))).toList = Nat.toDigits 10 m.contents.length := by
    rw [Text.trim, String.toList_ofList, lossy_padded, size, Utf8.lossy_encode, Nat.toString_eq_ofList_toDigits,
      String.toList_ofList]
    have hdigit : ∀ c ∈ Nat.toDigits 10 m.contents.length, Text.isBlank c = false := fun c hc =>
      isBlank_of_isDigit (isDigit_of_mem_digits c hc)
    rw [← List.nil_append (Nat.toDigits 10 m.contents.length)]
    refine Text.trimChars_around nofun (fun c hc => ?_) (fun c hc => hdigit c (List.mem_of_mem_head? hc)) fun c hc =>
      hdigit c (List.mem_of_getLast? hc)
    rw [List.eq_of_mem_replicate hc]
    rfl
  rw [size?_digits Nat.toDigits_ne_nil isDigit_of_mem_digits htrim, Nat.ofDigitChars_toDigits (by decide) (by decide)]

theorem length_heading : m.heading.length = headerLength := by
  simp only [heading, List.length_append, length_padded m.name_le, length_padded m.date_le, length_padded m.owner_le,
    length_padded m.group_le, length_padded m.mode_le, length_padded m.length_size]
  rfl

end Member

/-! ## Names -/

/-- Names the export data, but for slashes and then blanks at the end. -/
def NamesExport (name : Bytes) : Prop :=
  ∃ slashes blanks : List Char, (∀ c ∈ slashes, c = '/') ∧ (∀ c ∈ blanks, Text.isBlank c = true) ∧
    name = (exportMember.toList ++ slashes ++ blanks).flatMap utf8EncodeChar

theorem isExportName_eq (name : Bytes) : isExportName name =
    decide (((Utf8.lossy name).toList.reverse.dropWhile Text.isBlank).dropWhile (· == '/') =
      exportMember.toList.reverse) := by
  rw [isExportName, Text.trimEnd, String.toList_ofList, List.reverse_reverse, decide_eq_decide, List.reverse_eq_iff]

theorem isExportName_padded (width : Nat) (name : Bytes) : isExportName (padded width name) = isExportName name := by
  have hspaces : ∀ c ∈ (List.replicate (width - name.length) ' ').reverse, Text.isBlank c = true := fun c hc => by
    rw [List.eq_of_mem_replicate (List.mem_reverse.mp hc)]
    rfl
  rw [isExportName_eq, lossy_padded, List.reverse_append, List.dropWhile_append_of_pos hspaces, ← isExportName_eq]

theorem notBlank_of_mem_exportMember : ∀ c ∈ exportMember.toList, Text.isBlank c = false := by
  have hall : exportMember.toList.all (fun c => !Text.isBlank c) = true := by decide
  simpa using hall

theorem isExportName_iff (name : Bytes) : isExportName name = true ↔ NamesExport name := by
  rw [isExportName_eq, decide_eq_true_iff]
  constructor
  · intro h
    generalize hcs : (Utf8.lossy name).toList.reverse = cs at h
    have hparts : (Utf8.lossy name).toList = exportMember.toList ++
        ((cs.dropWhile Text.isBlank).takeWhile (· == '/')).reverse ++ (cs.takeWhile Text.isBlank).reverse := by
      rw [← List.reverse_inj, hcs, List.reverse_append, List.reverse_append, List.reverse_reverse, List.reverse_reverse,
        ← h, List.takeWhile_append_dropWhile, List.takeWhile_append_dropWhile]
    have hslashes : ∀ c ∈ ((cs.dropWhile Text.isBlank).takeWhile (· == '/')).reverse, c = '/' := fun c hc => by
      simpa using List.mem_takeWhile_imp (List.mem_reverse.mp hc)
    have hblanks : ∀ c ∈ (cs.takeWhile Text.isBlank).reverse, Text.isBlank c = true := fun c hc =>
      List.mem_takeWhile_imp (List.mem_reverse.mp hc)
    -- none of these characters is put for ill-formed bytes
    have hnone : Char.ofNat 0xFFFD ∉ (Utf8.lossy name).toList := by
      rw [hparts, List.mem_append, List.mem_append]
      rintro ((hname | hslash) | hblank)
      · exact absurd hname (by decide)
      · exact absurd (hslashes _ hslash) (by decide)
      · exact absurd (hblanks _ hblank) (by decide)
    refine ⟨_, _, hslashes, hblanks, ?_⟩
    rw [← hparts]
    exact (Utf8.encode_lossy hnone).symm
  · rintro ⟨slashes, blanks, hslashes, hblanks, rfl⟩
    have hlast : exportMember.toList.reverse.head? = some 'F' := by decide
    rw [Utf8.lossy, Utf8.lossyChars_encode, String.toList_ofList, List.reverse_nil, List.nil_append,
      List.reverse_append, List.reverse_append,
      Text.dropWhile_append_eq fun c hc => hblanks c (List.mem_reverse.mp hc), Text.dropWhile_append_eq]
    · intro c hc
      simpa using hslashes c (List.mem_reverse.mp hc)
    · intro c hc
      obtain rfl := Option.some.inj (hlast.symm.trans hc)
      decide
    · intro c hc
      rcases List.mem_append.mp (List.mem_of_mem_head? hc) with hslash | hname
      · rw [hslashes c (List.mem_reverse.mp hslash)]
        rfl
      · exact notBlank_of_mem_exportMember c (List.mem_reverse.mp hname)

/-- A name that ends in neither a slash nor a blank names the export data just if it is its name. -/
theorem namesExport_iff {name : Bytes} (hslash : ∀ b ∈ name.getLast?, b ≠ 0x2F)
    (hblank : ∀ c ∈ (Utf8.lossy name).toList.getLast?, Text.isBlank c = false) :
    NamesExport name ↔ name = Utf8.encode exportMember := by
  refine ⟨?_, fun h => ⟨[], [], by simp, by simp, by rw [h, Utf8.encode, List.append_nil, List.append_nil]⟩⟩
  rintro ⟨slashes, blanks, hslashes, hblanks, rfl⟩
  rw [Utf8.lossy, Utf8.lossyChars_encode, String.toList_ofList, List.reverse_nil, List.nil_append] at hblank
  rcases List.eq_nil_or_concat' blanks with rfl | ⟨blanks, c, rfl⟩
  · rw [List.append_nil] at hslash ⊢
    rcases List.eq_nil_or_concat' slashes with rfl | ⟨slashes, c, rfl⟩
    · rw [List.append_nil, Utf8.encode]
    · obtain rfl : c = '/' := hslashes c (by simp)
      rw [← List.append_assoc, List.flatMap_append] at hslash
      exact absurd rfl (hslash 0x2F (by simp [utf8EncodeChar]))
  · rw [← List.append_assoc, List.getLast?_concat] at hblank
    exact absurd (hblanks c (by simp)) (by simp [hblank c rfl])

/-! ## From member to member -/

section Walk

variable (before after : Bytes) (m : Member)

theorem header_member : header (before ++ (m.bytes ++ after)) before.length = m.heading := by
  rw [header, List.drop_left, Member.bytes, List.append_assoc, ← m.length_heading, List.take_left]

theorem Member.take_heading : m.heading.take 16 = padded 16 m.name := List.take_left' (length_padded m.name_le)

theorem memberSize?_member :
    memberSize? (before ++ (m.bytes ++ after)) before.length = some (m.contents.length : Int) := by
  have hfields : (padded 16 m.name ++ (padded 12 m.date ++ (padded 6 m.owner ++ (padded 6 m.group ++
      padded 8 m.mode)))).length = 48 := by
    simp only [List.length_append, length_padded m.name_le, length_padded m.date_le, length_padded m.owner_le,
      length_padded m.group_le, length_padded m.mode_le]
  have hheading : m.heading = (padded 16 m.name ++ (padded 12 m.date ++ (padded 6 m.owner ++ (padded 6 m.group ++
      padded 8 m.mode)))) ++ (padded 10 m.size ++ Utf8.encode "`\n") := by
    simp only [Member.heading, List.append_assoc]
  rw [memberSize?, header_member, hheading, List.drop_left' hfields, List.take_left' (length_padded m.length_size),
    m.size?_padded]

theorem Member.length_bytes : m.bytes.length = headerLength + m.contents.length + m.contents.length % 2 := by
  rw [bytes, List.length_append, List.length_append, m.length_heading]
  split <;> simp <;> omega

/-- The header of a member decides the search, or tells where the next member begins. -/
theorem look_member : look (before ++ (m.bytes ++ after)) before.length =
    if isExportName m.name then .inl (.ok true) else .inr (before ++ m.bytes).length := by
  have hnext : (before.length + headerLength + advance m.contents.length : Int) = (before ++ m.bytes).length := by
    rw [List.length_append, m.length_bytes, advance]
    omega
  rw [look, header_member, memberSize?_member, m.length_heading, if_neg (Nat.lt_irrefl _), m.take_heading,
    isExportName_padded]
  dsimp only
  rw [hnext, if_neg (Int.not_lt.mpr (Int.natCast_nonneg _)), Int.toNat_natCast]

end Walk

/-- The search finds what the names of the members say. -/
theorem findExport_members (ms : List Member) (before : Bytes) {fuel : Nat} (hfuel : ms.length < fuel) :
    findExport (before ++ ms.flatMap Member.bytes) fuel before.length =
      some (.ok (ms.any fun m => isExportName m.name)) := by
  obtain ⟨fuel, rfl⟩ := Nat.exists_eq_add_one_of_ne_zero (Nat.ne_zero_of_lt hfuel)
  induction ms generalizing before fuel with
  | nil =>
    have hend : (header (before ++ [].flatMap Member.bytes) before.length).length < headerLength := by
      simp [header, headerLength]
    rw [findExport_succ, look, if_pos hend]
    rfl
  | cons m ms ih =>
    rw [findExport_succ, List.flatMap_cons, look_member, List.any_cons]
    split
    · next hname => rw [hname]; rfl
    · next hname =>
      have hfuel : ms.length < fuel := Nat.lt_of_succ_lt_succ hfuel
      obtain ⟨fuel, rfl⟩ := Nat.exists_eq_add_one_of_ne_zero (Nat.ne_zero_of_lt hfuel)
      rw [Sum.elim_inr, ← List.append_assoc, ih (before ++ m.bytes) fuel hfuel, Bool.eq_false_of_not_eq_true hname,
        Bool.false_or]

theorem length_le_flatMap_bytes (ms : List Member) : ms.length ≤ (ms.flatMap Member.bytes).length := by
  induction ms with
  | nil => exact Nat.le_refl 0
  | cons m ms ih =>
    rw [List.flatMap_cons, List.length_append, m.length_bytes, List.length_cons, headerLength]
    omega

theorem hasExport_layout (ms : List Member) :
    hasExport (layout ms) = some (.ok (ms.any fun m => isExportName m.name)) := by
  refine findExport_members ms magic ?_
  have := length_le_flatMap_bytes ms
  rw [layout, List.length_append]
  omega

theorem any_isExportName_iff (ms : List Member) :
    (ms.any fun m => isExportName m.name) = true ↔ ∃ m ∈ ms, NamesExport m.name := by
  simp only [List.any_eq_true, isExportName_iff]

/-! ## The package -/

/-- A package read from an archive: complete, named by the last element of its path, its imports sorted by theirs. -/
structure Concluded (importPath : String) (imports : List Package) (pkg : Package) : Prop where
  path : pkg.path = importPath
  complete : pkg.complete = true
  last : '/' ∉ pkg.name.toList
  element : importPath = pkg.name ∨ ∃ pre, importPath = pre ++ "/" ++ pkg.name
  perm : pkg.imports.Perm imports
  sorted : pkg.imports.Pairwise fun p q => p.path ≤ q.path

theorem cutLastChars_cases (cs : List Char) :
    (Text.cutLastChars ['/'] cs = none ∧ '/' ∉ cs) ∨
      ∃ before after, Text.cutLastChars ['/'] cs = some (before, after) ∧
        cs = before ++ '/' :: after ∧ '/' ∉ after := by
  induction cs with
  | nil => exact .inl ⟨rfl, by simp⟩
  | cons c cs ih =>
    rw [Text.cutLastChars]
    obtain ⟨hcut, hnone⟩ | ⟨before, after, hcut, rfl, hnone⟩ := ih
    · rw [hcut]
      by_cases hc : c = '/'
      · subst hc
        exact .inr ⟨[], cs, by simp, rfl, hnone⟩
      · exact .inl ⟨by simp [Ne.symm hc], by simp [Ne.symm hc, hnone]⟩
    · rw [hcut]
      exact .inr ⟨c :: before, after, rfl, rfl, hnone⟩

/-- The last element of a path has no slash, and is all of it or stands behind one. -/
theorem afterLast_slash (s : String) :
    '/' ∉ (Text.afterLast s "/").toList ∧
      (s = Text.afterLast s "/" ∨ ∃ pre, s = pre ++ "/" ++ Text.afterLast s "/") := by
  rw [Text.afterLast, Text.cutLast?, show "/".toList = ['/'] from rfl]
  obtain ⟨hcut, hnone⟩ | ⟨before, after, hcut, hs, hnone⟩ := cutLastChars_cases s.toList
  · rw [hcut]
    exact ⟨hnone, .inl rfl⟩
  · rw [hcut]
    refine ⟨by simpa using hnone, .inr ⟨String.ofList before, ?_⟩⟩
    rw [← String.toList_inj, hs]
    simp

theorem concluded_package (importPath : String) (imports : List Package) :
    Concluded importPath imports (package importPath imports) where
  path := rfl
  complete := rfl
  last := (afterLast_slash importPath).1
  element := (afterLast_slash importPath).2
  perm := List.mergeSort_perm _ _
  sorted := by
    refine (List.pairwise_mergeSort (fun p q r hpq hqr => ?_) (fun p q => ?_) imports).imp fun h => ?_
    · simp only [Bool.not_eq_true', decide_eq_false_iff_not, String.not_lt] at hpq hqr ⊢
      exact String.le_trans hpq hqr
    · simp only [Bool.or_eq_true, Bool.not_eq_true', decide_eq_false_iff_not, String.not_lt]
      exact String.le_total _ _
    · exact String.not_lt.mp (of_decide_eq_false (by simpa only [Bool.not_eq_true'] using h))

theorem read_layout {d : Disk} {path : String} {ms : List Member} (h : d.read path = .ok (layout ms))
    (importPath : String) (imports : List Package) :
    ((∃ m ∈ ms, NamesExport m.name) → read d importPath path imports = .ok (package importPath imports)) ∧
      ((¬ ∃ m ∈ ms, NamesExport m.name) → ∃ e, read d importPath path imports = .error e) := by
  have hmagic : ((layout ms).take magic.length != magic) = false := by
    rw [layout, List.take_left, bne_self_eq_false]
  rw [← any_isExportName_iff]
  cases hany : ms.any fun m => isExportName m.name <;> simp [read, h, hmagic, hasExport_layout, hany]

/-- Whatever members an archive has and whatever they hold, the search finds the export data just if some member is
named for it, and exactly then the archive is read, as the package of its path. Where no name ends in a blank, a member
is named for the export data just if it has its name. -/
theorem export_found_iff_member (ms : List Member) :
    (hasExport (layout ms) = some (.ok true) ↔ ∃ m ∈ ms, NamesExport m.name) ∧
      (hasExport (layout ms) = some (.ok false) ↔ ¬ ∃ m ∈ ms, NamesExport m.name) ∧
      ((∀ m ∈ ms, ∀ c ∈ (Utf8.lossy m.name).toList.getLast?, Text.isBlank c = false) →
        ((∃ m ∈ ms, NamesExport m.name) ↔ ∃ m ∈ ms, m.name = Utf8.encode exportMember)) ∧
      ∀ d importPath path imports, d.read path = .ok (layout ms) →
        ((∃ pkg, read d importPath path imports = .ok pkg) ↔ ∃ m ∈ ms, NamesExport m.name) ∧
          ∀ pkg, read d importPath path imports = .ok pkg → Concluded importPath imports pkg := by
  have hany := any_isExportName_iff ms
  refine ⟨?_, ?_, fun hblank => ?_, fun d importPath path imports hread => ?_⟩
  · rw [hasExport_layout, ← hany]
    simp
  · rw [hasExport_layout, ← hany]
    simp
  · exact exists_congr fun m => and_congr_right fun hm =>
      namesExport_iff (fun b hb => (m.name_ends b hb).2) (hblank m hm)
  · obtain ⟨hfound, hmissed⟩ := read_layout hread importPath imports
    by_cases h : ∃ m ∈ ms, NamesExport m.name
    · rw [hfound h]
      refine ⟨iff_of_true ⟨_, rfl⟩ h, fun pkg hpkg => ?_⟩
      cases hpkg
      exact concluded_package importPath imports
    · obtain ⟨e, he⟩ := hmissed h
      rw [he]
      exact ⟨iff_of_false (fun ⟨_, hpkg⟩ => by cases hpkg) h, fun pkg hpkg => by cases hpkg⟩

/-- An empty member of the given name. -/
def blankMember (name : Bytes) (last : UInt8) (hle : name.length ≤ 16) (hlast : name.getLast? = some last)
    (hends : last ≠ 0x20 ∧ last ≠ 0x2F) : Member where
  name
  date := []
  owner := []
  group := []
  mode := []
  contents := []
  filler := 0
  name_le := hle
  name_ends := fun b hb => by
    obtain rfl : last = b := Option.some.inj (hlast.symm.trans hb)
    exact hends
  date_le := by decide
  owner_le := by decide
  group_le := by decide
  mode_le := by decide
  contents_lt := by decide

def exporting : Member := blankMember (Utf8.encode exportMember) 0x46 (by decide) (by decide) (by decide)

def shelf : Disk := ⟨[(["x.a"], ⟨.file (layout [exporting]) none, 0⟩)]⟩

/-- The archive of one member named for the export data is read. -/
theorem export_found_shelf :
    (∀ m ∈ [exporting], ∀ c ∈ (Utf8.lossy m.name).toList.getLast?, Text.isBlank c = false) ∧
      shelf.read "/x.a" = .ok (layout [exporting]) ∧ hasExport (layout [exporting]) = some (.ok true) ∧
      ∃ pkg, read shelf "example.com/x" "/x.a" [] = .ok pkg ∧ Concluded "example.com/x" [] pkg := by
  have hblank : ∀ m ∈ [exporting], ∀ c ∈ (Utf8.lossy m.name).toList.getLast?, Text.isBlank c = false := by
    have hlast : (Utf8.lossy exporting.name).toList.getLast? = some 'F' := by decide +kernel
    have hblank : Text.isBlank 'F' = false := by decide
    simpa [hlast] using hblank
  have hread : shelf.read "/x.a" = .ok (layout [exporting]) := by
    rw [Disk.read, Disk.entry, show shelf.locate "/x.a" true = .ok ["x.a"] by cbv]
    rfl
  obtain ⟨hfound, -, hexact, hpackage⟩ := export_found_iff_member [exporting]
  have hmember := (hexact hblank).mpr ⟨exporting, by simp, rfl⟩
  obtain ⟨hiff, hconcluded⟩ := hpackage shelf "example.com/x" "/x.a" [] hread
  obtain ⟨pkg, hpkg⟩ := hiff.mpr hmember
  exact ⟨hblank, hread, hfound.mpr hmember, pkg, hpkg, hconcluded pkg hpkg⟩

/-- The name of the export data with a tab behind it. -/
def tabbed : Member := blankMember (Utf8.encode (exportMember ++ "\t")) 0x09 (by decide) (by decide) (by decide)

/-- A tab behind the name is trimmed like the spaces that fill the field. -/
theorem export_found_tabbed :
    ¬ (hasExport (layout [tabbed]) = some (.ok true) ↔ ∃ m ∈ [tabbed], m.name = Utf8.encode exportMember) := by
  decide +kernel

end EditorAgent.Go.Archive

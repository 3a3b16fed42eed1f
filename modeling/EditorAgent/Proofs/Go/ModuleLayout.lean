import EditorAgent.Go.ModFile
import EditorAgent.Proofs.Path.Below
import EditorAgent.Proofs.Text.Words
import Mathlib

/-!
# The layout of a module file

A directive is written on a line of its own or in a block of its verb, with white space around its tokens, quotes around
some of them and a comment after them, and with blank lines before and after it. What a line holds is read back
(`Written.stripComment_eq`, `Row.words_eq`, `apply_eq`), so lines have the outcome of the directives that they write
down (`Layout.applyLines_eq`), and the layout of a text does not matter.
-/

namespace EditorAgent

namespace Text

/-! ## Comments -/

theorem isPrefixOf_slashes_iff {c : Char} {cs : List Char} :
    "//".toList.isPrefixOf (c :: cs) = true ↔ '/' = c ∧ '/' ∈ cs.head? := by
  rw [List.isPrefixOf_iff_prefix]
  cases cs <;> simp [eq_comm]

theorem contains_slashes_eq_false_iff {s : String} :
    contains s "//" = false ↔ s.toList.IsChain fun a b => ¬(a = '/' ∧ b = '/') := by
  rw [contains, Option.isSome_eq_false_iff, Option.isNone_iff_eq_none]
  generalize s.toList = cs
  induction cs with
  | nil => simp [cutChars]
  | cons c cs ih =>
    rw [List.isChain_cons, ← ih, cutChars]
    split
    · next h =>
      rw [isPrefixOf_slashes_iff] at h
      simp only [reduceCtorEq, false_iff, not_and]
      exact fun hall => (hall '/' h.2 h.1.symm rfl).elim
    · next h =>
      rw [isPrefixOf_slashes_iff] at h
      rw [Option.map_eq_none_iff, iff_and_self]
      intro _ d hd hand
      exact h ⟨hand.1.symm, hand.2 ▸ hd⟩

theorem isChain_of_cutChars_slashes {cs x y : List Char} (h : cutChars "//".toList cs = some (x, y)) :
    (x ++ ['/']).IsChain fun a b => ¬(a = '/' ∧ b = '/') := by
  induction cs generalizing x with
  | nil => simp [cutChars] at h
  | cons c cs ih =>
    rw [cutChars] at h
    split at h
    · obtain ⟨rfl, -⟩ := Prod.mk.inj (Option.some.inj h)
      exact List.isChain_singleton _
    · next hno =>
      rw [isPrefixOf_slashes_iff] at hno
      obtain ⟨⟨z, y⟩, hrest, heq⟩ := Option.map_eq_some_iff.mp h
      obtain ⟨rfl, rfl⟩ := Prod.mk.inj heq
      have hhead : (z ++ ['/']).head? = cs.head? := by
        rw [cutChars_eq hrest]
        cases z <;> rfl
      rw [List.cons_append, List.isChain_cons, hhead]
      refine ⟨fun d hd hand => hno ⟨hand.1.symm, ?_⟩, ih hrest⟩
      rwa [hand.2] at hd

/-- The text before the first two slashes has no two slashes, not even with the first of them. -/
theorem contains_slashes_of_cut? {s a b : String} (h : cut? s "//" = some (a, b)) :
    contains (a ++ "/") "//" = false := by
  obtain ⟨⟨x, y⟩, hcut, hab⟩ := Option.map_eq_some_iff.mp h
  obtain ⟨rfl, -⟩ := Prod.mk.inj hab
  rw [contains_slashes_eq_false_iff, String.toList_append, String.toList_ofList]
  exact isChain_of_cutChars_slashes hcut

/-- Two texts without a comment have none together if one ends or the other begins with something else. -/
theorem contains_slashes_append {s t : String} (hs : contains s "//" = false) (ht : contains t "//" = false)
    (h : (∀ c ∈ s.toList.getLast?, c ≠ '/') ∨ ∀ c ∈ t.toList.head?, c ≠ '/') : contains (s ++ t) "//" = false := by
  rw [contains_slashes_eq_false_iff] at hs ht ⊢
  rw [String.toList_append, List.isChain_append]
  refine ⟨hs, ht, fun c hc d hd hand => ?_⟩
  rcases h with h | h
  · exact h c hc hand.1
  · exact h d hd hand.2

theorem contains_slashes_of_not_mem {s : String} (h : '/' ∉ s.toList) : contains s "//" = false := by
  rw [contains_slashes_eq_false_iff]
  refine List.Pairwise.isChain (List.pairwise_of_forall_mem_list fun c hc d _ hand => ?_)
  exact h (hand.1 ▸ hc)

end Text

namespace Go.ModFile

/-! ## What is written -/

/-- What white space, quotes, comments and the brackets of blocks leave in one piece. -/
structure IsWord (s : String) : Prop where
  ne_empty : s ≠ ""
  chars : ∀ c ∈ s.toList, Text.isBlank c = false ∧ isQuote c = false
  slashes : Text.contains s "//" = false
  brackets : s ∉ ["(", ")"]

/-- A word other than an arrow. -/
def IsToken (s : String) : Prop := IsWord s ∧ s ≠ "=>"

instance (s : String) : Decidable (IsWord s) :=
  decidable_of_iff (s ≠ "" ∧ (s.toList.all fun c => !Text.isBlank c && !isQuote c) = true ∧
    Text.contains s "//" = false ∧ s ∉ ["(", ")"])
    ⟨fun ⟨hne, hchars, hslashes, hbrackets⟩ => ⟨hne, by simpa using hchars, hslashes, hbrackets⟩,
      fun h => ⟨h.ne_empty, by simpa using h.chars, h.slashes, h.brackets⟩⟩

instance (s : String) : Decidable (IsToken s) := inferInstanceAs (Decidable (_ ∧ _))

abbrev Token := { s : String // IsToken s }

def verbs : List String := ["module", "go", "require", "replace"]

inductive Directive where
  | module (path : Token)
  | go (version : Token)
  | require (tokens : List Token)
  /-- The tokens before the arrow, and those after it if there is one. -/
  | replace (old : List Token) (new : Option (List Token))
  | other (verb : Token) (unknown : verb.val ∉ verbs) (tokens : List Token)

namespace Directive

@[simp] def verb : Directive → String
  | .module _ => "module"
  | .go _ => "go"
  | .require _ => "require"
  | .replace _ _ => "replace"
  | .other verb _ _ => verb.val

/-- The words after the verb. -/
@[simp] def words : Directive → List String
  | .module path => [path.val]
  | .go version => [version.val]
  | .require tokens => tokens.map Subtype.val
  | .replace old none => old.map Subtype.val
  | .replace old (some new) => old.map Subtype.val ++ "=>" :: new.map Subtype.val
  | .other _ _ tokens => tokens.map Subtype.val

/-- A requirement of fewer than two tokens, or a replacement without an arrow or with none or more than two tokens on a
side of it. -/
def isMalformed : Directive → Bool
  | .require tokens => tokens.length < 2
  | .replace _ none => true
  | .replace old (some new) => old.length = 0 || 2 < old.length || new.length = 0 || 2 < new.length
  | _ => false

def module? : Directive → Option String
  | .module path => some path.val
  | _ => none

def go? : Directive → Option String
  | .go version => some version.val
  | _ => none

/-- A requirement has its path and its version first. -/
def require? : Directive → Option Require
  | .require (path :: version :: _) => some ⟨path.val, version.val⟩
  | _ => none

def replace? : Directive → Option Replace
  | .replace (old :: oldVersion) (some (new :: newVersion)) =>
    some ⟨old.val, oldVersion.head?.map Subtype.val, new.val, newVersion.head?.map Subtype.val⟩
  | _ => none

/-- A module file with the directive taken in. -/
def enter (m : ModFile) (d : Directive) : ModFile where
  module := d.module?.getD m.module
  go := d.go?.or m.go
  require := m.require ++ d.require?.toList
  replace := m.replace ++ d.replace?.toList

end Directive

/-! ## How it is written -/

/-- White space within a line. -/
def IsGap (s : String) : Prop := ∀ c ∈ s.toList, Text.isBlank c = true ∧ c ≠ '\n'

instance (s : String) : Decidable (IsGap s) := List.decidableBAll _ _

/-- A word as it is or in double quotes. -/
inductive Spelled (s : String) : String → Prop where
  | plain : Spelled s s
  | quoted : Spelled s ("\"" ++ s ++ "\"")

/-- Words with white space between them. -/
inductive Row : List String → String → Prop where
  | one {s w : String} (hw : Spelled s w) : Row [s] w
  | cons {s w row : String} {ss : List String} (hw : Spelled s w) (gap : String) (hgap : IsGap gap) (hne : gap ≠ "")
      (hrow : Row ss row) : Row (s :: ss) (w ++ gap ++ row)

/-- A verb and the words after it. -/
inductive Phrase (verb : String) : List String → String → Prop where
  | bare : Phrase verb [] verb
  | words {ss : List String} {row : String} (gap : String) (hgap : IsGap gap) (hne : gap ≠ "") (hrow : Row ss row) :
      Phrase verb ss (verb ++ gap ++ row)

/-- A line that holds a text and nothing else but white space around it and a comment at the end. The comment begins
at the first two slashes, or else one line would hold two texts: `v1///` is `v1` with a comment, and not `v1/`. -/
inductive Written (s : String) : String → Prop where
  | plain (before after : String) (hbefore : IsGap before) (hafter : IsGap after) : Written s (before ++ s ++ after)
  | commented (before after comment : String) (hbefore : IsGap before) (hafter : IsGap after)
      (hcomment : '\n' ∉ comment.toList) (hslash : after = "" → ∀ c ∈ s.toList.getLast?, c ≠ '/') :
      Written s (before ++ s ++ after ++ "//" ++ comment)

/-- Lines that write down directives, each with the number of its line. They begin with the line of a number, in the
block of a verb if one is open. -/
inductive Layout : Option String → Nat → List (Nat × Directive) → List String → Prop where
  | done {n : Nat} : Layout none n [] []
  | blank {block : Option String} {n : Nat} {ds : List (Nat × Directive)} {line : String} {lines : List String}
      (hline : Written "" line) (hrest : Layout block (n + 1) ds lines) : Layout block n ds (line :: lines)
  | single {n : Nat} {d : Directive} {ds : List (Nat × Directive)} {s line : String} {lines : List String}
      (hs : Phrase d.verb d.words s) (hline : Written s line) (hrest : Layout none (n + 1) ds lines) :
      Layout none n ((n, d) :: ds) (line :: lines)
  | opened {n : Nat} {ds : List (Nat × Directive)} {verb line : String} {lines : List String} (hverb : IsToken verb)
      (gap : String) (hgap : IsGap gap) (hne : gap ≠ "") (hline : Written (verb ++ gap ++ "(") line)
      (hrest : Layout (some verb) (n + 1) ds lines) : Layout none n ds (line :: lines)
  | entry {n : Nat} {d : Directive} {ds : List (Nat × Directive)} {row line : String} {lines : List String}
      (hrow : Row d.words row) (hline : Written row line) (hrest : Layout (some d.verb) (n + 1) ds lines) :
      Layout (some d.verb) n ((n, d) :: ds) (line :: lines)
  | closed {n : Nat} {ds : List (Nat × Directive)} {verb line : String} {lines : List String}
      (hline : Written ")" line) (hrest : Layout none (n + 1) ds lines) : Layout (some verb) n ds (line :: lines)

/-! ## Words -/

variable {s w gap row verb line : String} {ss : List String} {d : Directive} {n : Nat}

theorem isWord_words (d : Directive) : ∀ s ∈ d.words, IsWord s := by
  intro s h
  have htoken : ∀ tokens : List Token, s ∈ tokens.map Subtype.val → IsWord s := by
    intro tokens hs
    obtain ⟨t, -, rfl⟩ := List.mem_map.mp hs
    exact t.property.1
  cases d with
  | module path => exact htoken [path] h
  | go version => exact htoken [version] h
  | require tokens => exact htoken tokens h
  | replace old new =>
    cases new with
    | none => exact htoken old h
    | some new =>
      rcases List.mem_append.mp h with h | h
      · exact htoken old h
      · rcases List.mem_cons.mp h with rfl | h
        · decide
        · exact htoken new h
  | other verb _ tokens => exact htoken tokens h

theorem isWord_verb (d : Directive) : IsWord d.verb := by
  have hverbs : ∀ verb ∈ verbs, IsWord verb := by decide
  cases d with
  | other verb _ _ => exact verb.property.1
  | _ => exact hverbs _ (by simp [verbs])

theorem Spelled.notBlank (hw : Spelled s w) (hs : IsWord s) : ∀ c ∈ w.toList, Text.isBlank c = false := by
  intro c hc
  cases hw with
  | plain => exact (hs.chars c hc).1
  | quoted =>
    have hmem : c = '"' ∨ c ∈ s.toList := by simpa [or_comm, or_left_comm] using hc
    rcases hmem with rfl | hmem
    · rfl
    · exact (hs.chars c hmem).1

theorem Spelled.unquote_eq (hw : Spelled s w) (hs : IsWord s) : unquote w = s := by
  have hfirst : ∀ c ∈ s.toList.head?, isQuote c = false := fun c hc => (hs.chars c (List.mem_of_mem_head? hc)).2
  have hlast : ∀ c ∈ s.toList.getLast?, isQuote c = false := fun c hc => (hs.chars c (List.mem_of_getLast? hc)).2
  have htrim : ∀ quotes : List Char, (∀ c ∈ quotes, isQuote c = true) →
      Text.trimChars isQuote (quotes ++ s.toList ++ quotes) = s.toList := fun quotes hquotes =>
    Text.trimChars_around hquotes hquotes hfirst hlast
  cases hw with
  | plain => simpa [unquote] using congrArg String.ofList (htrim [] nofun)
  | quoted => simpa [unquote] using congrArg String.ofList (htrim ['"'] (List.forall_mem_singleton.mpr rfl))

theorem Spelled.ne_empty (hw : Spelled s w) (hs : IsWord s) : w ≠ "" := by
  cases hw with
  | plain => exact hs.ne_empty
  | quoted => simp

/-- A word that is spelled in front of white space, or of nothing, is read off. -/
theorem Spelled.words_append (hw : Spelled s w) (hs : IsWord s) {r : List Char}
    (hr : ∀ c ∈ r.head?, Text.isBlank c = true) :
    (Text.words (String.ofList (w.toList ++ r))).map unquote = s :: (Text.words (String.ofList r)).map unquote := by
  have hne : w.toList ≠ [] := by simpa using hw.ne_empty hs
  rw [Text.words_append (hw.notBlank hs) hr, if_neg hne, String.ofList_toList, List.singleton_append, List.map_cons,
    hw.unquote_eq hs]

theorem IsGap.exists_cons (h : IsGap gap) (hne : gap ≠ "") :
    ∃ c cs, gap.toList = c :: cs ∧ Text.isBlank c = true ∧ ∀ d ∈ cs, Text.isBlank d = true := by
  have hlist : gap.toList ≠ [] := by simpa using hne
  obtain ⟨c, cs, hcs⟩ := List.exists_cons_of_ne_nil hlist
  rw [IsGap, hcs] at h
  exact ⟨c, cs, hcs, (h c List.mem_cons_self).1, fun d hd => (h d (List.mem_cons_of_mem _ hd)).1⟩

/-- The words of a row are read back. -/
theorem Row.words_eq (h : Row ss row) (hss : ∀ s ∈ ss, IsWord s) : (Text.words row).map unquote = ss := by
  induction h with
  | @one s w hw =>
    have hone := @Spelled.words_append s w hw (hss s List.mem_cons_self) [] nofun
    rw [List.append_nil, String.ofList_toList] at hone
    exact hone
  | @cons s w row ss hw gap hgap hne hrow ih =>
    obtain ⟨c, cs, hcs, hc, hblank⟩ := hgap.exists_cons hne
    have hrest : Text.words (String.ofList (c :: (cs ++ row.toList))) = Text.words row := by
      rw [Text.words_cons_of_isBlank hc, Text.words_blanks_append hblank, String.ofList_toList]
    have hsplit : w ++ gap ++ row = String.ofList (w.toList ++ c :: (cs ++ row.toList)) :=
      String.toList_injective (by simp [hcs])
    have hhead : ∀ d ∈ (c :: (cs ++ row.toList)).head?, Text.isBlank d = true := by simpa using hc
    rw [hsplit, hw.words_append (hss s List.mem_cons_self) hhead, hrest,
      ih fun u hu => hss u (List.mem_cons_of_mem _ hu)]

/-! ## Lines -/

/-- What is neither changed by trimming nor cut by a comment, and does not end a line. -/
structure Neat (s : String) : Prop where
  first : ∀ c ∈ s.toList.head?, Text.isBlank c = false
  last : ∀ c ∈ s.toList.getLast?, Text.isBlank c = false
  slashes : Text.contains s "//" = false
  feed : '\n' ∉ s.toList

theorem neat_of_notBlank (h : ∀ c ∈ s.toList, Text.isBlank c = false) (hslashes : Text.contains s "//" = false) :
    Neat s where
  first c hc := h c (List.mem_of_mem_head? hc)
  last c hc := h c (List.mem_of_getLast? hc)
  slashes := hslashes
  feed hmem := Bool.noConfusion (h _ hmem)

theorem IsWord.neat (h : IsWord s) : Neat s := neat_of_notBlank (fun c hc => (h.chars c hc).1) h.slashes

theorem Spelled.neat (hw : Spelled s w) (hs : IsWord s) : Neat w := by
  refine neat_of_notBlank (hw.notBlank hs) ?_
  cases hw with
  | plain => exact hs.slashes
  | quoted =>
    have hopened : Text.contains ("\"" ++ s) "//" = false :=
      Text.contains_slashes_append (by decide) hs.slashes (.inl (by simp))
    exact Text.contains_slashes_append hopened (by decide) (.inr (by simp))

theorem IsGap.ne_slash (h : IsGap gap) : ∀ c ∈ gap.toList, c ≠ '/' := by
  rintro c hc rfl
  exact absurd (h _ hc).1 (by decide)

theorem IsGap.contains_slashes (h : IsGap gap) : Text.contains gap "//" = false :=
  Text.contains_slashes_of_not_mem fun hmem => h.ne_slash _ hmem rfl

theorem Neat.append {t : String} (hs : Neat s) (hsne : s ≠ "") (hgap : IsGap gap) (hne : gap ≠ "") (ht : Neat t)
    (htne : t ≠ "") : Neat (s ++ gap ++ t) where
  first := by
    rw [String.toList_append, String.toList_append, List.append_assoc,
      List.head?_append_of_ne_nil _ (by simpa using hsne)]
    exact hs.first
  last := by
    rw [String.toList_append, List.getLast?_append_of_ne_nil _ (by simpa using htne)]
    exact ht.last
  slashes := by
    have hbefore : Text.contains (s ++ gap) "//" = false :=
      Text.contains_slashes_append hs.slashes hgap.contains_slashes
        (.inr fun c hc => hgap.ne_slash c (List.mem_of_mem_head? hc))
    refine Text.contains_slashes_append hbefore ht.slashes (.inl fun c hc => ?_)
    rw [String.toList_append, List.getLast?_append_of_ne_nil _ (by simpa using hne)] at hc
    exact hgap.ne_slash c (List.mem_of_getLast? hc)
  feed := by
    have hgapfeed : '\n' ∉ gap.toList := fun hmem => (hgap _ hmem).2 rfl
    simp [hs.feed, hgapfeed, ht.feed]

theorem Row.neat (h : Row ss row) (hss : ∀ s ∈ ss, IsWord s) : row ≠ "" ∧ Neat row := by
  induction h with
  | @one s w hw =>
    have hs := hss s List.mem_cons_self
    exact ⟨hw.ne_empty hs, hw.neat hs⟩
  | @cons s w row ss hw gap hgap hne hrow ih =>
    have hs := hss s List.mem_cons_self
    obtain ⟨hrowne, hrowneat⟩ := ih fun u hu => hss u (List.mem_cons_of_mem _ hu)
    exact ⟨by simp [hne], (hw.neat hs).append (hw.ne_empty hs) hgap hne hrowneat hrowne⟩

/-- Neither bracket of a block is a row. -/
theorem Row.not_mem_brackets (h : Row ss row) (hss : ∀ s ∈ ss, IsWord s) : row ∉ ["(", ")"] := by
  intro hmem
  -- read back, a bracket would be a word of the row
  have hwords := h.words_eq hss
  have hself : (Text.words row).map unquote = [row] := by
    rcases List.mem_pair.mp hmem with rfl | rfl <;> decide
  obtain rfl : ss = [row] := hwords.symm.trans hself
  exact (hss row List.mem_cons_self).brackets hmem

theorem trim_around {before after : String} (hbefore : IsGap before) (hafter : IsGap after) (hs : Neat s) :
    Text.trim (before ++ s ++ after) = s := by
  rw [Text.trim, String.toList_append, String.toList_append, Text.trimChars_around (fun c hc => (hbefore c hc).1)
    (fun c hc => (hafter c hc).1) hs.first hs.last, String.ofList_toList]

theorem splitVerb_bare (hverb : IsWord verb) : splitVerb verb = (verb, "") := by
  have hletters : ∀ c ∈ verb.toList, (!Text.isBlank c) = true := fun c hc => by simp [(hverb.chars c hc).1]
  have htake : verb.toList.takeWhile (fun c => !Text.isBlank c) = verb.toList := List.takeWhile_eq_self_iff.mpr hletters
  have hdrop : verb.toList.dropWhile (fun c => !Text.isBlank c) = [] := List.dropWhile_eq_nil_iff.mpr hletters
  rw [splitVerb, htake, hdrop, String.ofList_toList]
  rfl

theorem splitVerb_append (hverb : IsWord verb) (hgap : IsGap gap) (hne : gap ≠ "") (hs : Neat s) :
    splitVerb (verb ++ gap ++ s) = (verb, s) := by
  have hletters : ∀ c ∈ verb.toList, (!Text.isBlank c) = true := fun c hc => by simp [(hverb.chars c hc).1]
  obtain ⟨c, cs, hcs, hc, hblank⟩ := hgap.exists_cons hne
  have htrim : Text.trimChars Text.isBlank (cs ++ s.toList) = s.toList := by
    rw [← List.append_nil (cs ++ s.toList)]
    exact Text.trimChars_around hblank nofun hs.first hs.last
  rw [splitVerb, String.toList_append, String.toList_append, List.append_assoc, hcs, List.cons_append,
    List.takeWhile_append_of_pos hletters, List.dropWhile_append_of_pos hletters]
  simp [hc, Text.trim, htrim]

/-- The words of a phrase stay together, and do not open a block. -/
theorem Phrase.splitVerb_eq (h : Phrase verb ss s) (hverb : IsWord verb) (hss : ∀ s ∈ ss, IsWord s) :
    ∃ args, splitVerb s = (verb, args) ∧ (Text.words args).map unquote = ss ∧ args ≠ "(" := by
  cases h with
  | bare => exact ⟨"", splitVerb_bare hverb, by decide, by decide⟩
  | @words _ row gap hgap hne hrow =>
    exact ⟨row, splitVerb_append hverb hgap hne (hrow.neat hss).2, hrow.words_eq hss,
      fun hopen => hrow.not_mem_brackets hss (by simp [hopen])⟩

theorem Phrase.neat (h : Phrase verb ss s) (hverb : IsWord verb) (hss : ∀ s ∈ ss, IsWord s) : s ≠ "" ∧ Neat s := by
  cases h with
  | bare => exact ⟨hverb.ne_empty, hverb.neat⟩
  | words gap hgap hne hrow =>
    obtain ⟨hrowne, hrowneat⟩ := hrow.neat hss
    exact ⟨by simp [hverb.ne_empty], hverb.neat.append hverb.ne_empty hgap hne hrowneat hrowne⟩

theorem neat_empty : Neat "" := neat_of_notBlank (by simp) (by decide)
theorem neat_open : Neat "(" := neat_of_notBlank (List.forall_mem_singleton.mpr rfl) (by decide)
theorem neat_close : Neat ")" := neat_of_notBlank (List.forall_mem_singleton.mpr rfl) (by decide)

theorem contains_slashes_around {before after : String} (hbefore : IsGap before) (hafter : IsGap after) (hs : Neat s) :
    Text.contains (before ++ s ++ after) "//" = false := by
  have hopened : Text.contains (before ++ s) "//" = false :=
    Text.contains_slashes_append hbefore.contains_slashes hs.slashes
      (.inl fun c hc => hbefore.ne_slash c (List.mem_of_getLast? hc))
  exact Text.contains_slashes_append hopened hafter.contains_slashes
    (.inr fun c hc => hafter.ne_slash c (List.mem_of_mem_head? hc))

theorem stripComment_of_contains_eq_false (h : Text.contains line "//" = false) :
    stripComment line = Text.trim line := by
  rw [Text.contains, Option.isSome_eq_false_iff, Option.isNone_iff_eq_none] at h
  rw [stripComment, Text.cut?, h]
  rfl

theorem stripComment_append (h : Text.contains (s ++ "/") "//" = false) (comment : String) :
    stripComment (s ++ "//" ++ comment) = Text.trim s := by
  rw [stripComment, Text.cut?_append (c := '/') (by decide) h]

/-- What a line holds is left when its comment is cut off. -/
theorem Written.stripComment_eq (h : Written s line) (hs : Neat s) : stripComment line = s := by
  cases h with
  | plain before after hbefore hafter =>
    rw [stripComment_of_contains_eq_false (contains_slashes_around hbefore hafter hs), trim_around hbefore hafter hs]
  | commented before after comment hbefore hafter hcomment hslash =>
    have hend : ∀ c ∈ (before ++ s ++ after).toList.getLast?, c ≠ '/' := by
      intro c hc
      rw [String.toList_append, String.toList_append] at hc
      by_cases hnone : after = ""
      · rw [hnone, String.toList_empty, List.append_nil] at hc
        by_cases hempty : s = ""
        · rw [hempty, String.toList_empty, List.append_nil] at hc
          exact hbefore.ne_slash c (List.mem_of_getLast? hc)
        · rw [List.getLast?_append_of_ne_nil _ (by simpa using hempty)] at hc
          exact hslash hnone c hc
      · rw [List.getLast?_append_of_ne_nil _ (by simpa using hnone)] at hc
        exact hafter.ne_slash c (List.mem_of_getLast? hc)
    have hslashes : Text.contains (before ++ s ++ after ++ "/") "//" = false :=
      Text.contains_slashes_append (contains_slashes_around hbefore hafter hs) (by decide) (.inl hend)
    rw [stripComment_append hslashes, trim_around hbefore hafter hs]

theorem Written.feed (h : Written s line) (hs : Neat s) : '\n' ∉ line.toList := by
  have hgap : ∀ {gap : String}, IsGap gap → '\n' ∉ gap.toList := fun hgap hmem => (hgap _ hmem).2 rfl
  cases h with
  | plain before after hbefore hafter => simp [hgap hbefore, hs.feed, hgap hafter]
  | commented before after comment hbefore hafter hcomment _ => simp [hgap hbefore, hs.feed, hgap hafter, hcomment]

/-! ## Directives -/

theorem replace?_words (old : List Token) (new : Option (List Token)) :
    ModFile.replace? (Directive.replace old new).words =
      if (Directive.replace old new).isMalformed then none else (Directive.replace old new).replace? := by
  have hold : ∀ s ∈ old.map Subtype.val, (s != "=>") = true := by
    intro s hs
    obtain ⟨t, -, rfl⟩ := List.mem_map.mp hs
    exact bne_iff_ne.mpr t.property.2
  cases new with
  | none =>
    have hnone : (old.map Subtype.val).contains "=>" = false := by
      rw [List.contains_eq_mem, decide_eq_false_iff_not]
      exact fun hmem => absurd (hold _ hmem) (by decide)
    rw [ModFile.replace?, Directive.words, hnone]
    rfl
  | some new =>
    have htake : (old.map Subtype.val ++ "=>" :: new.map Subtype.val).takeWhile (· != "=>") = old.map Subtype.val := by
      rw [List.takeWhile_append_of_pos hold, List.takeWhile_cons_of_neg (by decide), List.append_nil]
    have hdrop : (old.map Subtype.val ++ "=>" :: new.map Subtype.val).dropWhile (· != "=>") =
        "=>" :: new.map Subtype.val := by
      rw [List.dropWhile_append_of_pos hold, List.dropWhile_cons_of_neg (by decide)]
    rw [ModFile.replace?, Directive.words, htake, hdrop, if_pos (by simp)]
    cases old with
    | nil => rfl
    | cons o old =>
      cases new with
      | nil => simp [Directive.isMalformed]
      | cons t new =>
        have hcount : (decide ((old.map Subtype.val).length ≤ 1) && decide ((new.map Subtype.val).length ≤ 1)) =
            !(Directive.replace (o :: old) (some (t :: new))).isMalformed := by
          simp only [Directive.isMalformed, List.length_map, List.length_cons]
          grind
        simp only [List.map_cons, List.drop_succ_cons, List.drop_zero, hcount, List.head?_map]
        cases (Directive.replace (o :: old) (some (t :: new))).isMalformed <;> rfl

open Directive in
/-- A directive that is not malformed is taken in, and the line is named otherwise. -/
theorem apply_eq (m : ModFile) (d : Directive) (n : Nat) {args : String}
    (hargs : (Text.words args).map unquote = d.words) :
    apply m d.verb args n = if d.isMalformed then .error (.malformed n d.verb) else .ok (d.enter m) := by
  rw [enter]
  cases d with
  | module path => simp [apply, hargs, isMalformed, module?, go?, require?, Directive.replace?]
  | go version => simp [apply, hargs, isMalformed, module?, go?, require?, Directive.replace?]
  | require tokens =>
    rcases tokens with _ | ⟨path, _ | ⟨version, tokens⟩⟩ <;>
      simp [apply, hargs, isMalformed, module?, go?, require?, Directive.replace?]
  | replace old new =>
    have happly : apply m "replace" args n = (ModFile.replace? (Directive.replace old new).words).elim
        (.error (.malformed n "replace")) fun r => .ok { m with replace := m.replace ++ [r] } := by
      simp only [apply, hargs]
      cases ModFile.replace? (Directive.replace old new).words <;> rfl
    rw [Directive.verb, happly, replace?_words]
    rcases old with _ | ⟨o, old⟩
    · cases new <;> rfl
    · rcases new with _ | _ | ⟨t, new⟩
      · rfl
      · simp [isMalformed]
      · cases (Directive.replace (o :: old) (some (t :: new))).isMalformed <;>
          simp [module?, go?, require?, Directive.replace?]
  | other verb unknown tokens =>
    -- the rest is for the verbs that have a branch of their own
    rw [Directive.verb, apply]
    · simp [isMalformed, module?, go?, require?, Directive.replace?]
    all_goals
      intro hverb
      exact unknown (by simp [hverb, verbs])

/-- What becomes of a module file when directives are taken in, up to one that is malformed. -/
def outcome (m : ModFile) : List (Nat × Directive) → Except ModFileError ModFile
  | [] => .ok m
  | (n, d) :: ds => if d.isMalformed then .error (.malformed n d.verb) else outcome (d.enter m) ds

theorem applyLines_of_stripComment_eq_empty {block : Option String} {lines : List String} (h : stripComment line = "")
    (m : ModFile) : applyLines m block n (line :: lines) = applyLines m block (n + 1) lines := by
  cases block <;> rw [applyLines, h] <;> rfl

/-- Lines have the outcome of the directives that they write down. -/
theorem Layout.applyLines_eq {block : Option String} {ds : List (Nat × Directive)} {lines : List String}
    (h : Layout block n ds lines) (m : ModFile) : applyLines m block n lines = outcome m ds := by
  induction h generalizing m with
  | done => rfl
  | blank hline _ ih =>
    rw [applyLines_of_stripComment_eq_empty (hline.stripComment_eq neat_empty)]
    exact ih m
  | @single n d ds s line lines hs hline hrest ih =>
    obtain ⟨hne, hneat⟩ := hs.neat (isWord_verb d) (isWord_words d)
    obtain ⟨args, hsplit, hargs, hopen⟩ := hs.splitVerb_eq (isWord_verb d) (isWord_words d)
    rw [applyLines, hline.stripComment_eq hneat, outcome]
    simp only [hne, hsplit, hopen, if_false, apply_eq m d n hargs]
    by_cases hmalformed : d.isMalformed = true
    · rw [if_pos hmalformed, if_pos hmalformed]
    · rw [if_neg hmalformed, if_neg hmalformed]
      exact ih _
  | @opened n ds verb line lines hverb gap hgap hne hline hrest ih =>
    have hneat := hverb.1.neat.append hverb.1.ne_empty hgap hne neat_open (by decide)
    have hempty : verb ++ gap ++ "(" ≠ "" := by simp
    rw [applyLines, hline.stripComment_eq hneat]
    simp only [hempty, if_false, splitVerb_append hverb.1 hgap hne neat_open, if_true]
    exact ih m
  | @entry n d ds row line lines hrow hline hrest ih =>
    obtain ⟨hne, hneat⟩ := hrow.neat (isWord_words d)
    have hclose : row ≠ ")" := fun h => hrow.not_mem_brackets (isWord_words d) (by simp [h])
    rw [applyLines, hline.stripComment_eq hneat, outcome]
    simp only [hne, hclose, if_false, apply_eq m d n (hrow.words_eq (isWord_words d))]
    by_cases hmalformed : d.isMalformed = true
    · rw [if_pos hmalformed, if_pos hmalformed]
    · rw [if_neg hmalformed, if_neg hmalformed]
      exact ih _
  | closed hline _ ih =>
    rw [applyLines, hline.stripComment_eq neat_close]
    exact ih m

theorem Layout.feed {block : Option String} {ds : List (Nat × Directive)} {lines : List String}
    (h : Layout block n ds lines) : ∀ line ∈ lines, '\n' ∉ line.toList := by
  induction h with
  | done => nofun
  | blank hline _ ih => exact List.forall_mem_cons.mpr ⟨hline.feed neat_empty, ih⟩
  | @single n d ds s line lines hs hline hrest ih =>
    have hneat := (hs.neat (isWord_verb d) (isWord_words d)).2
    exact List.forall_mem_cons.mpr ⟨hline.feed hneat, ih⟩
  | @opened n ds verb line lines hverb gap hgap hne hline hrest ih =>
    have hneat := hverb.1.neat.append hverb.1.ne_empty hgap hne neat_open (by decide)
    exact List.forall_mem_cons.mpr ⟨hline.feed hneat, ih⟩
  | @entry n d ds row line lines hrow hline hrest ih =>
    have hneat := (hrow.neat (isWord_words d)).2
    exact List.forall_mem_cons.mpr ⟨hline.feed hneat, ih⟩
  | closed hline _ ih => exact List.forall_mem_cons.mpr ⟨hline.feed neat_close, ih⟩

/-! ## Texts -/

theorem stripComment_append_return (s : String) : stripComment (s ++ "\r") = stripComment s := by
  cases hcut : Text.cut? s "//" with
  | none =>
    have hnone : Text.contains s "//" = false := by simpa [Text.contains, Text.cut?] using hcut
    have hreturn : Text.contains (s ++ "\r") "//" = false :=
      Text.contains_slashes_append hnone (by decide) (.inr (by simp))
    have hblank : ∀ c ∈ "\r".toList, Text.isBlank c = true := List.forall_mem_singleton.mpr rfl
    rw [stripComment_of_contains_eq_false hreturn, stripComment_of_contains_eq_false hnone, Text.trim, Text.trim,
      String.toList_append, Text.trimChars_append hblank]
  | some parts =>
    obtain ⟨before, comment⟩ := parts
    have hfirst := Text.contains_slashes_of_cut? hcut
    have hreturn : before ++ "//" ++ comment ++ "\r" = before ++ "//" ++ (comment ++ "\r") := String.append_assoc
    rw [Text.cut?_eq hcut, hreturn, stripComment_append hfirst, stripComment_append hfirst]

theorem stripComment_chompReturn (cs : List Char) :
    stripComment (String.ofList (Text.chompReturn cs)) = stripComment (String.ofList cs) := by
  rcases List.eq_nil_or_concat' cs with rfl | ⟨cs, c, rfl⟩
  · rfl
  · by_cases hc : c = '\r'
    · subst hc
      have hchomp : Text.chompReturn (cs ++ ['\r']) = cs := by simp [Text.chompReturn]
      rw [hchomp, String.ofList_append]
      exact (stripComment_append_return _).symm
    · have hchomp : Text.chompReturn (cs ++ [c]) = cs ++ [c] := by simp [Text.chompReturn, hc]
      rw [hchomp]

theorem applyLines_congr {xs ys : List String} (h : xs.map stripComment = ys.map stripComment) (m : ModFile)
    (block : Option String) (n : Nat) : applyLines m block n xs = applyLines m block n ys := by
  induction xs generalizing ys m block n with
  | nil =>
    obtain rfl := List.map_eq_nil_iff.mp h.symm
    rfl
  | cons x xs ih =>
    cases ys with
    | nil => cases h
    | cons y ys =>
      obtain ⟨hfirst, hrest⟩ := List.cons.inj h
      cases block <;> simp only [applyLines, hfirst, ih hrest]

theorem applyLines_concat_empty (m : ModFile) (block : Option String) (n : Nat) (lines : List String) :
    applyLines m block n (lines ++ [""]) = applyLines m block n lines := by
  induction lines generalizing m block n with
  | nil => exact applyLines_of_stripComment_eq_empty (by decide) m
  | cons line lines ih => cases block <;> simp only [List.cons_append, applyLines, ih]

theorem lines_eq {s : String} {ended : List (List Char)} {last : List Char}
    (h : Text.splitChars (· == '\n') s.toList = ended ++ [last]) :
    Text.lines s = (ended.map Text.chompReturn ++ if last.isEmpty then [] else [last]).map String.ofList := by
  rw [Text.lines, h, List.reverse_concat]
  simp only [List.reverse_reverse]

/-- Carriage returns at the ends of lines and an empty last line do not matter. -/
theorem applyLines_lines (m : ModFile) (block : Option String) (n : Nat) (s : String) :
    applyLines m block n (Text.lines s) = applyLines m block n (Text.split (· == '\n') s) := by
  have hne : Text.splitChars (· == '\n') s.toList ≠ [] := by
    rw [Text.splitChars_eq_splitOnP]
    exact List.splitOnP_ne_nil _ _
  obtain ⟨ended, last, hparts⟩ := (List.eq_nil_or_concat' _).resolve_left hne
  have hchomp : ((ended.map Text.chompReturn).map String.ofList).map stripComment =
      (ended.map String.ofList).map stripComment := by
    simp [stripComment_chompReturn]
  rw [lines_eq hparts, Text.split, hparts, List.map_append, List.map_append]
  by_cases hlast : last = []
  · subst hlast
    have hempty : [([] : List Char)].map String.ofList = [""] := rfl
    rw [hempty, applyLines_concat_empty, if_pos List.isEmpty_nil, List.map_nil, List.append_nil]
    exact applyLines_congr hchomp m block n
  · rw [if_neg (by simpa using hlast)]
    refine applyLines_congr ?_ m block n
    rw [List.map_append, List.map_append, hchomp]

/-! ## Module files -/

theorem outcome_of_malformed {before after : List (Nat × Directive)} (hbefore : ∀ nd ∈ before, nd.2.isMalformed = false)
    (hd : d.isMalformed = true) (m : ModFile) :
    outcome m (before ++ (n, d) :: after) = .error (.malformed n d.verb) := by
  induction before generalizing m with
  | nil => rw [List.nil_append, outcome, if_pos hd]
  | cons nd before ih =>
    obtain ⟨hfirst, hrest⟩ := List.forall_mem_cons.mp hbefore
    rw [List.cons_append, outcome, if_neg (ne_true_of_eq_false hfirst)]
    exact ih hrest _

/-- Directives that are not malformed are all taken in, the last module and the last version of those there are. -/
theorem outcome_eq {ds : List (Nat × Directive)} (h : ∀ nd ∈ ds, nd.2.isMalformed = false) (m : ModFile) :
    outcome m ds = .ok {
      module := (ds.filterMap (·.2.module?)).getLastD m.module
      go := (ds.filterMap (·.2.go?)).getLast?.or m.go
      require := m.require ++ ds.filterMap (·.2.require?)
      replace := m.replace ++ ds.filterMap (·.2.replace?) } := by
  induction ds generalizing m with
  | nil => simp [outcome]
  | cons nd ds ih =>
    obtain ⟨hfirst, hrest⟩ := List.forall_mem_cons.mp h
    have hmodule : ((nd :: ds).filterMap (·.2.module?)).getLastD m.module =
        (ds.filterMap (·.2.module?)).getLastD (nd.2.module?.getD m.module) := by
      rw [List.filterMap_cons]
      cases nd.2.module? with
      | none => rfl
      | some path => exact List.getLastD_cons
    have hgo : ((nd :: ds).filterMap (·.2.go?)).getLast?.or m.go =
        (ds.filterMap (·.2.go?)).getLast?.or (nd.2.go?.or m.go) := by
      rw [List.filterMap_cons]
      cases nd.2.go? with
      | none => rfl
      | some version =>
        simp only [List.getLast?_cons]
        cases (ds.filterMap (·.2.go?)).getLast? <;> rfl
    have hrequire : m.require ++ (nd :: ds).filterMap (·.2.require?) =
        m.require ++ nd.2.require?.toList ++ ds.filterMap (·.2.require?) := by
      rw [List.filterMap_cons]
      cases nd.2.require? <;> simp
    have hreplace : m.replace ++ (nd :: ds).filterMap (·.2.replace?) =
        m.replace ++ nd.2.replace?.toList ++ ds.filterMap (·.2.replace?) := by
      rw [List.filterMap_cons]
      cases nd.2.replace? <;> simp
    rw [outcome, if_neg (ne_true_of_eq_false hfirst), ih hrest, hmodule, hgo, hrequire, hreplace]
    rfl

theorem Layout.parse_eq {ds : List (Nat × Directive)} {lines : List String} (h : Layout none 1 ds lines) :
    parse (Text.join "\n" lines) =
      (outcome {} ds).bind fun m => if m.module = "" then .error .noModule else .ok m := by
  have hlines : applyLines {} none 1 (Text.lines (Text.join "\n" lines)) = outcome {} ds := by
    rw [applyLines_lines]
    by_cases hnone : lines = []
    · subst hnone
      cases h
      decide
    · have hsplit : Text.split (· == '\n') (Text.join "\n" lines) = lines := Text.split_join h.feed hnone
      rw [hsplit]
      exact h.applyLines_eq {}
  rw [parse, hlines]
  cases outcome {} ds <;> rfl

theorem ne_empty_of_module? {path : String} (h : d.module? = some path) : path ≠ "" := by
  cases d with
  | module token =>
    obtain rfl := Option.some.inj h
    exact token.property.1.ne_empty
  | _ => cases h

theorem getLast?_eq_head? {vs : List String} (h : vs.length ≤ 1) : vs.getLast? = vs.head? := by
  rcases vs with _ | ⟨v, _ | ⟨w, vs⟩⟩
  · rfl
  · rfl
  · simp at h

/-- However directives are written down, they are read in their order: those of a module file with one module and at
most one version, and otherwise the error names the first line with a malformed requirement or replacement. -/
theorem parse_layout {ds : List (Nat × Directive)} {lines : List String} (h : Layout none 1 ds lines) :
    (∀ path, (∀ nd ∈ ds, nd.2.isMalformed = false) → ds.filterMap (·.2.module?) = [path] →
      (ds.filterMap (·.2.go?)).length ≤ 1 →
      parse (Text.join "\n" lines) = .ok {
        module := path
        go := (ds.filterMap (·.2.go?)).head?
        require := ds.filterMap (·.2.require?)
        replace := ds.filterMap (·.2.replace?) }) ∧
    ∀ n d, ds.find? (·.2.isMalformed) = some (n, d) →
      parse (Text.join "\n" lines) = .error (.malformed n d.verb) := by
  constructor
  · intro path hfine hmodule hgo
    have hmem : path ∈ ds.filterMap (·.2.module?) := hmodule ▸ List.mem_singleton_self path
    obtain ⟨nd, -, hnd⟩ := List.mem_filterMap.mp hmem
    have hpath : path ≠ "" := ne_empty_of_module? hnd
    rw [h.parse_eq, outcome_eq hfine, hmodule, getLast?_eq_head? hgo]
    simp only [Except.bind, List.getLastD_cons, List.getLastD_nil, Option.or_none, List.nil_append, hpath, if_false]
  · intro n d hfind
    obtain ⟨hd, before, after, hds, hbefore⟩ := List.find?_eq_some_iff_append.mp hfind
    rw [h.parse_eq, hds, outcome_of_malformed (by simpa using hbefore) hd]
    rfl

/-- Comments, a block, quotes and carriage returns, and a block with a requirement that has no version. -/
theorem parse_layout_blocks :
    parse "module a.b/c // here\n\nrequire (\n\tx v1.0.0\r\n\t\"y\" v2.0.0//z\n)\nreplace x => ../x\n" = .ok {
      module := "a.b/c"
      require := [⟨"x", "v1.0.0"⟩, ⟨"y", "v2.0.0"⟩]
      replace := [⟨"x", none, "../x", none⟩] } ∧
    parse "module a.b/c\nrequire (\n\tx v1.0.0\n\ty\n)" = .error (.malformed 4 "require") := by
  have hgap : IsGap "" ∧ IsGap " " ∧ IsGap "\t" ∧ IsGap "\r" := by decide
  obtain ⟨hnone, hspace, htab, hreturn⟩ := hgap
  have hplain {s : String} : Written s ("" ++ s ++ "") := .plain "" "" hnone hnone
  have hpair (s t : String) : Row [s, t] (s ++ " " ++ t) := .cons .plain " " hspace (by decide) (.one .plain)
  have hmodule : Phrase "module" ["a.b/c"] ("module" ++ " " ++ "a.b/c") := .words " " hspace (by decide) (.one .plain)
  constructor
  · have hquoted : Row ["y", "v2.0.0"] ("\"" ++ "y" ++ "\"" ++ " " ++ "v2.0.0") :=
      .cons .quoted " " hspace (by decide) (.one .plain)
    have hreplace : Phrase "replace" ["x", "=>", "../x"]
        ("replace" ++ " " ++ ("x" ++ " " ++ ("=>" ++ " " ++ "../x"))) :=
      .words " " hspace (by decide) (.cons .plain " " hspace (by decide) (hpair _ _))
    have hlayout := Layout.single (n := 1) (d := .module ⟨"a.b/c", by decide⟩) hmodule
        (.commented "" " " " here" hnone hspace (by decide) nofun) <|
      .blank hplain <| .opened (by decide : IsToken "require") " " hspace (by decide) hplain <|
      .entry (d := .require [⟨"x", by decide⟩, ⟨"v1.0.0", by decide⟩]) (hpair _ _) (.plain "\t" "\r" htab hreturn) <|
      .entry (d := .require [⟨"y", by decide⟩, ⟨"v2.0.0", by decide⟩]) hquoted
        (.commented "\t" "" "z" htab hnone (by decide) fun _ => by simp) <|
      .closed hplain <|
      .single (d := .replace [⟨"x", by decide⟩] (some [⟨"../x", by decide⟩])) hreplace hplain <| .blank hplain .done
    have hparse := (parse_layout hlayout).1 "a.b/c" (by decide) rfl (by decide)
    exact (congrArg parse (by decide)).trans hparse
  · have hlayout := Layout.single (n := 1) (d := .module ⟨"a.b/c", by decide⟩) hmodule hplain <|
      .opened (by decide : IsToken "require") " " hspace (by decide) hplain <|
      .entry (d := .require [⟨"x", by decide⟩, ⟨"v1.0.0", by decide⟩]) (hpair _ _) (.plain "\t" "" htab hnone) <|
      .entry (d := .require [⟨"y", by decide⟩]) (.one .plain) (.plain "\t" "" htab hnone) <| .closed hplain .done
    have hparse := (parse_layout hlayout).2 4 (.require [⟨"y", by decide⟩]) rfl
    exact (congrArg parse (by decide)).trans hparse

end Go.ModFile
end EditorAgent

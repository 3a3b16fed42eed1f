import EditorAgent.Go.Constraint

/-!
# The language of build constraints

A text is split into tokens, and a list of tokens is an expression if it derives from a grammar in which a conjunction
is made of single conditions and a disjunction of conjunctions. The texts that are read are just those of this language,
each as the one tree of its derivation; and a tree that is printed with parentheses around its operands is read back.

The two operators have readers of one form, a `Chain`. That what derives is read goes by induction on the derivation;
that what is read derives, by induction on the number of tokens, with the two chains above the conditions.
-/

namespace EditorAgent.Go.Constraint

/-! ## Tokens -/

/-- How a token is written. -/
def Tok.spelling : Tok → List Char
  | lparen => ['(']
  | rparen => [')']
  | not => ['!']
  | and => ['&', '&']
  | or => ['|', '|']
  | tag name => name.toList

/-- A text is split into tokens: blanks are skipped, and a tag goes on as long as it can. -/
inductive Splits : List Char → List Tok → Prop
  | nil : Splits [] []
  | blank {c : Char} {r : List Char} {toks : List Tok} (hc : c = ' ' ∨ c = '\t') (h : Splits r toks) :
    Splits (c :: r) toks
  | mark {t : Tok} {r : List Char} {toks : List Tok} (ht : ∀ name, t ≠ .tag name) (h : Splits r toks) :
    Splits (t.spelling ++ r) (t :: toks)
  | tag {w r : List Char} {toks : List Tok} (hw : w ≠ []) (hall : ∀ c ∈ w, isTagChar c = true)
      (hmax : ∀ c ∈ r.head?, isTagChar c = false) (h : Splits r toks) :
    Splits (w ++ r) (.tag (String.ofList w) :: toks)

section Lexing

variable {tag w r cs : List Char} {toks : List Tok} {c : Char} {t : Tok}

theorem isTagChar_blank (hc : c = ' ' ∨ c = '\t') : isTagChar c = false := by
  rcases hc with rfl | rfl <;> decide +kernel

theorem isTagChar_mark (ht : ∀ name, t ≠ .tag name) : ∀ c ∈ t.spelling, isTagChar c = false := by
  have hall : (t.spelling.all fun c => !isTagChar c) = true := by
    cases t with
    | tag name => exact absurd rfl (ht name)
    | lparen | rparen | not | and | or => decide +kernel
  simpa using hall

theorem length_spelling_pos (ht : ∀ name, t ≠ .tag name) : 0 < t.spelling.length := by
  cases t with
  | tag name => exact absurd rfl (ht name)
  | lparen | rparen | not | and | or => decide

theorem lexFrom_tagChar (hc : isTagChar c = true) (tag : List Char) :
    lexFrom tag (c :: r) = lexFrom (c :: tag) r := by
  rw [lexFrom.eq_def]
  exact if_pos hc

theorem lexFrom_append (hw : ∀ c ∈ w, isTagChar c = true) (tag : List Char) :
    lexFrom tag (w ++ r) = lexFrom (w.reverse ++ tag) r := by
  induction w generalizing tag with
  | nil => rfl
  | cons c w ih =>
    obtain ⟨hc, hw⟩ := List.forall_mem_cons.mp hw
    rw [List.cons_append, lexFrom_tagChar hc, ih hw, List.reverse_cons, List.append_assoc, List.singleton_append]

theorem map_pending_nil (o : Option (List Tok)) : o.map (lexFrom.pending [] ++ ·) = o := by
  cases o <;> rfl

/-- Where a tag ends it is the first token. -/
theorem lexFrom_of_head (hr : ∀ c ∈ r.head?, isTagChar c = false) (tag : List Char) :
    lexFrom tag r = (lexFrom [] r).map (lexFrom.pending tag ++ ·) := by
  cases r with
  | nil => simp [lexFrom, lexFrom.pending]
  | cons c r =>
    have hc : ¬ isTagChar c = true := by simp [hr c rfl]
    rw [lexFrom.eq_def, lexFrom.eq_def [] (c :: r)]
    simp only [if_neg hc, map_pending_nil]

theorem lexFrom_blank (hc : c = ' ' ∨ c = '\t') : lexFrom [] (c :: r) = lexFrom [] r := by
  have hchar := isTagChar_blank hc
  rcases hc with rfl | rfl <;> simp [lexFrom, hchar, map_pending_nil]

theorem lexFrom_mark (ht : ∀ name, t ≠ .tag name) : lexFrom [] (t.spelling ++ r) = (lexFrom [] r).map (t :: ·) := by
  have hc := isTagChar_mark ht
  cases t with
  | tag name => exact absurd rfl (ht name)
  | lparen | rparen | not | and | or =>
    simp only [Tok.spelling, List.cons_append, List.nil_append, List.mem_cons, List.not_mem_nil, or_false,
      forall_eq, or_self] at hc ⊢
    simp only [lexFrom, hc, Bool.false_eq_true, if_false, map_pending_nil]

theorem lexFrom_eq_some_of_splits (h : Splits cs toks) : lexFrom [] cs = some toks := by
  induction h with
  | nil => rfl
  | blank hc _ ih => rw [lexFrom_blank hc, ih]
  | mark ht _ ih => rw [lexFrom_mark ht, ih, Option.map_some]
  | tag hw hall hmax _ ih =>
    rw [lexFrom_append hall, lexFrom_of_head hmax, ih]
    simp [lexFrom.pending, hw]

/-- A text that is read is empty, or begins with a blank, a mark or a tag. -/
theorem exists_first_of_lexFrom (h : lexFrom [] (c :: r) = some toks) :
    isTagChar c = true ∨ (c = ' ' ∨ c = '\t') ∨
      ∃ t : Tok, (∀ name, t ≠ .tag name) ∧ ∃ u, c :: r = t.spelling ++ u := by
  by_cases hc : isTagChar c = true
  · exact .inl hc
  rw [lexFrom.eq_def] at h
  simp only [if_neg hc, map_pending_nil] at h
  split at h
  case h_1 | h_2 => simp
  case h_3 => exact .inr (.inr ⟨.lparen, nofun, r, rfl⟩)
  case h_4 => exact .inr (.inr ⟨.rparen, nofun, r, rfl⟩)
  case h_5 => exact .inr (.inr ⟨.not, nofun, r, rfl⟩)
  case h_6 =>
    split at h
    · exact .inr (.inr ⟨.and, nofun, _, rfl⟩)
    · cases h
  case h_7 =>
    split at h
    · exact .inr (.inr ⟨.or, nofun, _, rfl⟩)
    · cases h
  case h_8 => cases h

/-- A text is the longest tag that it begins with, and a rest. -/
theorem exists_run (cs : List Char) : ∃ w r, cs = w ++ r ∧ (∀ c ∈ w, isTagChar c = true) ∧
    ∀ c ∈ r.head?, isTagChar c = false := by
  refine ⟨cs.takeWhile isTagChar, cs.dropWhile isTagChar, List.takeWhile_append_dropWhile.symm,
    List.all_eq_true.mp List.all_takeWhile, fun c hc => ?_⟩
  have := List.head?_dropWhile_not isTagChar cs
  rwa [Option.mem_def.mp hc] at this

theorem splits_of_lexFrom (cs : List Char) (toks : List Tok) (h : lexFrom [] cs = some toks) : Splits cs toks := by
  match cs with
  | [] =>
    obtain rfl : [] = toks := Option.some.inj h
    exact .nil
  | c :: r =>
    obtain hc | hc | ⟨t, ht, u, hu⟩ := exists_first_of_lexFrom h
    · obtain ⟨w, u, hwu, hall, hmax⟩ := exists_run r
      have hall : ∀ d ∈ c :: w, isTagChar d = true := List.forall_mem_cons.mpr ⟨hc, hall⟩
      rw [hwu, ← List.cons_append] at h ⊢
      rw [lexFrom_append hall, lexFrom_of_head hmax] at h
      obtain ⟨rest, hrest, rfl⟩ := Option.map_eq_some_iff.mp h
      have := Splits.tag (List.cons_ne_nil c w) hall hmax (splits_of_lexFrom u rest hrest)
      simpa [lexFrom.pending] using this
    · rw [lexFrom_blank hc] at h
      exact .blank hc (splits_of_lexFrom r toks h)
    · rw [hu, lexFrom_mark ht] at h
      obtain ⟨rest, hrest, rfl⟩ := Option.map_eq_some_iff.mp h
      rw [hu]
      exact .mark ht (splits_of_lexFrom u rest hrest)
termination_by cs.length
decreasing_by
  · simp only [hwu, List.length_cons, List.length_append]
    omega
  · simp only [List.length_cons]
    omega
  · have hlength := congrArg List.length hu
    have hpos := length_spelling_pos ht
    rw [List.length_append] at hlength
    omega

/-- The tokens of a text are those it is split into. -/
theorem lex_eq_some_iff (s : String) (toks : List Tok) : lex s = some toks ↔ Splits s.toList toks :=
  ⟨splits_of_lexFrom _ _, lexFrom_eq_some_of_splits⟩

theorem splits_unique {toks' : List Tok} (h : Splits cs toks) (h' : Splits cs toks') : toks = toks' :=
  Option.some.inj ((lexFrom_eq_some_of_splits h).symm.trans (lexFrom_eq_some_of_splits h'))

end Lexing

/-! ## Derivations -/

/-- The three kinds of expression: alternatives, conditions that hold together, and a single condition. -/
inductive Level where
  | or
  | and
  | not

/-- The operands after the first, each after an operator. -/
def chained (op : Tok) (more : List (List Tok × Constraint)) : List Tok := more.flatMap fun p => op :: p.1

/-- A list of tokens is an expression of a kind, with the tree that associates to the left. -/
inductive Derives : Level → List Tok → Constraint → Prop
  | or {first : List Tok × Constraint} {more : List (List Tok × Constraint)} (hfirst : Derives .and first.1 first.2)
      (hmore : ∀ p ∈ more, Derives .and p.1 p.2) :
    Derives .or (first.1 ++ chained .or more) (more.foldl (fun x p => .or x p.2) first.2)
  | and {first : List Tok × Constraint} {more : List (List Tok × Constraint)} (hfirst : Derives .not first.1 first.2)
      (hmore : ∀ p ∈ more, Derives .not p.1 p.2) :
    Derives .and (first.1 ++ chained .and more) (more.foldl (fun x p => .and x p.2) first.2)
  | not {toks : List Tok} {x : Constraint} (h : Derives .not toks x) : Derives .not (.not :: toks) (.not x)
  | tag (name : String) : Derives .not [.tag name] (.tag name)
  | paren {toks : List Tok} {x : Constraint} (h : Derives .or toks x) :
    Derives .not (.lparen :: toks ++ [.rparen]) x

/-! ## Readers -/

/-- What a reader returns, without the bound on what it leaves. -/
def rests {P : List Tok → Prop} (o : Option (Constraint × { r : List Tok // P r })) : Option (Constraint × List Tok) :=
  o.map fun p => (p.1, p.2.1)

def readOr (s : List Tok) : Option (Constraint × List Tok) := rests (parseOr s)
def readOrs (x : Constraint) (s : List Tok) : Option (Constraint × List Tok) := rests (parseOrs x s)
def readAnd (s : List Tok) : Option (Constraint × List Tok) := rests (parseAnd s)
def readAnds (x : Constraint) (s : List Tok) : Option (Constraint × List Tok) := rests (parseAnds x s)
def readNot (s : List Tok) : Option (Constraint × List Tok) := rests (parseNot s)

/-- A reader of operands with operators between them, which joins what it reads from the left: `operands` reads
those after the first. -/
structure Chain (op : Tok) (join : Constraint → Constraint → Constraint)
    (operand reader : List Tok → Option (Constraint × List Tok))
    (operands : Constraint → List Tok → Option (Constraint × List Tok)) : Prop where
  first (s : List Tok) : reader s = (operand s).bind fun p => operands p.1 p.2
  next (x : Constraint) (s : List Tok) :
    operands x (op :: s) = (operand s).bind fun p => operands (join x p.1) p.2
  stop (x : Constraint) {s : List Tok} (hs : s.head? ≠ some op) : operands x s = some (x, s)

theorem chain_or : Chain .or .or readAnd readOr readOrs where
  first s := by
    rw [readOr, parseOr, readAnd]
    rcases parseAnd s with _ | ⟨x, r, hr⟩
    · rfl
    · cases h : parseOrs x r <;> simp [rests, readOrs, h]
  next x s := by
    rw [readOrs, parseOrs, readAnd]
    rcases parseAnd s with _ | ⟨y, r, hr⟩
    · rfl
    · cases h : parseOrs (.or x y) r <;> simp [rests, readOrs, h]
  stop x s hs := by
    rw [readOrs, parseOrs.eq_def]
    split
    · simp at hs
    · rfl

theorem chain_and : Chain .and .and readNot readAnd readAnds where
  first s := by
    rw [readAnd, parseAnd, readNot]
    rcases parseNot s with _ | ⟨x, r, hr⟩
    · rfl
    · cases h : parseAnds x r <;> simp [rests, readAnds, h]
  next x s := by
    rw [readAnds, parseAnds, readNot]
    rcases parseNot s with _ | ⟨y, r, hr⟩
    · rfl
    · cases h : parseAnds (.and x y) r <;> simp [rests, readAnds, h]
  stop x s hs := by
    rw [readAnds, parseAnds.eq_def]
    split
    · simp at hs
    · rfl

theorem readNot_not (s : List Tok) : readNot (.not :: s) = (readNot s).map fun p => (.not p.1, p.2) := by
  rw [readNot, parseNot, readNot]
  cases parseNot s <;> rfl

theorem readNot_lparen (s : List Tok) : readNot (.lparen :: s) = (readOr s).bind fun p =>
    if p.2.head? = some .rparen then some (p.1, p.2.tail) else none := by
  rw [readNot, parseNot, readOr]
  rcases parseOr s with _ | ⟨x, _ | ⟨t, r⟩, h⟩
  · rfl
  · rfl
  · cases t <;> rfl

theorem readNot_tag (name : String) (s : List Tok) : readNot (.tag name :: s) = some (.tag name, s) := by
  rw [readNot, parseNot]
  rfl

/-- An expression that is no operator applied to others begins with `!`, a parenthesis or a tag. -/
theorem exists_first_of_readNot {s r : List Tok} {x : Constraint} (h : readNot s = some (x, r)) :
    ∃ t u, s = t :: u ∧ (t = .not ∨ t = .lparen ∨ ∃ name, t = .tag name) := by
  rw [readNot, parseNot.eq_def] at h
  split at h
  · exact ⟨_, _, rfl, .inl rfl⟩
  · exact ⟨_, _, rfl, .inr (.inl rfl)⟩
  · exact ⟨_, _, rfl, .inr (.inr ⟨_, rfl⟩)⟩
  · cases h

section Chain

variable {op : Tok} {join : Constraint → Constraint → Constraint}
variable {operand reader : List Tok → Option (Constraint × List Tok)}
variable {operands : Constraint → List Tok → Option (Constraint × List Tok)}

/-- The operands after the first are read as far as they go, if each operand is; `Ends` says what ends one. -/
theorem Chain.operands_eq (h : Chain op join operand reader operands) {Ends : List Tok → Prop} {r : List Tok}
    (hop : ∀ s, Ends (op :: s)) (hr : Ends r) (hstop : r.head? ≠ some op) {more : List (List Tok × Constraint)}
    (hmore : ∀ p ∈ more, ∀ r, Ends r → operand (p.1 ++ r) = some (p.2, r)) (x : Constraint) :
    Ends (chained op more ++ r) ∧
      operands x (chained op more ++ r) = some (more.foldl (fun x p => join x p.2) x, r) := by
  induction more generalizing x with
  | nil => exact ⟨hr, h.stop x hstop⟩
  | cons p more ih =>
    obtain ⟨hp, hmore⟩ := List.forall_mem_cons.mp hmore
    obtain ⟨hends, hread⟩ := ih hmore (join x p.2)
    refine ⟨hop _, ?_⟩
    rw [chained, List.flatMap_cons, List.cons_append, List.cons_append, List.append_assoc, h.next,
      ← chained, hp _ hends]
    exact hread

theorem Chain.reader_eq (h : Chain op join operand reader operands) {Ends : List Tok → Prop} {r : List Tok}
    (hop : ∀ s, Ends (op :: s)) (hr : Ends r) (hstop : r.head? ≠ some op) {first : List Tok × Constraint}
    {more : List (List Tok × Constraint)} (hfirst : ∀ r, Ends r → operand (first.1 ++ r) = some (first.2, r))
    (hmore : ∀ p ∈ more, ∀ r, Ends r → operand (p.1 ++ r) = some (p.2, r)) :
    reader (first.1 ++ chained op more ++ r) = some (more.foldl (fun x p => join x p.2) first.2, r) := by
  obtain ⟨hends, hread⟩ := h.operands_eq hop hr hstop hmore first.2
  rw [List.append_assoc, h.first, hfirst _ hends]
  exact hread

/-- What is read after an operand is a chain, if what is read as an operand is one. -/
theorem Chain.exists_of_operands (h : Chain op join operand reader operands) {D : List Tok → Constraint → Prop}
    {n : Nat} (hoperand : ∀ {s x r}, s.length ≤ n → operand s = some (x, r) → ∃ used, s = used ++ r ∧ D used x)
    {x y : Constraint} {s r : List Tok} (hs : s.length ≤ n) (hread : operands x s = some (y, r)) :
    ∃ more : List (List Tok × Constraint), s = chained op more ++ r ∧
      y = more.foldl (fun x p => join x p.2) x ∧ ∀ p ∈ more, D p.1 p.2 := by
  induction hlen : s.length using Nat.strongRecOn generalizing x s with
  | _ k ih =>
  subst hlen
  by_cases hop : s.head? = some op
  · obtain ⟨s, rfl⟩ := List.head?_eq_some_iff.mp hop
    rw [h.next] at hread
    obtain ⟨⟨z, t⟩, hz, hrest⟩ := Option.bind_eq_some_iff.mp hread
    rw [List.length_cons] at hs ih
    obtain ⟨used, rfl, hused⟩ := hoperand (by omega) hz
    rw [List.length_append] at hs ih
    have ht : t.length ≤ n := by omega
    obtain ⟨more, rfl, rfl, hmore⟩ := ih t.length (by omega) ht hrest rfl
    exact ⟨(used, z) :: more, by simp [chained], rfl, List.forall_mem_cons.mpr ⟨hused, hmore⟩⟩
  · rw [h.stop x hop] at hread
    obtain ⟨rfl, rfl⟩ := Prod.mk.inj (Option.some.inj hread)
    exact ⟨[], rfl, rfl, nofun⟩

theorem Chain.exists_of_reader (h : Chain op join operand reader operands) {D : List Tok → Constraint → Prop}
    {n : Nat} (hoperand : ∀ {s x r}, s.length ≤ n → operand s = some (x, r) → ∃ used, s = used ++ r ∧ D used x)
    {x : Constraint} {s r : List Tok} (hs : s.length ≤ n) (hread : reader s = some (x, r)) :
    ∃ (first : List Tok × Constraint) (more : List (List Tok × Constraint)),
      s = first.1 ++ chained op more ++ r ∧ x = more.foldl (fun x p => join x p.2) first.2 ∧
      D first.1 first.2 ∧ ∀ p ∈ more, D p.1 p.2 := by
  rw [h.first] at hread
  obtain ⟨⟨y, t⟩, hy, hrest⟩ := Option.bind_eq_some_iff.mp hread
  obtain ⟨used, rfl, hused⟩ := hoperand hs hy
  rw [List.length_append] at hs
  have ht : t.length ≤ n := by omega
  obtain ⟨more, rfl, rfl, hmore⟩ := h.exists_of_operands hoperand ht hrest
  exact ⟨(used, y), more, (List.append_assoc ..).symm, rfl, hused, hmore⟩

end Chain

/-! ## What is read -/

variable {s used r : List Tok} {x y : Constraint}

/-- The reader of a kind of expression. -/
def Level.read : Level → List Tok → Option (Constraint × List Tok)
  | or => readOr
  | and => readAnd
  | not => readNot

/-- What an expression of a kind can be followed by, so as not to go on. -/
def Level.Ends : Level → List Tok → Prop
  | or, r => r.head? ≠ some .or ∧ r.head? ≠ some .and
  | and, r => r.head? ≠ some .and
  | not, _ => True

/-- An expression is read as far as it goes. -/
theorem read_of_derives {l : Level} (h : Derives l s x) : ∀ r, l.Ends r → l.read (s ++ r) = some (x, r) := by
  induction h with
  | or _ _ hfirst hmore =>
    exact fun r hr => chain_or.reader_eq (by simp [Level.Ends]) hr.2 hr.1 hfirst hmore
  | and _ _ hfirst hmore =>
    exact fun r hr => chain_and.reader_eq (fun _ => trivial) trivial hr hfirst hmore
  | @not toks x _ ih =>
    intro r hr
    have hread : readNot (toks ++ r) = some (x, r) := ih r hr
    rw [Level.read, List.cons_append, readNot_not, hread]
    rfl
  | tag name => exact fun r _ => readNot_tag name r
  | @paren toks x _ ih =>
    intro r _
    have hread : readOr (toks ++ .rparen :: r) = some (x, .rparen :: r) := ih (.rparen :: r) (by simp [Level.Ends])
    rw [Level.read, List.cons_append, List.cons_append, List.append_assoc, List.singleton_append, readNot_lparen,
      hread]
    rfl

/-- What is read as a single condition is one, if all that is read of fewer tokens is what it is read as. -/
theorem derives_of_readNot {n : Nat}
    (ih : ∀ (l : Level) {s x r}, s.length < n → l.read s = some (x, r) → ∃ used, s = used ++ r ∧ Derives l used x)
    (hs : s.length ≤ n) (h : readNot s = some (x, r)) : ∃ used, s = used ++ r ∧ Derives .not used x := by
  obtain ⟨t, u, rfl, rfl | rfl | ⟨name, rfl⟩⟩ := exists_first_of_readNot h
  · rw [readNot_not] at h
    obtain ⟨⟨y, t⟩, hy, heq⟩ := Option.map_eq_some_iff.mp h
    obtain ⟨rfl, rfl⟩ := Prod.mk.inj heq
    obtain ⟨used, rfl, hused⟩ := ih .not hs hy
    exact ⟨.not :: used, rfl, .not hused⟩
  · rw [readNot_lparen] at h
    obtain ⟨⟨y, t⟩, hy, h⟩ := Option.bind_eq_some_iff.mp h
    split at h
    · next hhead =>
      obtain ⟨rfl, rfl⟩ := Prod.mk.inj (Option.some.inj h)
      obtain ⟨t, rfl⟩ := List.head?_eq_some_iff.mp hhead
      obtain ⟨used, rfl, hused⟩ := ih .or hs hy
      exact ⟨.lparen :: used ++ [.rparen], by simp, .paren hused⟩
    · cases h
  · rw [readNot_tag] at h
    obtain ⟨rfl, rfl⟩ := Prod.mk.inj (Option.some.inj h)
    exact ⟨[.tag name], rfl, .tag name⟩

/-- What is read is an expression, and what it is followed by. -/
theorem derives_of_read (n : Nat) : ∀ (l : Level) {s x r}, s.length < n → l.read s = some (x, r) →
    ∃ used, s = used ++ r ∧ Derives l used x := by
  induction n with
  | zero => exact fun _ _ _ _ hs => absurd hs (Nat.not_lt_zero _)
  | succ n ih =>
    -- a condition is shorter inside, and each kind above it is a chain of the kind below
    have hnot {s x r} (hs : s.length ≤ n) (h : readNot s = some (x, r)) : ∃ used, s = used ++ r ∧ Derives .not used x :=
      derives_of_readNot ih hs h
    have hand {s x r} (hs : s.length ≤ n) (h : readAnd s = some (x, r)) :
        ∃ used, s = used ++ r ∧ Derives .and used x := by
      obtain ⟨first, more, rfl, rfl, hfirst, hmore⟩ := chain_and.exists_of_reader hnot hs h
      exact ⟨_, rfl, .and hfirst hmore⟩
    have hor {s x r} (hs : s.length ≤ n) (h : readOr s = some (x, r)) : ∃ used, s = used ++ r ∧ Derives .or used x := by
      obtain ⟨first, more, rfl, rfl, hfirst, hmore⟩ := chain_or.exists_of_reader hand hs h
      exact ⟨_, rfl, .or hfirst hmore⟩
    intro l s x r hs h
    cases l with
    | or => exact hor (Nat.le_of_lt_succ hs) h
    | and => exact hand (Nat.le_of_lt_succ hs) h
    | not => exact hnot (Nat.le_of_lt_succ hs) h

/-- An expression has one tree. -/
theorem derives_unique (hx : Derives .or s x) (hy : Derives .or s y) : x = y := by
  have hends : Level.or.Ends [] := by simp [Level.Ends]
  have h := (read_of_derives hx [] hends).symm.trans (read_of_derives hy [] hends)
  exact (Prod.mk.inj (Option.some.inj h)).1

theorem parse_eq_some_iff (s : String) (x : Constraint) :
    parse s = some x ↔ ∃ toks, Splits s.toList toks ∧ Derives .or toks x := by
  have hparse : parse s = some x ↔ ∃ toks, lex s = some toks ∧ readOr toks = some (x, []) := by
    rw [parse]
    cases lex s with
    | none => simp
    | some toks =>
      simp only [Option.some.injEq, exists_eq_left', readOr]
      rcases parseOr toks with _ | ⟨y, _ | ⟨t, r⟩, h⟩ <;> simp [rests]
  rw [hparse]
  constructor
  · rintro ⟨toks, hlex, hread⟩
    obtain ⟨used, rfl, hused⟩ := derives_of_read _ .or (Nat.lt_succ_self _) hread
    exact ⟨_, (lex_eq_some_iff _ _).mp hlex, by rwa [List.append_nil]⟩
  · rintro ⟨toks, hsplit, hderives⟩
    have hread := read_of_derives hderives [] (by simp [Level.Ends])
    rw [List.append_nil] at hread
    exact ⟨toks, (lex_eq_some_iff _ _).mpr hsplit, hread⟩

/-! ## Precedence -/

theorem eval_foldl_or (ok : String → Bool) (more : List (List Tok × Constraint)) (x : Constraint) :
    (more.foldl (fun x p => .or x p.2) x).eval ok = (x.eval ok || more.any fun p => p.2.eval ok) := by
  induction more generalizing x with
  | nil => simp
  | cons p more ih => rw [List.foldl_cons, ih, List.any_cons, eval, Bool.or_assoc]

theorem eval_foldl_and (ok : String → Bool) (more : List (List Tok × Constraint)) (x : Constraint) :
    (more.foldl (fun x p => .and x p.2) x).eval ok = (x.eval ok && more.all fun p => p.2.eval ok) := by
  induction more generalizing x with
  | nil => simp
  | cons p more ih => rw [List.foldl_cons, ih, List.all_cons, eval, Bool.and_assoc]

theorem intercalate_eq (op : Tok) (first : List Tok) (more : List (List Tok × Constraint)) :
    [op].intercalate (first :: more.map Prod.fst) = first ++ chained op more := by
  induction more generalizing first with
  | nil => simp [chained]
  | cons p more ih =>
    simp only [List.map_cons, List.intercalate_cons_cons, ih, chained, List.flatMap_cons]
    simp

/-- Conditions that hold together, with `&&` between them. -/
theorem exists_factors (h : Derives .and s x) : ∃ factors : List (List Tok × Constraint), factors ≠ [] ∧
    s = [.and].intercalate (factors.map Prod.fst) ∧ (∀ f ∈ factors, Derives .not f.1 f.2) ∧
    ∀ ok, x.eval ok = factors.all fun f => f.2.eval ok := by
  cases h with
  | @and first more hfirst hmore =>
    refine ⟨first :: more, List.cons_ne_nil _ _, ?_, List.forall_mem_cons.mpr ⟨hfirst, hmore⟩, fun ok => ?_⟩
    · rw [List.map_cons, intercalate_eq]
    · rw [eval_foldl_and, List.all_cons]

theorem exists_alternatives {l : List (List Tok × Constraint)} (h : ∀ p ∈ l, Derives .and p.1 p.2) :
    ∃ alternatives : List (List (List Tok × Constraint)),
      l.map Prod.fst = alternatives.map (fun a => [.and].intercalate (a.map Prod.fst)) ∧
      (∀ a ∈ alternatives, a ≠ [] ∧ ∀ f ∈ a, Derives .not f.1 f.2) ∧
      ∀ ok, (l.any fun p => p.2.eval ok) = alternatives.any fun a => a.all fun f => f.2.eval ok := by
  induction l with
  | nil => exact ⟨[], rfl, nofun, fun _ => rfl⟩
  | cons p l ih =>
    obtain ⟨hp, hl⟩ := List.forall_mem_cons.mp h
    obtain ⟨factors, hne, htoks, hfactors, heval⟩ := exists_factors hp
    obtain ⟨alternatives, hmap, hderives, hany⟩ := ih hl
    refine ⟨factors :: alternatives, ?_, List.forall_mem_cons.mpr ⟨⟨hne, hfactors⟩, hderives⟩, fun ok => ?_⟩
    · rw [List.map_cons, List.map_cons, hmap, htoks]
    · rw [List.any_cons, List.any_cons, hany, heval]

/-- `&&` binds more tightly than `||`: an expression is alternatives of conditions that hold together. -/
theorem exists_eval_eq_any_all (h : Derives .or s x) : ∃ alternatives : List (List (List Tok × Constraint)),
    alternatives ≠ [] ∧
    s = [.or].intercalate (alternatives.map fun a => [.and].intercalate (a.map Prod.fst)) ∧
    (∀ a ∈ alternatives, a ≠ [] ∧ ∀ f ∈ a, Derives .not f.1 f.2) ∧
    ∀ ok, x.eval ok = alternatives.any fun a => a.all fun f => f.2.eval ok := by
  cases h with
  | @or first more hfirst hmore =>
    obtain ⟨alternatives, hmap, hderives, hany⟩ := exists_alternatives (List.forall_mem_cons.mpr ⟨hfirst, hmore⟩)
    refine ⟨alternatives, ?_, ?_, hderives, fun ok => ?_⟩
    · rintro rfl
      cases hmap
    · rw [← hmap, List.map_cons, intercalate_eq]
    · rw [← hany, eval_foldl_or, List.any_cons]

/-- `!` binds more tightly than both: it negates the condition that follows it, and no more. -/
theorem exists_eval_eq_not (h : Derives .not (.not :: s) x) :
    ∃ y, Derives .not s y ∧ ∀ ok, x.eval ok = !y.eval ok := by
  cases h with
  | not h => exact ⟨_, h, fun _ => rfl⟩

/-! ## Printing -/

/-- An expression's text, with parentheses around every operand. -/
def text : Constraint → List Char
  | .tag name => name.toList
  | .not x => '!' :: '(' :: x.text ++ [')']
  | .and x y => '(' :: x.text ++ ") && (".toList ++ y.text ++ [')']
  | .or x y => '(' :: x.text ++ ") || (".toList ++ y.text ++ [')']

/-- All tags can be written. -/
def Spellable : Constraint → Prop
  | .tag name => name.toList ≠ [] ∧ name.toList.all isTagChar = true
  | .not x => x.Spellable
  | .and x y | .or x y => x.Spellable ∧ y.Spellable

/-- The tokens of an expression's text. -/
def toks : Constraint → List Tok
  | .tag name => [.tag name]
  | .not x => .not :: (.lparen :: x.toks ++ [.rparen])
  | .and x y => (.lparen :: x.toks ++ [.rparen]) ++ .and :: (.lparen :: y.toks ++ [.rparen])
  | .or x y => (.lparen :: x.toks ++ [.rparen]) ++ .or :: (.lparen :: y.toks ++ [.rparen])

theorem splits_text (h : x.Spellable) {r : List Char} {rest : List Tok} (hr : ∀ c ∈ r.head?, isTagChar c = false)
    (hrest : Splits r rest) : Splits (x.text ++ r) (x.toks ++ rest) := by
  -- an operand ends with its parenthesis, whatever follows it
  have operand {x : Constraint} {r : List Char} {rest : List Tok} (hrest : Splits r rest)
      (ih : ∀ {r rest}, (∀ c ∈ r.head?, isTagChar c = false) → Splits r rest → Splits (x.text ++ r) (x.toks ++ rest)) :
      Splits ('(' :: (x.text ++ ')' :: r)) (.lparen :: (x.toks ++ .rparen :: rest)) := by
    have hclose : ∀ c ∈ (')' :: r).head?, isTagChar c = false := by
      simpa using @isTagChar_mark .rparen nofun ')' (by simp [Tok.spelling])
    exact @Splits.mark .lparen _ _ nofun (ih hclose (@Splits.mark .rparen _ _ nofun hrest))
  induction x generalizing r rest with
  | tag name =>
    have := Splits.tag h.1 (List.all_eq_true.mp h.2) hr hrest
    rwa [String.ofList_toList] at this
  | not x ih =>
    have := @Splits.mark .not _ _ nofun (operand hrest fun hr hrest => ih h hr hrest)
    simpa [text, toks, Tok.spelling] using this
  | and x y ihx ihy =>
    have hy := operand hrest fun hr hrest => ihy h.2 hr hrest
    have hop := @Splits.mark .and _ _ nofun (.blank (.inl rfl) hy)
    have := operand (.blank (.inl rfl) hop) fun hr hrest => ihx h.1 hr hrest
    simpa [text, toks, Tok.spelling] using this
  | or x y ihx ihy =>
    have hy := operand hrest fun hr hrest => ihy h.2 hr hrest
    have hop := @Splits.mark .or _ _ nofun (.blank (.inl rfl) hy)
    have := operand (.blank (.inl rfl) hop) fun hr hrest => ihx h.1 hr hrest
    simpa [text, toks, Tok.spelling] using this

theorem Derives.and_of_not (h : Derives .not s x) : Derives .and s x := by
  simpa [chained] using @Derives.and (s, x) [] h nofun

theorem Derives.or_of_and (h : Derives .and s x) : Derives .or s x := by
  simpa [chained] using @Derives.or (s, x) [] h nofun

theorem derives_toks (x : Constraint) : Derives .or x.toks x := by
  induction x with
  | tag name => exact (Derives.tag name).and_of_not.or_of_and
  | not x ih => exact ih.paren.not.and_of_not.or_of_and
  | and x y ihx ihy =>
    have := @Derives.and (_, x) [(_, y)] ihx.paren (by simpa using ihy.paren)
    simpa [chained, toks] using this.or_of_and
  | or x y ihx ihy =>
    have := @Derives.or (_, x) [(_, y)] ihx.paren.and_of_not (by simpa using ihy.paren.and_of_not)
    simpa [chained, toks] using this

theorem parse_text (h : x.Spellable) : parse (String.ofList x.text) = some x := by
  refine (parse_eq_some_iff _ _).mpr ⟨x.toks, ?_, derives_toks x⟩
  rw [String.toList_ofList]
  simpa using @splits_text x h [] [] nofun .nil

/-- Constraints are read exactly: a text is read just if its tokens derive as an expression, and as the one tree of the
derivation. The tree is alternatives of conditions that hold together, `!` negates a single condition, and what is
printed is read back. -/
theorem parse_exact :
    (∀ s x, parse s = some x ↔ ∃ toks, Splits s.toList toks ∧ Derives .or toks x) ∧
    (∀ s toks toks', Splits s toks → Splits s toks' → toks = toks') ∧
    (∀ toks x y, Derives .or toks x → Derives .or toks y → x = y) ∧
    (∀ toks x, Derives .or toks x → ∃ alternatives : List (List (List Tok × Constraint)),
      alternatives ≠ [] ∧
      toks = [.or].intercalate (alternatives.map fun a => [.and].intercalate (a.map Prod.fst)) ∧
      (∀ a ∈ alternatives, a ≠ [] ∧ ∀ f ∈ a, Derives .not f.1 f.2) ∧
      ∀ ok, x.eval ok = alternatives.any fun a => a.all fun f => f.2.eval ok) ∧
    (∀ toks x, Derives .not (.not :: toks) x → ∃ y, Derives .not toks y ∧ ∀ ok, x.eval ok = !y.eval ok) ∧
    ∀ x : Constraint, x.Spellable → parse (String.ofList x.text) = some x :=
  ⟨parse_eq_some_iff, fun _ _ _ => splits_unique, fun _ _ _ => derives_unique, fun _ _ => exists_eval_eq_any_all,
    fun _ _ => exists_eval_eq_not, fun _ => parse_text⟩

theorem parse_exact_mixed :
    let x : Constraint := .or (.and (.not (.tag "a")) (.tag "b_1")) (.tag "c.d")
    parse "!a && b_1|| c.d" = some x ∧ x.Spellable ∧ parse (String.ofList x.text) = some x := by
  intro x
  have hlex : lex "!a && b_1|| c.d" = some [.not, .tag "a", .and, .tag "b_1", .or, .tag "c.d"] := by decide +kernel
  have hand := @Derives.and (_, _) [(_, _)] (.not (.tag "a")) (by simpa using .tag "b_1")
  have hor := @Derives.or (_, _) [(_, _)] hand (by simpa using (Derives.tag "c.d").and_of_not)
  have hspell : x.Spellable := by
    simp only [x, Spellable]
    decide +kernel
  exact ⟨(parse_exact.1 _ _).mpr ⟨_, (lex_eq_some_iff _ _).mp hlex, hor⟩, hspell, parse_exact.2.2.2.2.2 _ hspell⟩

end EditorAgent.Go.Constraint

import EditorAgent.Proofs.Codec.CborLookahead
import EditorAgent.Proofs.Codec.JsonReading
import EditorAgent.Proofs.Codec.MessagePackLookahead
import EditorAgent.Proofs.Codec.MessagePackReading
import EditorAgent.Proofs.Codec.Records

/-!
# Messages in a stream

A written message is read, and nothing that follows it; a message that is cut short is none.
-/

namespace EditorAgent

variable {α β : Type}

namespace Codec

/-- How a codec writes values; over lines matters to JSON only. -/
def format (c : Codec) (wide : Bool) : Format :=
  match c with
  | .json => Json.format wide
  | .cbor => Cbor.format
  | .msgpack => MessagePack.format

theorem faithful (c : Codec) (wide : Bool) : c.dialect.Faithful (c.format wide) := by
  cases c with
  | json => exact Json.faithful wide
  | cbor => exact Cbor.faithful
  | msgpack => exact MessagePack.faithful

/-- No reader looks ahead, and none reads a value from nothing. -/
theorem exists_local (c : Codec) : ∃ opens ok, c.dialect.Local opens ok ∧ ¬opens [] := by
  cases c with
  | json => exact ⟨_, _, Json.local_dialect, fun h => h rfl⟩
  | cbor => exact ⟨_, _, Cbor.local_dialect, fun h => h rfl⟩
  | msgpack => exact ⟨_, _, MessagePack.local_dialect, fun h => h rfl⟩

/-- A message in an output without what only ends it. -/
def body (c : Codec) (v : Value) : Bytes :=
  match c with
  | .json => Utf8.encode (Json.pretty v)
  | c => c.write v

/-- What ends a message in an output. -/
def closing : Codec → Bytes
  | .json => [0x0A]
  | _ => []

theorem writeFrame_eq (c : Codec) (v : Value) : c.writeFrame v = c.body v ++ c.closing := by
  cases c with
  | json => rfl
  | cbor => exact (List.append_nil _).symm
  | msgpack => exact (List.append_nil _).symm

theorem exists_place_body (c : Codec) (v : Value) : ∃ place, (c.format true).spell place v = c.body v := by
  cases c with
  | json => exact ⟨(0, false), (Json.encode_ofList _).symm⟩
  | cbor => exact ⟨(), rfl⟩
  | msgpack => exact ⟨(), rfl⟩

theorem exists_place_write (c : Codec) (v : Value) : ∃ place, (c.format false).spell place v = c.write v := by
  cases c with
  | json => exact ⟨(0, false), (Json.encode_ofList _).symm⟩
  | cbor => exact ⟨(), rfl⟩
  | msgpack => exact ⟨(), rfl⟩

/-- Bytes that are passed over before a message. -/
def Gap (c : Codec) (s : Bytes) : Prop :=
  match c with
  | .json => ∀ b ∈ s, isGap b = true
  | _ => s = []

theorem gap_closing (c : Codec) : c.Gap c.closing := by
  cases c with
  | json => exact fun b hb => by rw [List.mem_singleton.mp hb]; rfl
  | cbor => rfl
  | msgpack => rfl

theorem gap_nil (c : Codec) : c.Gap [] := by
  cases c with
  | json => exact nofun
  | cbor => rfl
  | msgpack => rfl

theorem ends_closing (c : Codec) (wide : Bool) (rest : Bytes) : (c.format wide).ends (c.closing ++ rest) := by
  cases c with
  | json => exact Json.ends_cons (by decide) rest
  | cbor => exact trivial
  | msgpack => exact trivial

theorem ends_nil (c : Codec) (wide : Bool) : (c.format wide).ends [] := by
  cases c with
  | json => exact nofun
  | cbor => exact trivial
  | msgpack => exact trivial

/-- Bytes that a table or a record may open with. -/
def Starts (c : Codec) (s : Bytes) : Prop :=
  match c with
  | .json => s.head? = some 0x7B
  | _ => s ≠ []

theorem starts_body (c : Codec) {n : Nat} {es : List (String × Value)}
    (hv : (Value.table es).Fits (c.format true).holds n) : c.Starts (c.body (.table es)) := by
  cases c with
  | json =>
    have hbody : Json.spell true 0 (.table es) = Utf8.encode (Json.pretty (.table es)) := (Json.encode_ofList _).symm
    have hspell := Json.spell_table true 0 es
    change (Utf8.encode (Json.pretty (.table es))).head? = _
    rw [← hbody, hspell]
    rfl
  | cbor => exact Cbor.write_ne_nil _
  | msgpack =>
    intro hnil
    have hmarker := MessagePack.marker_table hv []
    change MessagePack.write (.table es) = [] at hnil
    rw [hnil] at hmarker
    cases hmarker

theorem Starts.length_pos {c : Codec} {s : Bytes} (h : c.Starts s) : 0 < s.length := by
  cases s with
  | nil => cases c <;> exact absurd h (by simp [Starts])
  | cons b s => exact Nat.succ_pos _

theorem Starts.take {c : Codec} {s : Bytes} (h : c.Starts s) {k : Nat} (hk : 0 < k) : c.Starts (s.take k) := by
  obtain ⟨k, rfl⟩ : ∃ m, k = m + 1 := ⟨k - 1, by omega⟩
  cases s with
  | nil => cases c <;> first | cases h | exact absurd rfl h
  | cons b s =>
    cases c with
    | json => exact h
    | cbor => exact List.cons_ne_nil _ _
    | msgpack => exact List.cons_ne_nil _ _

theorem Starts.append {c : Codec} {s : Bytes} (h : c.Starts s) (rest : Bytes) : c.Starts (s ++ rest) := by
  cases c with
  | json =>
    cases s with
    | nil => cases h
    | cons b s => exact h
  | cbor => exact List.append_ne_nil_of_left_ne_nil h rest
  | msgpack => exact List.append_ne_nil_of_left_ne_nil h rest

/-- A reader that takes the same from any longer input, where a table or a record may open. -/
def Sure (c : Codec) (read : Reader α) : Prop :=
  ∀ ⦃depth s a r⦄, c.Starts s → read depth s = some (a, r) → ∀ q, read depth (s ++ q) = some (a, r ++ q)

theorem sure_of_local {opens : Bytes → Prop} {read : Reader α} (h : read.Local opens Anything) (c : Codec) :
    c.Sure read :=
  fun depth _ _ _ _ hread q => h.append depth hread trivial q

theorem Sure.map {c : Codec} {read : Reader α} (h : c.Sure read) (f : α → β) : c.Sure (read.map f) := by
  intro depth s b r hs hb q
  unfold Reader.map at hb ⊢
  split at hb
  · next ha =>
    cases hb
    rw [h hs ha q]
  · cases hb

theorem sure_value (c : Codec) : c.Sure c.dialect.value := by
  intro depth s v r hs h q
  cases c with
  | json => exact Json.value_append h (.inr hs) q
  | cbor => exact Cbor.local_dialect.value.append depth h trivial q
  | msgpack => exact MessagePack.local_dialect.value.append depth h trivial q

section Next

variable {c : Codec} {r : Dialect → Reader α} {gap s rest : Bytes}

theorem dropWhile_gap (hgap : ∀ b ∈ gap, isGap b = true) (hs : s.head? = some 0x7B) :
    (gap ++ s).dropWhile isGap = s := by
  cases s with
  | nil => cases hs
  | cons b s =>
    cases hs
    rw [List.dropWhile_append_of_pos hgap]
    rfl

/-- Past the gap, the next message is what the reader makes of the bytes. -/
theorem next_eq (hgap : c.Gap gap) (hs : c.Starts s) (failure : Option String) :
    c.next r ⟨gap ++ s, failure⟩ =
      (r c.dialect c.maxDepth s).elim c.reject fun x => .ok (some (x.1, ⟨x.2, failure⟩)) := by
  have hne : s.isEmpty = false := by
    simpa using List.length_pos_iff.mp hs.length_pos
  unfold next
  cases c with
  | json =>
    have hafter (rest : Bytes) : afterMessage s rest = rest := by
      cases s with
      | nil => cases hs
      | cons b s =>
        cases hs
        rfl
    dsimp only
    rw [dropWhile_gap hgap hs, hne]
    cases r json.dialect json.maxDepth s with
    | none => rfl
    | some x =>
      dsimp only
      rw [hafter]
      rfl
  | cbor =>
    subst hgap
    dsimp only
    rw [List.nil_append, hne]
    cases r cbor.dialect cbor.maxDepth s <;> rfl
  | msgpack =>
    subst hgap
    dsimp only
    rw [List.nil_append, hne]
    cases r msgpack.dialect msgpack.maxDepth s <;> rfl

theorem next_map (c : Codec) (r : Dialect → Reader α) (f : α → β) (i : Input) :
    c.next (fun d => (r d).map f) i = (c.next r i).map (Option.map fun x => (f x.1, x.2)) := by
  unfold next Reader.map
  cases c
  all_goals
    dsimp only
    split
    · cases i.failure <;> rfl
  · cases r json.dialect json.maxDepth (i.bytes.dropWhile isGap) <;> rfl
  · cases r cbor.dialect cbor.maxDepth i.bytes <;> rfl
  · cases r msgpack.dialect msgpack.maxDepth i.bytes <;> rfl

theorem next_of_gap (hgap : c.Gap gap) : c.next r ⟨gap, none⟩ = .ok none := by
  unfold next
  cases c with
  | json =>
    have hall : (gap ++ []).dropWhile isGap = [] := List.dropWhile_append_of_pos hgap
    dsimp only
    rw [← List.append_nil gap, hall]
    rfl
  | cbor =>
    subst hgap
    rfl
  | msgpack =>
    subst hgap
    rfl

variable {n : Nat} {es : List (String × Value)} {a : α}

theorem depth_lt (c : Codec) (hn : n < 128) : n < c.maxDepth := by
  cases c with
  | json => exact hn
  | cbor => exact Nat.lt_trans hn (by decide)
  | msgpack => exact Nat.lt_trans hn (by decide)

/-- A written message is read, and nothing that follows it. -/
theorem next_of_body (hr : (c.format true).Reads (r c.dialect) (.table es) a)
    (hv : (Value.table es).Fits (c.format true).holds n) (hn : n < 128) (hgap : c.Gap gap)
    (hrest : (c.format true).ends rest) (failure : Option String) :
    c.next r ⟨gap ++ (c.body (.table es) ++ rest), failure⟩ = .ok (some (a, ⟨rest, failure⟩)) := by
  obtain ⟨place, hplace⟩ := c.exists_place_body (.table es)
  have hread := hr hv (c.depth_lt hn) place rest hrest
  rw [hplace] at hread
  rw [next_eq hgap ((c.starts_body hv).append rest), hread]
  rfl

/-- A message that is cut short is none. -/
theorem next_of_cut (hl : c.Sure (r c.dialect)) (hr : (c.format true).Reads (r c.dialect) (.table es) a)
    (hv : (Value.table es).Fits (c.format true).holds n) (hn : n < 128) (hgap : c.Gap gap) {k : Nat} (hk : 0 < k)
    (hlt : k < (c.body (.table es)).length) (failure : Option String) :
    c.next r ⟨gap ++ (c.body (.table es)).take k, failure⟩ = c.reject := by
  obtain ⟨place, hplace⟩ := c.exists_place_body (.table es)
  have hread := hr hv (c.depth_lt hn) place [] (c.ends_nil true)
  rw [hplace, List.append_nil] at hread
  rw [next_eq hgap ((c.starts_body hv).take hk)]
  cases hcut : r c.dialect c.maxDepth ((c.body (.table es)).take k) with
  | none => rfl
  | some x =>
    -- What was taken would be taken from the whole message, too, and something would be left of it.
    have hwhole := hl ((c.starts_body hv).take hk) hcut ((c.body (.table es)).drop k)
    rw [List.take_append_drop, hread] at hwhole
    have hnil : x.2 ++ (c.body (.table es)).drop k = [] := (congrArg Prod.snd (Option.some.inj hwhole)).symm
    have hdrop := List.drop_eq_nil_iff.mp (List.append_eq_nil_iff.mp hnil).2
    omega

end Next

end Codec

namespace Codec

/-- What a codec makes of a value that it passes on. -/
def normal (c : Codec) (v : Value) : Value :=
  match c with
  | .json => Json.normal v
  | _ => v

theorem passedOn_eq (c : Codec) (wide : Bool) (v : Value) : (c.format wide).passedOn v = c.write (c.normal v) := by
  cases c <;> rfl

end Codec

namespace Request

/-- The request that an agent gets from a client: data and properties are passed on as they are written. -/
def Client.received (c : Codec) (q : Client) : Request :=
  ⟨q.cookie, q.action, ⟨c, ((sent q.data).map fun v => c.write (c.normal v)).getD []⟩,
    (sent q.props).map fun v => ⟨c, c.write (c.normal v)⟩⟩

theorem ofFrame_frame (c : Codec) (q : Client) : ofFrame c (q.frame (c.format true)) = q.received c := by
  have hpassed : (c.format true).passedOn = fun v => c.write (c.normal v) := funext (c.passedOn_eq true)
  rw [Client.frame, hpassed, ofFrame, Option.map_map]
  rfl

end Request

end EditorAgent

import EditorAgent.Proofs.Codec.Framing

/-!
# Streams of messages

Messages that are written one after another are read one after another, and a stream that is cut inside a message
is an error there.
-/

namespace EditorAgent

/-- A message that is written as a table, with what stands for a request. -/
inductive Parcel (ρ : Type) where
  | state (s : State)
  | view (v : View)
  | runCmd (c : RunCmd)
  | completion (c : Completion)
  | issue (i : Issue)
  | tooltip (t : Tooltip)
  | userCmd (c : UserCmd)
  | config (c : EditorConfig)
  | env (e : Env)
  | object (v : Value)
  | request (r : ρ)

/-- What a message is read as. -/
inductive Kind where
  | state
  | view
  | runCmd
  | completion
  | issue
  | tooltip
  | userCmd
  | config
  | env
  | object
  | request

namespace Kind

def reader (c : Codec) (d : Dialect) : Kind → Reader (Parcel Request)
  | .state => (State.reader d).map .state
  | .view => (View.reader d).map .view
  | .runCmd => (RunCmd.reader d).map .runCmd
  | .completion => (Completion.reader d).map .completion
  | .issue => (Issue.reader d).map .issue
  | .tooltip => (Tooltip.reader d).map .tooltip
  | .userCmd => (UserCmd.reader d).map .userCmd
  | .config => (EditorConfig.reader d).map .config
  | .env => (Env.reader d).map .env
  | .object => d.value.map .object
  | .request => (Request.frameReader d).map fun f => .request (Request.ofFrame c f)

/-- Reads the next message of an input. -/
def next (c : Codec) (k : Kind) (i : Input) : Except CodecError (Option (Parcel Request × Input)) :=
  c.next (fun d => k.reader c d) i

/-- A request is read as such. -/
theorem next_request (c : Codec) (i : Input) :
    Kind.request.next c i = (Request.next c i).map (Option.map fun x => (.request x.1, x.2)) := by
  have hmap := c.next_map Request.frameReader (fun f => (Parcel.request (Request.ofFrame c f) : Parcel Request)) i
  refine hmap.trans ?_
  unfold Request.next
  cases c.next Request.frameReader i with
  | error e => rfl
  | ok x => cases x <;> rfl

theorem sure_reader (c : Codec) (k : Kind) : c.Sure (k.reader c c.dialect) := by
  obtain ⟨opens, ok, hl, -⟩ := c.exists_local
  cases k with
  | state => exact (c.sure_of_local (State.reader_local hl)).map _
  | view => exact (c.sure_of_local (View.reader_local hl)).map _
  | runCmd => exact (c.sure_of_local (RunCmd.reader_local hl)).map _
  | completion => exact (c.sure_of_local (Completion.reader_local hl)).map _
  | issue => exact (c.sure_of_local (Issue.reader_local hl)).map _
  | tooltip => exact (c.sure_of_local (Tooltip.reader_local hl)).map _
  | userCmd => exact (c.sure_of_local (UserCmd.reader_local hl)).map _
  | config => exact (c.sure_of_local (EditorConfig.reader_local hl)).map _
  | env => exact (c.sure_of_local (Env.reader_local hl)).map _
  | object => exact c.sure_value.map _
  | request => exact (c.sure_of_local (Request.frameReader_local hl)).map _

end Kind

namespace Parcel

variable {ρ : Type}

def kind : Parcel ρ → Kind
  | .state _ => .state
  | .view _ => .view
  | .runCmd _ => .runCmd
  | .completion _ => .completion
  | .issue _ => .issue
  | .tooltip _ => .tooltip
  | .userCmd _ => .userCmd
  | .config _ => .config
  | .env _ => .env
  | .object _ => .object
  | .request _ => .request

def value : Parcel Request.Client → Value
  | .state s => s.toValue
  | .view v => v.toValue
  | .runCmd c => c.toValue
  | .completion c => c.toValue
  | .issue i => i.toValue
  | .tooltip t => t.toValue
  | .userCmd c => c.toValue
  | .config c => c.toValue
  | .env e => e.toValue
  | .object v => v
  | .request q => q.value

/-- What arrives of a message: the same, and of a request what a codec makes of it. -/
def received (c : Codec) : Parcel Request.Client → Parcel Request
  | .state s => .state s
  | .view v => .view v
  | .runCmd x => .runCmd x
  | .completion x => .completion x
  | .issue i => .issue i
  | .tooltip t => .tooltip t
  | .userCmd x => .userCmd x
  | .config x => .config x
  | .env e => .env e
  | .object v => .object v
  | .request q => .request (q.received c)

/-- What a message needs for being read on its own. -/
def Readable (F : Format) : Parcel Request.Client → Prop
  | .state s => s.Readable F
  | .view v => F.buffers v.src.length
  | .config x => x.settings.IsJson fun k => F.buffers (Utf8.encode k).length
  | .env e => e.Sorted
  | .object v => (∃ es, v = .table es) ∧ v.IsJson fun k => F.buffers (Utf8.encode k).length
  | .request q => q.Definite
  | _ => True

variable {c : Codec} {m : Parcel Request.Client}

theorem exists_table (h : m.Readable (c.format true)) : ∃ es, m.value = .table es := by
  cases m with
  | object v => exact h.1
  | _ => exact ⟨_, rfl⟩

theorem reads (h : m.Readable (c.format true)) :
    (c.format true).Reads (m.kind.reader c c.dialect) m.value (m.received c) := by
  have hd := c.faithful true
  cases m with
  | state s => exact (State.reads hd h).map _
  | view v => exact (View.reads hd h).map _
  | runCmd x => exact (RunCmd.reads hd x).map _
  | completion x => exact (Completion.reads hd x).map _
  | issue i => exact (Issue.reads hd i).map _
  | tooltip t => exact (Tooltip.reads hd t).map _
  | userCmd x => exact (UserCmd.reads hd x).map _
  | config x => exact (EditorConfig.reads hd h).map _
  | env e => exact (Env.reads hd h).map _
  | object v => exact (hd.value h.2).map _
  | request q =>
    rw [received, ← Request.ofFrame_frame]
    exact (Request.reads_frame hd h).map _

/-- A message as it is written. -/
def frame (c : Codec) (m : Parcel Request.Client) : Bytes := c.writeFrame m.value

/-- A message that can be written, and read on its own. -/
structure Sendable (c : Codec) (m : Parcel Request.Client) : Prop where
  readable : m.Readable (c.format true)
  fits : ∃ n < 128, m.value.Fits (c.format true).holds n

theorem next_of_sendable (h : m.Sendable c) {gap rest : Bytes} (hgap : c.Gap gap)
    (hrest : (c.format true).ends rest) :
    m.kind.next c ⟨gap ++ (c.body m.value ++ rest), none⟩ = .ok (some (m.received c, ⟨rest, none⟩)) := by
  obtain ⟨n, hn, hfits⟩ := h.fits
  have hread := reads h.readable
  obtain ⟨es, hes⟩ := exists_table h.readable
  rw [hes] at hfits hread ⊢
  exact c.next_of_body hread hfits hn hgap hrest none

theorem next_of_cut (h : m.Sendable c) {gap : Bytes} (hgap : c.Gap gap) {k : Nat} (hk : 0 < k)
    (hlt : k < (c.body m.value).length) : m.kind.next c ⟨gap ++ (c.body m.value).take k, none⟩ = c.reject := by
  obtain ⟨n, hn, hfits⟩ := h.fits
  have hread := reads h.readable
  obtain ⟨es, hes⟩ := exists_table h.readable
  rw [hes] at hfits hread hlt ⊢
  exact c.next_of_cut (m.kind.sure_reader c) hread hfits hn hgap hk hlt none

end Parcel

/-- Reads messages of these kinds, one after another; also what is left of the input, if it has not ended or failed
before that. -/
def receive (c : Codec) : List Kind → Input → List (Parcel Request) × Except CodecError (Option Input)
  | [], i => ([], .ok (some i))
  | k :: ks, i =>
    match k.next c i with
    | .ok (some (m, i)) => (m :: (receive c ks i).1, (receive c ks i).2)
    | .ok none => ([], .ok none)
    | .error e => ([], .error e)

section Streams

open Parcel

variable {c : Codec}

theorem receive_cons {k : Kind} {i i' : Input} {m : Parcel Request} (h : k.next c i = .ok (some (m, i')))
    (ks : List Kind) : receive c (k :: ks) i = (m :: (receive c ks i').1, (receive c ks i').2) := by
  rw [receive, h]

theorem receive_end {gap : Bytes} (hgap : c.Gap gap) (k : Kind) (ks : List Kind) :
    receive c (k :: ks) ⟨gap, none⟩ = ([], .ok none) := by
  rw [receive, Kind.next, c.next_of_gap hgap]

/-- Messages are taken off the front of a stream. -/
theorem receive_append {ms : List (Parcel Request.Client)} (h : ∀ m ∈ ms, m.Sendable c) {gap : Bytes}
    (hgap : c.Gap gap) (ks : List Kind) (rest : Bytes) : ∃ gap', c.Gap gap' ∧
      receive c (ms.map kind ++ ks) ⟨gap ++ (ms.flatMap (frame c) ++ rest), none⟩ =
        (ms.map (received c) ++ (receive c ks ⟨gap' ++ rest, none⟩).1, (receive c ks ⟨gap' ++ rest, none⟩).2) := by
  induction ms generalizing gap with
  | nil => exact ⟨gap, hgap, rfl⟩
  | cons m ms ih =>
    obtain ⟨gap', hgap', htail⟩ := ih (fun m hm => h m (List.mem_cons_of_mem _ hm)) c.gap_closing
    have hnext := next_of_sendable (h m List.mem_cons_self) hgap
      (c.ends_closing true (ms.flatMap (frame c) ++ rest))
    refine ⟨gap', hgap', ?_⟩
    rw [List.flatMap_cons, frame, c.writeFrame_eq, List.append_assoc, List.append_assoc, List.map_cons,
      List.cons_append, receive_cons hnext, htail]
    rfl

theorem take_stream {done : List (Parcel Request.Client)} {m : Parcel Request.Client} {k : Nat}
    (hk : k ≤ (c.body m.value).length) (later : List (Parcel Request.Client)) :
    ((done ++ m :: later).flatMap (frame c)).take ((done.flatMap (frame c)).length + k) =
      done.flatMap (frame c) ++ (c.body m.value).take k := by
  rw [List.flatMap_append, List.take_length_add_append, List.flatMap_cons, frame, c.writeFrame_eq, List.append_assoc,
    List.take_append_of_le_length hk]

section Cut

variable {done later : List (Parcel Request.Client)} {m : Parcel Request.Client} (h : ∀ x ∈ done, x.Sendable c)
  (hm : m.Sendable c) (k : Kind)

include h hm

/-- Cut inside a message, a stream gives the messages before it. -/
theorem receive_of_cut {n : Nat} (hn : 0 < n) (hlt : n < (c.body m.value).length) :
    receive c ((done ++ m :: later).map kind ++ [k])
      ⟨((done ++ m :: later).flatMap (frame c)).take ((done.flatMap (frame c)).length + n), none⟩ =
        (done.map (received c), c.reject) := by
  obtain ⟨gap, hgap, hreceive⟩ := receive_append h c.gap_nil (m.kind :: (later.map kind ++ [k]))
    ((c.body m.value).take n)
  rw [List.map_append, List.map_cons, List.append_assoc, List.cons_append, take_stream (by omega)]
  refine hreceive.trans ?_
  rw [receive, next_of_cut hm hgap hn hlt]
  simp [Codec.reject]

/-- Cut behind the text of a message, a stream gives this message, too, and is over. -/
theorem receive_of_body : receive c ((done ++ m :: later).map kind ++ [k])
    ⟨((done ++ m :: later).flatMap (frame c)).take ((done.flatMap (frame c)).length + (c.body m.value).length), none⟩ =
      ((done ++ [m]).map (received c), .ok none) := by
  obtain ⟨gap, hgap, hreceive⟩ := receive_append h c.gap_nil (m.kind :: (later.map kind ++ [k])) (c.body m.value)
  have hnext := next_of_sendable hm hgap (c.ends_nil true)
  have hstop : receive c (later.map kind ++ [k]) ⟨[], none⟩ = ([], .ok none) := by
    cases later with
    | nil => exact receive_end c.gap_nil k []
    | cons x later => exact receive_end c.gap_nil x.kind _
  rw [List.map_append, List.map_cons, List.append_assoc, List.cons_append, take_stream (Nat.le_refl _),
    List.take_length]
  refine hreceive.trans ?_
  rw [List.append_nil] at hnext
  rw [receive_cons hnext, hstop, List.map_append]
  rfl

end Cut

/-- Messages that are written one after another are read in order, and then the stream ends. If the stream is cut
inside a message, the messages before it are read, and then there is an error. What only ends a message, the line feed
of JSON, does not belong to it: cut before that, the stream is over without an error. -/
theorem receive_of_sent {ms : List (Parcel Request.Client)} (h : ∀ m ∈ ms, m.Sendable c) (k : Kind) :
    receive c (ms.map kind ++ [k]) ⟨ms.flatMap (frame c), none⟩ = (ms.map (received c), .ok none) ∧
    ∀ done m later, ms = done ++ m :: later → ∀ n, 0 < n →
      (n + c.closing.length < (m.frame c).length →
        receive c (ms.map kind ++ [k]) ⟨(ms.flatMap (frame c)).take ((done.flatMap (frame c)).length + n), none⟩ =
          (done.map (received c), c.reject)) ∧
      (n + c.closing.length = (m.frame c).length →
        receive c (ms.map kind ++ [k]) ⟨(ms.flatMap (frame c)).take ((done.flatMap (frame c)).length + n), none⟩ =
          ((done ++ [m]).map (received c), .ok none)) := by
  constructor
  · obtain ⟨gap, hgap, hreceive⟩ := receive_append h c.gap_nil [k] []
    rw [List.append_nil, List.append_nil, receive_end hgap, List.append_nil] at hreceive
    exact hreceive
  · rintro done m later rfl n hn
    have hm : m.Sendable c := h m (List.mem_append_right _ List.mem_cons_self)
    have hdone : ∀ x ∈ done, x.Sendable c := fun x hx => h x (List.mem_append_left _ hx)
    have hlen : (m.frame c).length = (c.body m.value).length + c.closing.length := by
      rw [frame, c.writeFrame_eq, List.length_append]
    refine ⟨fun hcut => receive_of_cut hdone hm k hn (by omega), fun hend => ?_⟩
    obtain rfl : n = (c.body m.value).length := by omega
    exact receive_of_body hdone hm k

/-- In JSON any command can be sent. -/
theorem sendable_runCmd (x : RunCmd) : (Parcel.runCmd x).Sendable .json where
  readable := trivial
  fits := ⟨2, by decide, x.fits⟩

theorem receive_of_sent_vet :
    (∀ m ∈ [Parcel.runCmd { name := "go", args := ["vet"] }, .runCmd {}], m.Sendable .json) ∧
      (receive .json [.runCmd, .runCmd, .request]
        ⟨[Parcel.runCmd { name := "go", args := ["vet"] }, .runCmd {}].flatMap (frame .json), none⟩).1.length = 2 := by
  have hsendable : ∀ m ∈ [Parcel.runCmd { name := "go", args := ["vet"] }, .runCmd {}], m.Sendable .json := by
    intro m hm
    simp only [List.mem_cons, List.not_mem_nil, or_false] at hm
    rcases hm with rfl | rfl <;> exact sendable_runCmd _
  refine ⟨hsendable, ?_⟩
  have hreceive := (receive_of_sent hsendable .request).1
  exact (congrArg (fun x => x.1.length) hreceive).trans rfl

/-- A JSON stream that only lacks its last byte is complete. -/
theorem not_reject_of_cut : ¬∀ (c : Codec) (ms : List (Parcel Request.Client)), (∀ m ∈ ms, m.Sendable c) →
    ∀ k done m later, ms = done ++ m :: later → ∀ n, 0 < n → n < (m.frame c).length →
      receive c (ms.map kind ++ [k]) ⟨(ms.flatMap (frame c)).take ((done.flatMap (frame c)).length + n), none⟩ =
        (done.map (received c), c.reject) := by
  intro h
  have hm : (Parcel.runCmd {}).Sendable .json := sendable_runCmd {}
  obtain ⟨n, -, hfits⟩ := hm.fits
  have hpos : 0 < (Codec.json.body (RunCmd.toValue {})).length := (Codec.json.starts_body hfits).length_pos
  have hlt : (Codec.json.body (RunCmd.toValue {})).length < (frame .json (.runCmd {})).length := by
    rw [frame, Codec.writeFrame_eq, List.length_append]
    exact Nat.lt_succ_self _
  have hcut := h .json [.runCmd {}] (by simpa using hm) .runCmd [] (.runCmd {}) [] rfl _ hpos hlt
  have hbehind := @receive_of_body .json [] [] (.runCmd {}) nofun hm .runCmd
  cases hcut.symm.trans hbehind

end Streams

end EditorAgent

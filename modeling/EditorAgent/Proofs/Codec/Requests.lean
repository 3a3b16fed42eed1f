import EditorAgent.Proofs.Codec.Framing

/-!
# Requests and what is sent along

A request that a client writes arrives as it was sent. Data and properties are passed on, and whoever knows their
type reads what the client meant.
-/

namespace EditorAgent

variable {α : Type}

theorem mem_of_mem_sortedInsert {k : String} {v : α} {t : List (String × α)} {e : String × α}
    (h : e ∈ sortedInsert k v t) : e = (k, v) ∨ e ∈ t := by
  induction t with
  | nil => exact .inl (List.mem_singleton.mp h)
  | cons x t ih =>
    rw [sortedInsert] at h
    split_ifs at h
    · exact (List.mem_cons.mp h).imp_right fun h => h
    · exact (List.mem_cons.mp h).imp_right (List.mem_cons_of_mem _)
    · obtain rfl | h := List.mem_cons.mp h
      · exact .inr List.mem_cons_self
      · exact (ih h).imp_right (List.mem_cons_of_mem _)

theorem mem_of_mem_sortedOfEntries {es : List (String × α)} {e : String × α} (h : e ∈ sortedOfEntries es) : e ∈ es := by
  have hfold (t rest : List (String × α)) (h : e ∈ rest.foldl (fun t e => sortedInsert e.1 e.2 t) t) :
      e ∈ t ∨ e ∈ rest := by
    induction rest generalizing t with
    | nil => exact .inl h
    | cons x rest ih =>
      obtain h | h := ih _ h
      · obtain rfl | h := mem_of_mem_sortedInsert h
        · exact .inr List.mem_cons_self
        · exact .inl h
      · exact .inr (List.mem_cons_of_mem _ h)
  exact (hfold [] es h).resolve_left (List.not_mem_nil)

namespace Json

theorem fits_normal {n : Nat} {v : Value} (h : v.Fits (fun _ => True) n) : (normal v).Fits (fun _ => True) n := by
  induction h with
  | null => exact .null
  | unit => exact .null
  | bool b => exact .bool b
  | int hlo hhi => exact .int hlo hhi
  | text => exact .text trivial
  | bytes => exact .text trivial
  | list _ _ ih =>
    rw [normal, normalItems_eq]
    refine .list trivial fun x hx => ?_
    obtain ⟨y, hy, rfl⟩ := List.mem_map.mp hx
    exact ih y hy
  | table _ _ _ ih =>
    rw [normal, normalEntries_eq]
    refine .table trivial (fun _ _ => trivial) fun e he => ?_
    obtain ⟨y, hy, rfl⟩ := List.mem_map.mp (mem_of_mem_sortedOfEntries he)
    exact ih y hy

variable {wide : Bool}

theorem reads_runCmd (x : RunCmd) :
    (format wide).Reads (RunCmd.reader dialect) (normal x.toValue) x := by
  have hnormal : normal x.toValue =
      .table [("Args", .texts x.args), ("Input", .bool x.input), ("Name", .text x.name)] := by
    have hargs : (x.args.map Value.text).map normal = x.args.map Value.text := by simp [normal]
    simp +decide only [RunCmd.toValue, Value.texts, normal, normalEntries, normalItems_eq, hargs, Value.ofEntries,
      sortedOfEntries, sortedInsert, List.foldl, reduceIte]
  have hd := faithful wide
  rw [hnormal]
  exact hd.fields ["Name", "Args", "Input"] rfl rfl (by decide) <|
    .field rfl rfl (hd.texts _) <| .field rfl rfl (hd.bool _) <| .field rfl rfl (hd.text _) .nil

/-- Source is read from the text that stands for it. -/
theorem reads_source_text (b : Bytes) :
    (format wide).Reads sourceReader (.text (Base64.encode Base64.standard b)) b := by
  intro n depth _ hdepth place rest hrest
  have hspell : (format wide).spell place (.bytes b) =
      (format wide).spell place (.text (Base64.encode Base64.standard b)) :=
    congrArg (space (Prod.snd place) ++ ·) (spell_bytes wide (Prod.fst place) b)
  rw [← hspell]
  exact reads_source b (.bytes trivial) hdepth place rest hrest

theorem reads_view (v : View) : (format wide).Reads (View.reader dialect) (normal v.toValue) v := by
  have hnormal : normal v.toValue =
      .table [("Col", .nat v.col), ("Dirty", .bool v.dirty), ("Ext", .text v.ext), ("Hash", .text v.hash),
        ("Lang", .text v.lang), ("Name", .text v.name), ("Path", .text v.path), ("Pos", .nat v.pos),
        ("Row", .nat v.row), ("Src", .text (Base64.encode Base64.standard v.src)), ("Wd", .text v.wd)] := by
    simp +decide only [View.toValue, Value.nat, normal, normalEntries, Value.ofEntries, sortedOfEntries, sortedInsert,
      List.foldl, reduceIte]
  have hd := faithful wide
  rw [hnormal]
  exact hd.fields ["Path", "Wd", "Name", "Hash", "Src", "Pos", "Row", "Col", "Dirty", "Ext", "Lang"] rfl rfl
    (by decide) <|
    .field rfl rfl (hd.natural _) <| .field rfl rfl (hd.bool _) <| .field rfl rfl (hd.text _) <|
      .field rfl rfl (hd.text _) <| .field rfl rfl (hd.text _) <| .field rfl rfl (hd.text _) <|
        .field rfl rfl (hd.text _) <| .field rfl rfl (hd.natural _) <| .field rfl rfl (hd.natural _) <|
          .field rfl rfl (reads_source_text _) <| .field rfl rfl (hd.text _) .nil

theorem normal_env {e : Env} (h : e.Sorted) : normal e.toValue = e.toValue := by
  have hentries : (e.entries.map fun kv => (kv.1, Value.text kv.2)).map (fun x => (x.1, normal x.2)) =
      e.entries.map fun kv => (kv.1, Value.text kv.2) := by
    simp [normal]
  have hsorted : (e.entries.map fun kv => (kv.1, Value.text kv.2)).Pairwise fun x y => x.1 < y.1 :=
    List.pairwise_map.mpr h
  rw [Env.toValue, normal, normalEntries_eq, hentries, Value.ofEntries, sortedOfEntries_of_sorted hsorted]

theorem reads_props {p : Props} (henv : ∀ e ∈ p.env, e.Sorted) :
    (format wide).Reads (Props.reader dialect) (normal p.toValue) p := by
  have hd := faithful wide
  have hnormal : normal p.toValue = .table [("Env", p.env.elim .null Env.toValue),
      ("View", p.view.elim .null fun v => normal v.toValue)] := by
    have henv' : normal (p.env.elim .null Env.toValue) = p.env.elim .null Env.toValue := by
      cases he : p.env with
      | none => rfl
      | some e => exact normal_env (henv e he)
    have hview : normal (p.view.elim .null View.toValue) = p.view.elim .null fun v => normal v.toValue := by
      cases p.view <;> rfl
    simp +decide only [Props.toValue, normal, normalEntries, henv', hview, Value.ofEntries, sortedOfEntries,
      sortedInsert, List.foldl, reduceIte]
  have hreads : (format wide).Reads (dialect.optional (Env.reader dialect)) (p.env.elim .null Env.toValue) p.env :=
    hd.orNull fun e he => ⟨⟨_, rfl⟩, Env.reads hd (henv e he)⟩
  have hview : (format wide).Reads (dialect.optional (View.reader dialect))
      (p.view.elim .null fun v => normal v.toValue) p.view :=
    hd.orNull fun v _ => ⟨⟨_, rfl⟩, reads_view v⟩
  rw [hnormal]
  exact hd.fields ["Env", "View"] rfl rfl (by decide) <| .field rfl rfl hreads <| .field rfl rfl hview .nil

end Json

namespace Codec

variable {c : Codec} {n : Nat} {v : Value}

theorem read_of_reads {r : Dialect → Reader α} {a : α} (hr : (c.format false).Reads (r c.dialect) v a)
    (hv : v.Fits (c.format false).holds n) (hn : n < 128) : c.read r (c.write v) = .ok a := by
  obtain ⟨place, hplace⟩ := c.exists_place_write v
  have hread := hr hv (c.depth_lt hn) place [] (c.ends_nil false)
  rw [hplace, List.append_nil] at hread
  rw [read, hread]
  cases c <;> rfl

/-- Bytes of which a value is read are some. -/
theorem write_ne_nil {r : Dialect → Reader α} {a : α} {opens ok : Bytes → Prop} (hl : (r c.dialect).Local opens ok)
    (hopens : ¬opens []) (hr : (c.format false).Reads (r c.dialect) v a) (hv : v.Fits (c.format false).holds n)
    (hn : n < 128) : c.write v ≠ [] := by
  obtain ⟨place, hplace⟩ := c.exists_place_write v
  have hread := hr hv (c.depth_lt hn) place [] (c.ends_nil false)
  rw [hplace, List.append_nil] at hread
  intro hnil
  rw [hnil] at hread
  exact hopens (hl.opened hread)

theorem fits_normal (h : v.Fits (c.format true).holds n) : (c.normal v).Fits (c.format false).holds n := by
  cases c with
  | json => exact Json.fits_normal h
  | cbor => exact h
  | msgpack => exact h

theorem normal_of_isJson {first : String → Prop} (h : v.IsJson first) : c.normal v = v := by
  cases c with
  | json => exact Json.normal_of_isJson h
  | cbor => rfl
  | msgpack => rfl

theorem reads_runCmd (c : Codec) (x : RunCmd) :
    (c.format false).Reads (RunCmd.reader c.dialect) (c.normal x.toValue) x := by
  cases c with
  | json => exact Json.reads_runCmd x
  | cbor => exact RunCmd.reads Cbor.faithful x
  | msgpack => exact RunCmd.reads MessagePack.faithful x

theorem reads_props {p : Props} (h : p.Readable (c.format false)) :
    (c.format false).Reads (Props.reader c.dialect) (c.normal p.toValue) p := by
  cases c with
  | json => exact Json.reads_props h.env
  | cbor => exact Props.reads Cbor.faithful h
  | msgpack => exact Props.reads MessagePack.faithful h

end Codec

namespace Action

/-- The data that is sent with an action. -/
def data : Action → Option Value
  | .signal _ => none
  | .runCmd x => some x.toValue
  | .step n => some (.int n)

/-- An action that may stand in the registry for another. -/
inductive Like : Action → Action → Prop
  | signal (name : String) : Like (.signal name) (.signal name)
  | runCmd (x x' : RunCmd) : Like (.runCmd x) (.runCmd x')
  | step {n : Int} (n' : Int) (h : n < 0x8000000000000000) : Like (.step n) (.step n')

end Action

namespace Request

/-- Data and properties that JSON has, other than `null`. -/
structure Client.Plain (q : Client) : Prop where
  data : ∀ v ∈ q.data, v ≠ .null ∧ v.IsJson fun _ => True
  props : ∀ v ∈ q.props, v ≠ .null ∧ v.IsJson fun _ => True

namespace Client

theorem sent_of_ne_null {v : Value} (h : v ≠ .null) : sent (some v) = some v := by
  cases v with
  | null => exact absurd rfl h
  | _ => rfl

variable {c : Codec} {q : Client} {n : Nat} {holds : Nat → Prop}

theorem fits_of_data (h : q.value.Fits holds n) {v : Value} (hv : q.data = some v) : ∃ m ≤ n, v.Fits holds m := by
  rw [value_eq, hv] at h
  cases h with
  | table _ _ hes =>
    have haction := hes ("Action", _) (List.mem_cons_of_mem _ List.mem_cons_self)
    cases haction with
    | table _ _ hes => exact ⟨_, by omega, hes ("Data", v) (List.mem_cons_of_mem _ List.mem_cons_self)⟩

theorem fits_of_props (h : q.value.Fits holds n) {v : Value} (hv : q.props = some v) : ∃ m ≤ n, v.Fits holds m := by
  rw [value_eq, hv] at h
  cases h with
  | table _ _ hes =>
    exact ⟨_, by omega, hes ("Props", v) (List.mem_cons_of_mem _ (List.mem_cons_of_mem _ List.mem_cons_self))⟩

theorem next_received (hq : q.Definite) (hfits : q.value.Fits (c.format true).holds n) (hn : n < 128) :
    Request.next c ⟨c.writeFrame q.value, none⟩ = .ok (some (q.received c, ⟨c.closing, none⟩)) := by
  have hread := reads_frame (c.faithful true) hq
  have hends := c.ends_closing true []
  rw [value_eq] at hread hfits
  rw [List.append_nil] at hends
  have hnext := c.next_of_body hread hfits hn c.gap_nil hends none
  rw [List.nil_append, ← c.writeFrame_eq] at hnext
  rw [next, value_eq, hnext, ← ofFrame_frame]

theorem received_of_plain (hq : q.Plain) : q.received c =
    ⟨q.cookie, q.action, ⟨c, (q.data.map c.write).getD []⟩, q.props.map fun v => ⟨c, c.write v⟩⟩ := by
  have hsame {x : Option Value} (h : ∀ v ∈ x, v ≠ .null ∧ v.IsJson fun _ => True) :
      (sent x).map (fun v => c.write (c.normal v)) = x.map c.write := by
    cases x with
    | none => rfl
    | some v =>
      obtain ⟨hnull, hjson⟩ := h v rfl
      rw [sent_of_ne_null hnull, Option.map_some, Option.map_some, Codec.normal_of_isJson hjson]
  have hprops : (sent q.props).map (fun v => (⟨c, c.write (c.normal v)⟩ : Payload)) =
      ((sent q.props).map fun v => c.write (c.normal v)).map fun b => ⟨c, b⟩ := by
    rw [Option.map_map]
    rfl
  rw [received, hsame hq.data, hprops, hsame hq.props, Option.map_map]
  rfl

theorem create_received (hfits : q.value.Fits (c.format true).holds n) (hn : n < 128) {a zero : Action}
    (hdata : q.data = a.data) {registry : Registry} (hfind : registry.find? q.action = some zero) (h : a.Like zero) :
    registry.create q.action (q.received c).data = .ok a := by
  obtain ⟨opens, ok, hl, hopens⟩ := c.exists_local
  have hdecode {v : Value} {r : Dialect → Reader Action} (hv : q.data = some v) (hnull : v ≠ .null)
      (hlocal : (r c.dialect).Local opens ok) (hzero : zero.readLike = r)
      (hread : (c.format false).Reads (r c.dialect) (c.normal v) a) :
      registry.create q.action (q.received c).data = .ok a := by
    obtain ⟨m, hm, hfits⟩ := fits_of_data hfits hv
    have hbytes : (q.received c).data = ⟨c, c.write (c.normal v)⟩ := by
      rw [received, hv, sent_of_ne_null hnull]
      rfl
    have hne := Codec.write_ne_nil hlocal hopens hread (Codec.fits_normal hfits) (by omega)
    have hempty : (⟨c, c.write (c.normal v)⟩ : Payload).isEmpty = false := by
      simpa [Payload.isEmpty] using hne
    have hpayload : (⟨c, c.write (c.normal v)⟩ : Payload).decode zero.readLike = .ok a := by
      rw [hzero]
      exact Codec.read_of_reads hread (Codec.fits_normal hfits) (by omega)
    rw [Registry.create, hfind, hbytes]
    dsimp only
    rw [hempty, hpayload]
    rfl
  cases h with
  | signal name =>
    have hbytes : (q.received c).data = ⟨c, []⟩ := by
      rw [received, hdata]
      rfl
    rw [Registry.create, hfind, hbytes]
    rfl
  | runCmd x x' =>
    exact hdecode hdata nofun ((RunCmd.reader_local hl).weaken.map _) rfl ((c.reads_runCmd x).map _)
  | @step i i' hi =>
    have hjson : (Value.int i).IsJson fun _ => True := .int i
    have hread : (c.format false).Reads c.dialect.integer (c.normal (.int i)) i := by
      rw [Codec.normal_of_isJson hjson]
      exact (c.faithful false).integer hi
    exact hdecode hdata nofun (hl.integer.map _) rfl (hread.map _)

end Client

/-- A request arrives as a client wrote it: cookie, name, data and properties, byte for byte. Actions and properties
that were sent along are read as they were meant. -/
theorem next_of_client {c : Codec} {q : Client} (hq : q.Definite) {n : Nat}
    (hfits : q.value.Fits (c.format true).holds n) (hn : n < 128) :
    ∃ r, Request.next c ⟨c.writeFrame q.value, none⟩ = .ok (some (r, ⟨c.closing, none⟩)) ∧
      r.cookie = q.cookie ∧ r.action = q.action ∧
      (q.Plain → r.data = ⟨c, (q.data.map c.write).getD []⟩ ∧ r.props = q.props.map fun v => ⟨c, c.write v⟩) ∧
      (∀ (registry : Registry) (a zero : Action), q.data = a.data → registry.find? q.action = some zero →
        a.Like zero → registry.create r.action r.data = .ok a) ∧
      ∀ p : Props, q.props = some p.toValue → p.Readable (c.format false) →
        ∃ payload, r.props = some payload ∧ payload.decode Props.reader = .ok p := by
  refine ⟨q.received c, Client.next_received hq hfits hn, rfl, rfl, fun hplain => ?_,
    fun registry a zero hdata hfind hlike => Client.create_received hfits hn hdata hfind hlike,
    fun p hp hreadable => ?_⟩
  · rw [Client.received_of_plain hplain]
    exact ⟨rfl, rfl⟩
  · obtain ⟨m, hm, hfits⟩ := Client.fits_of_props hfits hp
    refine ⟨⟨c, c.write (c.normal p.toValue)⟩, ?_, ?_⟩
    · have hnull : p.toValue ≠ .null := nofun
      rw [Client.received, hp, Client.sent_of_ne_null hnull]
      rfl
    · exact Codec.read_of_reads (Codec.reads_props hreadable) (Codec.fits_normal hfits) (by omega)

theorem next_of_client_vet :
    ∃ r, Request.next .json ⟨Codec.json.writeFrame
        (clientValue "c#1" "RunCmd" (some (RunCmd.toValue ⟨"go", ["vet"], false⟩)) none), none⟩ =
          .ok (some (r, ⟨[0x0A], none⟩)) ∧
      Registry.builtins.create r.action r.data = .ok (.runCmd ⟨"go", ["vet"], false⟩) := by
  let q : Client := ⟨"c#1", "RunCmd", some (RunCmd.toValue ⟨"go", ["vet"], false⟩), none⟩
  have hcommand : (RunCmd.toValue ⟨"go", ["vet"], false⟩).Fits (fun _ => True) 2 := RunCmd.fits _
  have hcall : (Value.table [("Name", .text "RunCmd"), ("Data", RunCmd.toValue ⟨"go", ["vet"], false⟩)]).Fits
      (fun _ => True) 3 := by
    refine .table trivial (fun _ _ => trivial) fun e he => ?_
    simp only [List.mem_cons, List.not_mem_nil, or_false] at he
    rcases he with rfl | rfl
    · exact .text trivial
    · exact hcommand
  have hfits : q.value.Fits (fun _ => True) 4 := by
    refine .table trivial (fun _ _ => trivial) fun e he => ?_
    have he : e ∈ [("Cookie", Value.text "c#1"),
      ("Action", .table [("Name", .text "RunCmd"), ("Data", RunCmd.toValue ⟨"go", ["vet"], false⟩)])] := he
    simp only [List.mem_cons, List.not_mem_nil, or_false] at he
    rcases he with rfl | rfl
    · exact .text trivial
    · exact hcall
  obtain ⟨r, hnext, -, -, -, hcreate, -⟩ :=
    next_of_client (c := .json) (q := q) ⟨nofun, nofun⟩ hfits (by decide)
  refine ⟨r, hnext, hcreate _ _ (.runCmd {}) rfl rfl (.runCmd _ _)⟩

end Request

end EditorAgent

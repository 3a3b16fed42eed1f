import EditorAgent.Proofs.Codec.Lookahead
import EditorAgent.Proofs.Codec.Spelling
import EditorAgent.Store.Action
import EditorAgent.Store.Props

/-!
# Records in messages

What a faithful dialect reads of a written record is that record, and its readers do not look ahead.
-/

namespace EditorAgent

variable {α σ : Type} {F : Format} {d : Dialect} {opens ok : Bytes → Prop}

/-- An entry that is a field of the record, before the others. -/
theorem Run.field {fields : List (Field σ)} {p p' : Draft σ} {k : String} {r : Reader α} {set : α → σ → σ} {v : Value}
    {a : α} {es : List (String × Value)} (hfind : (fields.find? fun f => f.name == k) = some (.opt k r set))
    (hnew : p.seen.contains k = false) (h : F.Reads r v a)
    (hs : Run (F.Enters fields) ⟨set a p.value, k :: p.seen⟩ es p') : Run (F.Enters fields) p ((k, v) :: es) p' :=
  .cons ⟨_, set a, hfind, rfl, by simpa using hnew, h.map set, rfl⟩ hs

namespace Dialect

theorem Faithful.each (hd : d.Faithful F) {r : Reader α} {toValue : α → Value} {xs : List α}
    (h : ∀ a ∈ xs, F.Reads r (toValue a) a) : F.Reads (d.list r) (.list (xs.map toValue)) xs :=
  hd.list (List.forall₂_map_left_iff.mpr (List.forall₂_same.mpr h))

theorem Faithful.texts (hd : d.Faithful F) (xs : List String) : F.Reads (d.list d.text) (.texts xs) xs :=
  hd.each fun s _ => hd.text s

theorem Faithful.orNull (hd : d.Faithful F) {r : Reader α} {toValue : α → Value} {x : Option α}
    (h : ∀ a ∈ x, (∃ es, toValue a = .table es) ∧ F.Reads r (toValue a) a) :
    F.Reads (d.optional r) (x.elim .null toValue) x := by
  cases x with
  | none => exact hd.absent r
  | some a =>
    obtain ⟨⟨es, hes⟩, hread⟩ := h a rfl
    exact hd.present (by simp [hes]) (by simp [hes]) hread

theorem Faithful.fields (hd : d.Faithful F) {fields : List (Field σ)} {zero a : σ} {es : List (String × Value)}
    {seen : List String} (names : List String) (hfields : fields.map Field.name = names)
    (hoptional : (fields.all fun f => !f.required) = true) (hnames : ∀ k ∈ names, (Utf8.encode k).length ≤ 16)
    (h : Run (F.Enters fields) ⟨zero, []⟩ es ⟨a, seen⟩) : F.Reads (d.record fields zero) (.table es) a := by
  subst hfields
  refine hd.record (fun f hf => ?_) (fun f hf => hd.short (hnames _ (List.mem_map_of_mem hf))) h
  simpa using List.all_eq_true.mp hoptional f hf

end Dialect

namespace RunCmd

theorem reads (hd : d.Faithful F) (c : RunCmd) : F.Reads (reader d) c.toValue c :=
  hd.fields ["Name", "Args", "Input"] rfl rfl (by decide) <|
    .field rfl rfl (hd.text _) <| .field rfl rfl (hd.texts _) <| .field rfl rfl (hd.bool _) .nil

theorem reader_local (hl : d.Local opens ok) : (reader d).Local opens Anything := by
  refine hl.record _ fun f hf => ?_
  simp only [List.mem_cons, List.not_mem_nil, or_false] at hf
  rcases hf with rfl | rfl | rfl
  · exact hl.text.map _
  · exact (hl.list hl.text).map _
  · exact hl.bool.map _

/-- Where lengths are of no concern, any command can be spelled. -/
theorem fits (x : RunCmd) : x.toValue.Fits (fun _ => True) 2 := by
  refine .table trivial (fun _ _ => trivial) fun e he => ?_
  simp only [List.mem_cons, List.not_mem_nil, or_false] at he
  rcases he with rfl | rfl | rfl
  · exact .text trivial
  · refine .list trivial fun v hv => ?_
    obtain ⟨a, -, rfl⟩ := List.mem_map.mp hv
    exact .text trivial
  · exact .bool _

end RunCmd

namespace Completion

theorem reads (hd : d.Faithful F) (c : Completion) : F.Reads (reader d) c.toValue c :=
  hd.fields ["Query", "Title", "Src", "Tag"] rfl rfl (by decide) <|
    .field rfl rfl (hd.text _) <| .field rfl rfl (hd.text _) <| .field rfl rfl (hd.text _) <|
      .field rfl rfl (hd.text _) .nil

theorem reader_local (hl : d.Local opens ok) : (reader d).Local opens Anything := by
  refine hl.record _ fun f hf => ?_
  simp only [List.mem_cons, List.not_mem_nil, or_false] at hf
  rcases hf with rfl | rfl | rfl | rfl <;> exact hl.text.map _

end Completion

namespace IssueTag

theorem reads (hd : d.Faithful F) (t : IssueTag) : F.Reads (reader d) t.toValue t := by
  have hchoice (s : String) (i : Nat) (hs : (Utf8.encode s).length ≤ 16) (hi : (all.map name).idxOf? s = some i) :
      F.Reads (reader d) (.text s) (all.getD i .error) := (hd.choice (hd.short hs) hi).map _
  cases t
  · exact hchoice "error" 0 (by decide) rfl
  · exact hchoice "warning" 1 (by decide) rfl
  · exact hchoice "notice" 2 (by decide) rfl

end IssueTag

namespace Issue

theorem reads (hd : d.Faithful F) (i : Issue) : F.Reads (reader d) i.toValue i :=
  hd.fields ["Path", "Name", "Row", "Col", "End", "Tag", "Label", "Message"] rfl rfl (by decide) <|
    .field rfl rfl (hd.text _) <| .field rfl rfl (hd.text _) <| .field rfl rfl (hd.natural _) <|
      .field rfl rfl (hd.natural _) <| .field rfl rfl (hd.natural _) <| .field rfl rfl (IssueTag.reads hd _) <|
        .field rfl rfl (hd.text _) <| .field rfl rfl (hd.text _) .nil

theorem reader_local (hl : d.Local opens ok) : (reader d).Local opens Anything := by
  refine hl.record _ fun f hf => ?_
  simp only [List.mem_cons, List.not_mem_nil, or_false] at hf
  rcases hf with rfl | rfl | rfl | rfl | rfl | rfl | rfl | rfl
  · exact hl.text.map _
  · exact hl.text.map _
  · exact hl.natural.map _
  · exact hl.natural.map _
  · exact hl.natural.map _
  · exact ((hl.choice _).map _).map _
  · exact hl.text.map _
  · exact hl.text.map _

end Issue

namespace Tooltip

theorem reads (hd : d.Faithful F) (t : Tooltip) : F.Reads (reader d) t.toValue t :=
  hd.fields ["Content"] rfl rfl (by decide) <| .field rfl rfl (hd.text _) .nil

theorem reader_local (hl : d.Local opens ok) : (reader d).Local opens Anything := by
  refine hl.record _ fun f hf => ?_
  rw [List.mem_singleton.mp hf]
  exact hl.text.map _

end Tooltip

namespace UserCmd

theorem reads (hd : d.Faithful F) (c : UserCmd) : F.Reads (reader d) c.toValue c :=
  hd.fields ["Title", "Desc", "Name", "Args"] rfl rfl (by decide) <|
    .field rfl rfl (hd.text _) <| .field rfl rfl (hd.text _) <| .field rfl rfl (hd.text _) <|
      .field rfl rfl (hd.texts _) .nil

theorem reader_local (hl : d.Local opens ok) : (reader d).Local opens Anything := by
  refine hl.record _ fun f hf => ?_
  simp only [List.mem_cons, List.not_mem_nil, or_false] at hf
  rcases hf with rfl | rfl | rfl | rfl
  · exact hl.text.map _
  · exact hl.text.map _
  · exact hl.text.map _
  · exact (hl.list hl.text).map _

end UserCmd

namespace EditorConfig

theorem reads (hd : d.Faithful F) {c : EditorConfig}
    (h : c.settings.IsJson fun k => F.buffers (Utf8.encode k).length) : F.Reads (reader d) c.toValue c :=
  hd.fields ["EnabledForLangs", "Settings"] rfl rfl (by decide) <|
    .field rfl rfl (hd.texts _) <| .field rfl rfl (hd.value h) .nil

theorem reader_local (hl : d.Local opens ok) : (reader d).Local opens Anything := by
  refine hl.record _ fun f hf => ?_
  simp only [List.mem_cons, List.not_mem_nil, or_false] at hf
  rcases hf with rfl | rfl
  · exact (hl.list hl.text).map _
  · exact hl.value.map _

end EditorConfig

namespace View

theorem reads (hd : d.Faithful F) {v : View} (h : F.buffers v.src.length) : F.Reads (reader d) v.toValue v :=
  hd.fields ["Path", "Wd", "Name", "Hash", "Src", "Pos", "Row", "Col", "Dirty", "Ext", "Lang"] rfl rfl (by decide) <|
    .field rfl rfl (hd.text _) <| .field rfl rfl (hd.text _) <| .field rfl rfl (hd.text _) <|
      .field rfl rfl (hd.text _) <| .field rfl rfl (hd.source h) <| .field rfl rfl (hd.natural _) <|
        .field rfl rfl (hd.natural _) <| .field rfl rfl (hd.natural _) <| .field rfl rfl (hd.bool _) <|
          .field rfl rfl (hd.text _) <| .field rfl rfl (hd.text _) .nil

theorem reader_local (hl : d.Local opens ok) : (reader d).Local opens Anything := by
  refine hl.record _ fun f hf => ?_
  simp only [List.mem_cons, List.not_mem_nil, or_false] at hf
  rcases hf with rfl | rfl | rfl | rfl | rfl | rfl | rfl | rfl | rfl | rfl | rfl
  all_goals first
    | exact hl.text.map _
    | exact hl.natural.map _
    | exact hl.bool.map _
    | exact hl.source.map _

end View

namespace Env

/-- Environments are sorted by name. -/
def Sorted (e : Env) : Prop := e.entries.Pairwise fun x y => x.1 < y.1

theorem reads (hd : d.Faithful F) {e : Env} (h : e.Sorted) : F.Reads (reader d) e.toValue e := by
  have htable : F.Reads (d.table d.text) e.toValue e.entries :=
    hd.table (List.forall₂_map_left_iff.mpr (List.forall₂_same.mpr fun kv _ => ⟨rfl, hd.text kv.2⟩))
  have hread := htable.map ofList
  rw [ofList, sortedOfEntries_of_sorted h] at hread
  exact hread

theorem reader_local (hl : d.Local opens ok) : (reader d).Local opens Anything := (hl.table hl.text).map _

end Env

namespace State

/-- What a state needs for being read back: an environment that is sorted, and settings and a source that the reader
has room for. -/
structure Readable (F : Format) (s : State) : Prop where
  env : s.env.Sorted
  settings : ∀ c ∈ s.config, c.settings.IsJson fun k => F.buffers (Utf8.encode k).length
  source : F.buffers s.view.src.length

theorem reads (hd : d.Faithful F) {s : State} (h : s.Readable F) : F.Reads (reader d) s.toValue s := by
  have hconfig : F.Reads (d.optional (EditorConfig.reader d)) (s.config.elim .null EditorConfig.toValue) s.config :=
    hd.orNull fun c hc => ⟨⟨_, rfl⟩, EditorConfig.reads hd (h.settings c hc)⟩
  have hvalue : s.toValue = .table [("Status", .texts s.status), ("Errors", .texts s.errors),
      ("Completions", .list (s.completions.map Completion.toValue)),
      ("Issues", .list (s.issues.map Issue.toValue)), ("Tooltips", .list (s.tooltips.map Tooltip.toValue)),
      ("UserCmds", .list (s.userCmds.map UserCmd.toValue)), ("Config", s.config.elim .null EditorConfig.toValue),
      ("View", s.view.toValue), ("Env", s.env.toValue)] := by
    rw [toValue]
    cases s.config <;> rfl
  rw [hvalue]
  exact hd.fields ["Status", "Errors", "Completions", "Issues", "Tooltips", "UserCmds", "Config", "View", "Env"]
    rfl rfl (by decide) <|
    .field rfl rfl (hd.texts _) <| .field rfl rfl (hd.texts _) <|
      .field rfl rfl (hd.each fun c _ => Completion.reads hd c) <|
        .field rfl rfl (hd.each fun i _ => Issue.reads hd i) <|
          .field rfl rfl (hd.each fun t _ => Tooltip.reads hd t) <|
            .field rfl rfl (hd.each fun c _ => UserCmd.reads hd c) <| .field rfl rfl hconfig <|
              .field rfl rfl (View.reads hd h.source) <| .field rfl rfl (Env.reads hd h.env) .nil

theorem reader_local (hl : d.Local opens ok) : (reader d).Local opens Anything := by
  refine hl.record _ fun f hf => ?_
  simp only [List.mem_cons, List.not_mem_nil, or_false] at hf
  rcases hf with rfl | rfl | rfl | rfl | rfl | rfl | rfl | rfl | rfl
  · exact (hl.list hl.text).map _
  · exact (hl.list hl.text).map _
  · exact (hl.list (Completion.reader_local hl).weaken).map _
  · exact (hl.list (Issue.reader_local hl).weaken).map _
  · exact (hl.list (Tooltip.reader_local hl).weaken).map _
  · exact (hl.list (UserCmd.reader_local hl).weaken).map _
  · exact (hl.optional (EditorConfig.reader_local hl).weaken).map _
  · exact (View.reader_local hl).weaken.map _
  · exact (Env.reader_local hl).weaken.map _

end State

namespace Props

/-- Properties as a client writes them. -/
def toValue (p : Props) : Value :=
  .table [("Env", p.env.elim .null Env.toValue), ("View", p.view.elim .null View.toValue)]

/-- What properties need for being read. -/
structure Readable (F : Format) (p : Props) : Prop where
  env : ∀ e ∈ p.env, e.Sorted
  source : ∀ v ∈ p.view, F.buffers v.src.length

theorem reads (hd : d.Faithful F) {p : Props} (h : p.Readable F) : F.Reads (reader d) p.toValue p := by
  have henv : F.Reads (d.optional (Env.reader d)) (p.env.elim .null Env.toValue) p.env :=
    hd.orNull fun e he => ⟨⟨_, rfl⟩, Env.reads hd (h.env e he)⟩
  have hview : F.Reads (d.optional (View.reader d)) (p.view.elim .null View.toValue) p.view :=
    hd.orNull fun v hv => ⟨⟨_, rfl⟩, View.reads hd (h.source v hv)⟩
  exact hd.fields ["Env", "View"] rfl rfl (by decide) <| .field rfl rfl henv <| .field rfl rfl hview .nil

end Props

namespace Request

/-- What a client sends. -/
structure Client where
  cookie : String
  action : String
  data : Option Value
  props : Option Value

namespace Client

def value (q : Client) : Value := clientValue q.cookie q.action q.data q.props

/-- Data and properties are values that JSON has, or others that are spelled as something. -/
structure Definite (q : Client) : Prop where
  data : q.data ≠ some .unit
  props : q.props ≠ some .unit

/-- What is sent as `null` counts as absent. -/
def sent (v : Option Value) : Option Value := v.filter fun v => !v.isNull

def frame (F : Format) (q : Client) : Frame :=
  ⟨q.cookie, q.action, (sent q.data).map F.passedOn, (sent q.props).map F.passedOn⟩

end Client

theorem Client.value_eq (q : Client) : q.value = .table (("Cookie", .text q.cookie) ::
    ("Action", .table (("Name", .text q.action) :: (q.data.map ("Data", ·)).toList)) ::
    (q.props.map ("Props", ·)).toList) := by
  rw [value, clientValue]
  cases q.data <;> cases q.props <;> rfl

theorem reads_sent (hd : d.Faithful F) {v : Value} (h : v ≠ .unit) :
    F.Reads (d.optional d.native) v ((Client.sent (some v)).map F.passedOn) := by
  by_cases hnull : v = .null
  · subst hnull
    exact hd.absent _
  · have hsent : Client.sent (some v) = some v := by
      cases v with
      | null => exact absurd rfl hnull
      | _ => rfl
    rw [hsent]
    exact hd.present hnull h (hd.native v)

theorem reads_call (hd : d.Faithful F) (name : String) {data : Option Value} (h : data ≠ some .unit) :
    F.Reads (callReader d) (.table (("Name", .text name) :: (data.map ("Data", ·)).toList))
      ⟨name, (Client.sent data).map F.passedOn⟩ := by
  cases data with
  | none => exact hd.fields ["Name", "Data"] rfl rfl (by decide) <| .field rfl rfl (hd.text _) .nil
  | some v =>
    have hdata := reads_sent hd fun hv => h (congrArg some hv)
    exact hd.fields ["Name", "Data"] rfl rfl (by decide) <| .field rfl rfl (hd.text _) <| .field rfl rfl hdata .nil

theorem reads_frame (hd : d.Faithful F) {q : Client} (h : q.Definite) :
    F.Reads (frameReader d) q.value (q.frame F) := by
  have hcall := reads_call hd q.action h.data
  rw [q.value_eq, Client.frame]
  cases hp : q.props with
  | none =>
    exact hd.fields ["Cookie", "Action", "Props"] rfl rfl (by decide) <|
      .field rfl rfl (hd.text _) <| .field rfl rfl hcall .nil
  | some v =>
    have hprops := reads_sent hd fun hv => h.props (hp.trans (congrArg some hv))
    exact hd.fields ["Cookie", "Action", "Props"] rfl rfl (by decide) <|
      .field rfl rfl (hd.text _) <| .field rfl rfl hcall <| .field rfl rfl hprops .nil

theorem callReader_local (hl : d.Local opens ok) : (callReader d).Local opens Anything := by
  refine hl.record _ fun f hf => ?_
  simp only [List.mem_cons, List.not_mem_nil, or_false] at hf
  rcases hf with rfl | rfl
  · exact hl.text.map _
  · exact (hl.optional hl.native).map _

theorem frameReader_local (hl : d.Local opens ok) : (frameReader d).Local opens Anything := by
  refine hl.record _ fun f hf => ?_
  simp only [List.mem_cons, List.not_mem_nil, or_false] at hf
  rcases hf with rfl | rfl | rfl
  · exact hl.text.map _
  · exact (callReader_local hl).weaken.map _
  · exact (hl.optional hl.native).map _

end Request

end EditorAgent

import EditorAgent.Codec.Basic
import Mathlib.Data.List.Forall2

/-!
# Spelled values

A format spells values as bytes; a typed reader reads a spelled value as a typed one. `Dialect.Faithful` says this of
each reader that a format offers, and what is read in a message follows from it.
-/

namespace EditorAgent

variable {α β σ : Type}

/-- Values that a format can spell: no floating-point numbers, integers of 64 bits with a sign or without, lengths
that the format holds, and at most so many containers inside one another. What carries nothing counts as a container,
since a format may write it as one. -/
inductive Value.Fits (holds : Nat → Prop) : Nat → Value → Prop
  | null {n : Nat} : Fits holds n .null
  | unit {n : Nat} : Fits holds (n + 1) .unit
  | bool {n : Nat} (b : Bool) : Fits holds n (.bool b)
  | int {n : Nat} {i : Int} (hlo : -0x8000000000000000 ≤ i) (hhi : i < 0x10000000000000000) : Fits holds n (.int i)
  | text {n : Nat} {s : String} (hs : holds (Utf8.encode s).length) : Fits holds n (.text s)
  | bytes {n : Nat} {b : Bytes} (hb : holds b.length) : Fits holds n (.bytes b)
  | list {n : Nat} {xs : List Value} (hlen : holds xs.length) (hxs : ∀ x ∈ xs, Fits holds n x) :
      Fits holds (n + 1) (.list xs)
  | table {n : Nat} {es : List (String × Value)} (hlen : holds es.length)
      (hkeys : ∀ e ∈ es, holds (Utf8.encode e.1).length) (hes : ∀ e ∈ es, Fits holds n e.2) :
      Fits holds (n + 1) (.table es)

/-- Values that JSON has, with tables sorted; the first key of a table is as `first` says. -/
inductive Value.IsJson (first : String → Prop) : Value → Prop
  | null : IsJson first .null
  | bool (b : Bool) : IsJson first (.bool b)
  | int (i : Int) : IsJson first (.int i)
  | text (s : String) : IsJson first (.text s)
  | list {xs : List Value} (hxs : ∀ x ∈ xs, IsJson first x) : IsJson first (.list xs)
  | table {es : List (String × Value)} (hsorted : es.Pairwise fun e e' => e.1 < e'.1)
      (hfirst : ∀ e ∈ es.head?, first e.1) (hes : ∀ e ∈ es, IsJson first e.2) : IsJson first (.table es)

/-- A table that is sorted already is what its entries give. -/
theorem sortedOfEntries_of_sorted {es : List (String × α)} (h : es.Pairwise fun e e' => e.1 < e'.1) :
    sortedOfEntries es = es := by
  have hlast {t : List (String × α)} {k : String} (v : α) (ht : ∀ e ∈ t, e.1 < k) :
      sortedInsert k v t = t ++ [(k, v)] := by
    induction t with
    | nil => rfl
    | cons e t ih =>
      have he : e.1 < k := ht e List.mem_cons_self
      rw [sortedInsert, if_neg (String.lt_asymm he), if_neg fun hk => String.lt_irrefl _ (hk ▸ he), List.cons_append,
        ih fun e' he' => ht e' (List.mem_cons_of_mem _ he')]
  have hfold (done rest : List (String × α)) (h : (done ++ rest).Pairwise fun e e' => e.1 < e'.1) :
      rest.foldl (fun t e => sortedInsert e.1 e.2 t) done = done ++ rest := by
    induction rest generalizing done with
    | nil => simp
    | cons e rest ih =>
      have he : ∀ e' ∈ done, e'.1 < e.1 := fun e' he' =>
        (List.pairwise_append.mp h).2.2 e' he' e List.mem_cons_self
      rw [List.foldl_cons, hlast e.2 he, ih _ (by simpa using h)]
      simp
  exact hfold [] es (by simpa using h)

theorem exists_forall₂ {R : β → α → Prop} {xs : List β} (h : ∀ x ∈ xs, ∃ a, R x a) :
    ∃ as, List.Forall₂ R xs as := by
  induction xs with
  | nil => exact ⟨[], .nil⟩
  | cons x xs ih =>
    obtain ⟨a, ha⟩ := h x List.mem_cons_self
    obtain ⟨as, has⟩ := ih fun y hy => h y (List.mem_cons_of_mem _ hy)
    exact ⟨a :: as, .cons ha has⟩

/-- What several items one after another make of a state. -/
inductive Run (step : σ → β → σ → Prop) : σ → List β → σ → Prop
  | nil {acc : σ} : Run step acc [] acc
  | cons {acc acc' acc'' : σ} {x : β} {xs : List β} (h : step acc x acc') (hs : Run step acc' xs acc'') :
      Run step acc (x :: xs) acc''

theorem Run.and_forall {step : σ → β → σ → Prop} {P : β → Prop} {acc acc' : σ} {xs : List β} (h : Run step acc xs acc')
    (hxs : ∀ x ∈ xs, P x) : Run (fun acc x acc' => P x ∧ step acc x acc') acc xs acc' := by
  induction h with
  | nil => exact .nil
  | cons hstep _ ih =>
    exact .cons ⟨hxs _ List.mem_cons_self, hstep⟩ (ih fun x hx => hxs x (List.mem_cons_of_mem _ hx))

/-- Items that are kept as they come. -/
theorem run_of_forall₂ {R : β → α → Prop} {xs : List β} {as : List α} (h : List.Forall₂ R xs as) (acc : List α) :
    Run (fun acc x acc' => ∃ a, R x a ∧ acc' = a :: acc) acc xs (as.reverse ++ acc) := by
  induction h generalizing acc with
  | nil => exact .nil
  | cons hread _ ih =>
    rw [List.reverse_cons, List.append_assoc]
    exact .cons ⟨_, hread, rfl⟩ (ih _)

/-- Items of which the first has more asked of it. -/
theorem run_of_forall {first each : β → Prop} {xs : List β} (h : ∀ x ∈ xs, each x) (acc : List β)
    (hfirst : acc = [] → ∀ x ∈ xs.head?, first x) :
    Run (fun acc x acc' => each x ∧ (acc = [] → first x) ∧ acc' = x :: acc) acc xs (xs.reverse ++ acc) := by
  induction xs generalizing acc with
  | nil => exact .nil
  | cons x xs ih =>
    rw [List.reverse_cons, List.append_assoc]
    exact .cons ⟨h x List.mem_cons_self, fun hacc => hfirst hacc x rfl, rfl⟩
      (ih (fun y hy => h y (List.mem_cons_of_mem _ hy)) _ nofun)

theorem run_foldl (f : σ → β → σ) (acc : σ) (xs : List β) :
    Run (fun acc x acc' => acc' = f acc x) acc xs (xs.foldl f acc) := by
  induction xs generalizing acc with
  | nil => exact .nil
  | cons x xs ih => exact .cons rfl (ih _)

/-- Where no field is required, a record is complete. -/
theorem Draft.finish_of_optional {fields : List (Field σ)} (h : ∀ f ∈ fields, f.required = false) (p : Draft σ) :
    p.finish fields = some p.value := by
  refine if_pos (List.all_eq_true.mpr fun f hf => ?_)
  rw [h f hf]
  rfl

/-- How values are written, and what is asked of them for being read. -/
structure Format where
  /-- Where a value stands, if it is written otherwise there. -/
  Place : Type
  /-- The bytes of a value at a place. -/
  spell : Place → Value → Bytes
  /-- The bytes of a value that was passed on without being understood. -/
  passedOn : Value → Bytes
  /-- Lengths that can be written. -/
  holds : Nat → Prop
  /-- Lengths that fit the buffer of a reader that has one. -/
  buffers : Nat → Prop
  /-- What may follow a value. -/
  ends : Bytes → Prop

namespace Format

variable (F : Format)

/-- A reader takes a spelled value off the front of a message, if it nests less than the reader may go down. -/
def Reads (r : Reader α) (v : Value) (a : α) : Prop :=
  ∀ ⦃n depth⦄, v.Fits F.holds n → n < depth → ∀ place rest, F.ends rest →
    r depth (F.spell place v ++ rest) = some (a, rest)

/-- An entry enters its field into a record, if the field is not there yet. -/
def Enters (fields : List (Field σ)) (p : Draft σ) (e : String × Value) (p' : Draft σ) : Prop :=
  ∃ f set, (fields.find? fun f => f.name == e.1) = some f ∧ f.name = e.1 ∧ e.1 ∉ p.seen ∧ F.Reads f.read e.2 set ∧
    p' = ⟨set p.value, e.1 :: p.seen⟩

variable {F}

theorem Enters.enter {fields : List (Field σ)} {p p' : Draft σ} {e : String × Value} (h : F.Enters fields p e p') :
    ∃ f, (fields.find? fun f => f.name == e.1) = some f ∧ f.name = e.1 ∧
      ∀ ⦃n depth⦄, e.2.Fits F.holds n → n < depth → ∀ place rest, F.ends rest →
        p.enter f depth (F.spell place e.2 ++ rest) = some (p', rest) := by
  obtain ⟨f, set, hfind, hname, hnew, hread, rfl⟩ := h
  refine ⟨f, hfind, hname, fun n depth hv hdepth place rest hrest => ?_⟩
  rw [Draft.enter, hname, if_neg (by simpa using hnew), hread hv hdepth place rest hrest]

/-- An integer that is spelled has 64 bits, with a sign or without. -/
theorem Reads.of_int {r : Reader α} {i : Int} {a : α}
    (h : -0x8000000000000000 ≤ i → i < 0x10000000000000000 → F.Reads r (.int i) a) : F.Reads r (.int i) a := by
  intro n depth hv
  cases hv with
  | int hlo hhi => exact h hlo hhi (.int hlo hhi)

theorem Reads.map {r : Reader α} {v : Value} {a : α} (h : F.Reads r v a) (f : α → β) :
    F.Reads (r.map f) v (f a) := by
  intro n depth hv hdepth place rest hrest
  rw [Reader.map, h hv hdepth place rest hrest]

end Format

/-- Each reader of a dialect reads what the format spells. -/
structure Dialect.Faithful (F : Format) (d : Dialect) : Prop where
  /-- Names of fields and choices, which are short, fit the buffer. -/
  short {n : Nat} (h : n ≤ 16) : F.buffers n
  text (s : String) : F.Reads d.text (.text s) s
  bool (b : Bool) : F.Reads d.bool (.bool b) b
  natural (n : Nat) : F.Reads d.natural (.nat n) n
  integer {i : Int} (h : i < 0x8000000000000000) : F.Reads d.integer (.int i) i
  source {b : Bytes} (h : F.buffers b.length) : F.Reads d.source (.bytes b) b
  unit : F.Reads d.unit .unit ()
  choice {names : List String} {s : String} {i : Nat} (hbuffers : F.buffers (Utf8.encode s).length)
    (h : names.idxOf? s = some i) : F.Reads (d.choice names) (.text s) i
  value {v : Value} (h : v.IsJson fun k => F.buffers (Utf8.encode k).length) : F.Reads d.value v v
  native (v : Value) : F.Reads d.native v (F.passedOn v)
  absent {α : Type} (r : Reader α) : F.Reads (d.optional r) .null none
  present {α : Type} {r : Reader α} {v : Value} {a : α} (hnull : v ≠ .null) (hunit : v ≠ .unit) (h : F.Reads r v a) :
    F.Reads (d.optional r) v (some a)
  list {α : Type} {r : Reader α} {vs : List Value} {as : List α} (h : List.Forall₂ (F.Reads r) vs as) :
    F.Reads (d.list r) (.list vs) as
  table {α : Type} {r : Reader α} {es : List (String × Value)} {as : List (String × α)}
    (h : List.Forall₂ (fun e a => e.1 = a.1 ∧ F.Reads r e.2 a.2) es as) : F.Reads (d.table r) (.table es) as
  record {σ : Type} {fields : List (Field σ)} {zero : σ} {es : List (String × Value)} {p : Draft σ}
    (hoptional : ∀ f ∈ fields, f.required = false) (hnames : ∀ f ∈ fields, F.buffers (Utf8.encode f.name).length)
    (h : Run (F.Enters fields) ⟨zero, []⟩ es p) : F.Reads (d.record fields zero) (.table es) p.value

end EditorAgent

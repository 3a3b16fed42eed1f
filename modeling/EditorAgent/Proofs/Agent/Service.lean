import EditorAgent.Proofs.Text.Lines
import Mathlib

/-!
# Every call is answered once

A broker at work reads lines, lets calls run beside each other on a bounded pool and writes an answer whenever a
call returns. `Step` has a step for each thing that it does; between two of them any call may return. `Replies` says
how a line is answered. Whatever the order, a broker comes to an end, and then each line has its answer.
-/

namespace EditorAgent

namespace Line

/-- The header of a line that can be read. -/
def header? (line : Bytes) : Option Header := (parse line).toOption.map (·.1)

def isBlank (line : Bytes) : Bool := (Utf8.decode? line).any fun text => Text.trim text = ""

/-- Whether a line ends the service. -/
def saysBye (line : Bytes) : Bool := !isBlank line && (header? line).any fun h => h.method = byeMethod

/-- Whether a line asks for nothing. -/
def isIdle (line : Bytes) : Bool := isBlank line || (header? line).any fun h => h.method = ""

/-- The lines that are answered: those before the first that ends the service, unless they ask for nothing. -/
def heard (lines : List Bytes) : List Bytes := (lines.takeWhile (!saysBye ·)).filter (!isIdle ·)

end Line

namespace Broker

open Line

variable {b : Broker} {line : Bytes} {lines rest : List Bytes}

/-- The pool has room for a call, however few workers are asked for. -/
def room (b : Broker) : Nat := max 1 b.workers

/-- Whether a line names a method that there is. -/
def knows (b : Broker) (line : Bytes) : Bool := (header? line).any fun h => (b.methods.find? h.method).isSome

/-- The answer to a line. -/
inductive Replies (b : Broker) (line : Bytes) : Answer → Prop
  | unreadable {e : CodecError} (h : parse line = .error e) : Replies b line ⟨"", e.message, b.tag, .table []⟩
  | unknown {h : Header} {arg : Value} (hline : parse line = .ok (h, arg)) (hm : b.methods.find? h.method = none) :
      Replies b line ⟨h.token, "Invalid method " ++ h.method, b.tag, .table []⟩
  | data {h : Header} {arg v : Value} {f : Method} (hline : parse line = .ok (h, arg))
      (hm : b.methods.find? h.method = some f) (hf : f arg = .data v) :
      Replies b line ⟨h.token, "", b.tag, if v.isNull then .table [] else v⟩
  | failure {h : Header} {arg : Value} {f : Method} {reason : String} (hline : parse line = .ok (h, arg))
      (hm : b.methods.find? h.method = some f) (hf : f arg = .failure reason) :
      Replies b line ⟨h.token, reason, b.tag, .table []⟩
  | broken {h : Header} {arg : Value} {f : Method} (hline : parse line = .ok (h, arg))
      (hm : b.methods.find? h.method = some f) (hf : f arg = .broken) :
      Replies b line ⟨h.token, "broker: " ++ h.method ++ "#" ++ h.token ++ " PANIC", b.tag, .table []⟩

theorem replies_call {h : Header} {arg : Value} {f : Method} (hline : parse line = .ok (h, arg))
    (hm : b.methods.find? h.method = some f) : Replies b line (b.call h f arg) := by
  cases hf : f arg with
  | data v =>
    have hcall : b.call h f arg = ⟨h.token, "", b.tag, if v.isNull then .table [] else v⟩ := by
      rw [call, hf]
      rfl
    exact hcall ▸ .data hline hm hf
  | failure reason =>
    have hcall : b.call h f arg = ⟨h.token, reason, b.tag, .table []⟩ := by
      rw [call, hf]
      rfl
    exact hcall ▸ .failure hline hm hf
  | broken =>
    have hcall : b.call h f arg =
        ⟨h.token, "broker: " ++ h.method ++ "#" ++ h.token ++ " PANIC", b.tag, .table []⟩ := by
      rw [call, hf]
      rfl
    exact hcall ▸ .broken hline hm hf

/-! ## Orders -/

/-- What a line comes to. -/
inductive Order where
  | nothing
  /-- The line is no text. -/
  | spoiled
  | unreadable (e : CodecError)
  | bye
  | unknown (h : Header)
  | call (h : Header) (f : Method) (arg : Value)

/-- How a broker takes a line. -/
def order (b : Broker) (line : Bytes) : Order :=
  match Utf8.decode? line with
  | none => .spoiled
  | some text =>
    if Text.trim text = "" then .nothing
    else match parse line with
      | .error e => .unreadable e
      | .ok (h, arg) =>
        if h.method = "" then .nothing
        else if h.method = byeMethod then .bye
        else match b.methods.find? h.method with
          | none => .unknown h
          | some f => .call h f arg

/-- The service of lines, by what they come to. -/
theorem serveLines_cons (failure : Option String) : b.serveLines failure (line :: rest) =
    let s := b.serveLines failure rest
    match b.order line with
    | .nothing => s
    | .spoiled => { answers := [b.complaint "" "stream did not contain valid UTF-8"] }
    | .unreadable e => { s with answers := b.complaint "" e.message :: s.answers }
    | .bye => {}
    | .unknown h => { s with answers := b.complaint h.token s!"Invalid method {h.method}" :: s.answers }
    | .call h f arg => ⟨b.call h f arg :: s.answers, s.served + 1⟩ := by
  rw [serveLines, order]
  cases Utf8.decode? line with
  | none => rfl
  | some text =>
    dsimp only
    by_cases hblank : Text.trim text = ""
    · rw [if_pos hblank, if_pos hblank]
    · rw [if_neg hblank, if_neg hblank]
      cases parse line with
      | error e => rfl
      | ok x =>
        dsimp only
        by_cases hidle : x.1.method = ""
        · rw [if_pos hidle, if_pos hidle]
        · rw [if_neg hidle, if_neg hidle]
          by_cases hbye : x.1.method = byeMethod
          · rw [if_pos hbye, if_pos hbye]
          · rw [if_neg hbye, if_neg hbye]
            cases b.methods.find? x.1.method <;> rfl

/-- What a line that is a text comes to, as it is read off the line. -/
theorem order_cases (htext : (Utf8.decode? line).isSome) :
    (b.order line = .nothing ∧ isIdle line = true ∧ saysBye line = false) ∨
    (b.order line = .bye ∧ saysBye line = true) ∨
    (isIdle line = false ∧ saysBye line = false ∧
      ((∃ e, b.order line = .unreadable e ∧ parse line = .error e ∧ b.knows line = false) ∨
      (∃ h arg, b.order line = .unknown h ∧ parse line = .ok (h, arg) ∧ b.methods.find? h.method = none ∧
        b.knows line = false) ∨
      ∃ h f arg, b.order line = .call h f arg ∧ parse line = .ok (h, arg) ∧ b.methods.find? h.method = some f ∧
        b.knows line = true)) := by
  obtain ⟨text, htext⟩ := Option.isSome_iff_exists.mp htext
  rw [order, isIdle, saysBye, isBlank, knows, header?, htext]
  dsimp only [Option.any_some]
  by_cases hblank : Text.trim text = ""
  · exact .inl (by simp [hblank])
  · rw [if_neg hblank]
    cases hparse : parse line with
    | error e => exact .inr (.inr (by simp [hblank, Except.toOption]))
    | ok x =>
      obtain ⟨h, arg⟩ := x
      dsimp only [Except.toOption, Option.map_some, Option.any_some]
      by_cases hidle : h.method = ""
      · exact .inl (by simp [hidle, byeMethod])
      · rw [if_neg hidle]
        by_cases hbye : h.method = byeMethod
        · exact .inr (.inl (by simp [hbye, hblank]))
        · rw [if_neg hbye]
          refine .inr (.inr ⟨by simp [hblank, hidle], by simp [hbye], ?_⟩)
          cases hm : b.methods.find? h.method with
          | none => exact .inr (.inl ⟨h, arg, rfl, rfl, hm, rfl⟩)
          | some f => exact .inr (.inr ⟨h, f, arg, rfl, rfl, hm, rfl⟩)

/-- Each line that is heard has its answer, and calls of methods that there are are counted. -/
theorem serveLines_heard (htext : ∀ l ∈ lines, (Utf8.decode? l).isSome) :
    List.Forall₂ b.Replies (heard lines) (b.serveLines none lines).answers ∧
      (b.serveLines none lines).served = (heard lines).countP b.knows := by
  induction lines with
  | nil => exact ⟨.nil, rfl⟩
  | cons line rest ih =>
    obtain ⟨hreplies, hserved⟩ := ih fun l hl => htext l (List.mem_cons_of_mem _ hl)
    rw [serveLines_cons]
    rcases order_cases (b := b) (htext line List.mem_cons_self) with
      ⟨horder, hidle, hbye⟩ | ⟨horder, hbye⟩ | ⟨hidle, hbye, hanswer⟩
    · have hheard : heard (line :: rest) = heard rest := by simp [heard, hidle, hbye]
      rw [horder, hheard]
      exact ⟨hreplies, hserved⟩
    · have hheard : heard (line :: rest) = [] := by simp [heard, hbye]
      rw [horder, hheard]
      exact ⟨.nil, rfl⟩
    · have hheard : heard (line :: rest) = line :: heard rest := by simp [heard, hidle, hbye]
      rw [hheard, List.countP_cons]
      rcases hanswer with ⟨e, horder, hparse, hknows⟩ | ⟨h, arg, horder, hparse, hm, hknows⟩ |
        ⟨h, f, arg, horder, hparse, hm, hknows⟩ <;> rw [horder, hknows]
      · exact ⟨.cons (.unreadable hparse) hreplies, by simpa using hserved⟩
      · exact ⟨.cons (.unknown hparse hm) hreplies, by simpa using hserved⟩
      · exact ⟨.cons (replies_call hparse hm) hreplies, by simpa using hserved⟩

/-! ## At work -/

inductive Phase where
  /-- The greeting is written. -/
  | greeted
  | reading
  /-- No more lines are read, and calls may still run. -/
  | draining
  | closed
deriving DecidableEq, Repr

/-- A call that runs. -/
structure Running where
  header : Header
  method : Method
  arg : Value

/-- A broker at work. -/
structure Shift where
  phase : Phase
  unread : List Bytes
  /-- Why the input breaks off after its lines, if it does. -/
  failure : Option String
  running : List Running := []
  written : List Answer
  served : Nat := 0

def Running.answer (b : Broker) (c : Running) : Answer := b.call c.header c.method c.arg

def hello (b : Broker) (time : Nat) : Answer := ⟨helloToken, "", b.tag, .table [("time", .nat time)]⟩

def bye (b : Broker) (served uptime : Nat) : Answer :=
  ⟨byeToken, "", b.tag, .table [("served", .nat served), ("uptime", .text (Duration.render uptime))]⟩

/-- A broker that was handed its input and has written its greeting. -/
def opening (b : Broker) (time : Nat) (i : Input) : Shift :=
  { phase := .greeted, unread := i.lines.1, failure := i.lines.2, written := [b.hello time] }

/-- What a broker does at a time. -/
inductive Step (b : Broker) (x : Shift) : Shift → Prop
  /-- The pool and the channel of lines are made, if there can be so many workers. -/
  | start (hx : x.phase = .greeted) (hw : b.workers ≤ maxWorkers) : Step b x { x with phase := .reading }
  | skip {l ls} (hx : x.phase = .reading) (hl : x.unread = l :: ls) (ho : b.order l = .nothing) :
      Step b x { x with unread := ls }
  | spoiled {l ls} (hx : x.phase = .reading) (hl : x.unread = l :: ls) (ho : b.order l = .spoiled) :
      Step b x { x with
        phase := .draining, written := x.written ++ [b.complaint "" "stream did not contain valid UTF-8"] }
  | unreadable {l ls e} (hx : x.phase = .reading) (hl : x.unread = l :: ls)
      (ho : b.order l = .unreadable e) :
      Step b x { x with unread := ls, written := x.written ++ [b.complaint "" e.message] }
  | unknown {l ls h} (hx : x.phase = .reading) (hl : x.unread = l :: ls) (ho : b.order l = .unknown h) :
      Step b x { x with
        unread := ls, written := x.written ++ [b.complaint h.token s!"Invalid method {h.method}"] }
  /-- A call is handed to a worker that is free. -/
  | call {l ls h f arg} (hx : x.phase = .reading) (hl : x.unread = l :: ls)
      (ho : b.order l = .call h f arg) (hroom : x.running.length < b.room) :
      Step b x { x with unread := ls, running := x.running ++ [⟨h, f, arg⟩], served := x.served + 1 }
  | bye {l ls} (hx : x.phase = .reading) (hl : x.unread = l :: ls) (ho : b.order l = .bye) :
      Step b x { x with phase := .draining }
  /-- The input has ended. -/
  | ended (hx : x.phase = .reading) (hl : x.unread = []) :
      Step b x { x with phase := .draining, written := x.written ++ (x.failure.map (b.complaint "")).toList }
  /-- Some call returns. -/
  | finish {before after : List Running} {c : Running} (hr : x.running = before ++ c :: after) :
      Step b x { x with running := before ++ after, written := x.written ++ [c.answer b] }
  | close (uptime : Nat) (hx : x.phase = .draining) (hr : x.running = []) :
      Step b x { x with phase := .closed, written := x.written ++ [b.bye x.served uptime] }

abbrev Reached (b : Broker) (x y : Shift) : Prop := Relation.ReflTransGen (Step b) x y

variable {time uptime : Nat} {i : Input} {x y : Shift}

/-! ### An end -/

/-- What is left to do. -/
def effort (x : Shift) : Nat :=
  2 * x.unread.length + x.running.length + match x.phase with
    | .greeted => 3
    | .reading => 2
    | .draining => 1
    | .closed => 0

theorem Step.effort_lt (h : Step b x y) : effort y < effort x := by
  cases h with
  | start hx => simp [effort, hx]
  | skip hx hl => simp [effort, hx, hl]
  | spoiled hx => simp [effort, hx]
  | unreadable hx hl => simp [effort, hx, hl]
  | unknown hx hl => simp [effort, hx, hl]
  | call hx hl => simp [effort, hx, hl]; omega
  | bye hx => simp [effort, hx]
  | ended hx => simp [effort, hx]
  | finish hr => simp [effort, hr]
  | close uptime hx => simp [effort, hx]

theorem wellFounded_step (b : Broker) : WellFounded fun y x => Step b x y :=
  Subrelation.wf Step.effort_lt (measure effort).wf

/-- A broker that is not done has something to do. -/
theorem exists_step (hw : b.workers ≤ maxWorkers) (hx : x.phase ≠ .closed) : ∃ y, Step b x y := by
  cases hr : x.running with
  | cons c after => exact ⟨_, .finish (show x.running = [] ++ c :: after from hr)⟩
  | nil =>
    cases hp : x.phase with
    | greeted => exact ⟨_, .start hp hw⟩
    | draining => exact ⟨_, .close 0 hp hr⟩
    | closed => exact absurd hp hx
    | reading =>
      cases hl : x.unread with
      | nil => exact ⟨_, .ended hp hl⟩
      | cons line rest =>
        have hroom : x.running.length < b.room := by simp [hr, room]
        cases ho : b.order line with
        | nothing => exact ⟨_, .skip hp hl ho⟩
        | spoiled => exact ⟨_, .spoiled hp hl ho⟩
        | unreadable e => exact ⟨_, .unreadable hp hl ho⟩
        | unknown h => exact ⟨_, .unknown hp hl ho⟩
        | call h f arg => exact ⟨_, .call hp hl ho hroom⟩
        | bye => exact ⟨_, .bye hp hl ho⟩

/-! ### Answers -/

/-- What is owed to the lines that were not read yet. -/
def owed (b : Broker) (x : Shift) : Service :=
  match x.phase with
  | .greeted | .reading => b.serveLines x.failure x.unread
  | .draining | .closed => {}

theorem owed_reading (hx : x.phase = .reading) : b.owed x = b.serveLines x.failure x.unread := by
  rw [owed, hx]

theorem owed_draining (hx : x.phase = .draining) : b.owed x = {} := by
  rw [owed, hx]

/-- The answers of the calls that run. -/
def pending (b : Broker) (x : Shift) : List Answer := x.running.map (Running.answer b)

/-- How a broker's writing ends. -/
def Parts (b : Broker) (x : Shift) (farewell : List Answer) : Prop :=
  if x.phase = .closed then x.running = [] ∧ ∃ uptime, farewell = [b.bye x.served uptime] else farewell = []

/-- The answers that were written, those of the calls that run and those that are owed are all that there are to
be. -/
structure Balanced (b : Broker) (time : Nat) (all : Service) (x : Shift) : Prop where
  written : ∃ answers farewell, x.written = b.hello time :: answers ++ farewell ∧ b.Parts x farewell ∧
    (answers ++ (b.pending x ++ (b.owed x).answers)).Perm all.answers
  served : x.served + (b.owed x).served = all.served
  busy : x.running.length ≤ b.room

namespace Balanced

variable {all : Service}

theorem opening (b : Broker) (time : Nat) (i : Input) :
    Balanced b time (b.serveLines i.lines.2 i.lines.1) (b.opening time i) :=
  ⟨⟨[], [], rfl, rfl, .refl _⟩, Nat.zero_add _, Nat.zero_le _⟩

/-- What is written comes off what was to come. -/
theorem next (h : Balanced b time all x) (hx : x.phase ≠ .closed) (hy : y.phase ≠ .closed) (more : List Answer)
    (hwritten : y.written = x.written ++ more)
    (hperm : (more ++ (b.pending y ++ (b.owed y).answers)).Perm (b.pending x ++ (b.owed x).answers))
    (hserved : y.served + (b.owed y).served = x.served + (b.owed x).served) (hbusy : y.running.length ≤ b.room) :
    Balanced b time all y := by
  obtain ⟨⟨answers, farewell, hw, hparts, hall⟩, hcount, -⟩ := h
  rw [Parts, if_neg hx] at hparts
  refine ⟨⟨answers ++ more, [], ?_, by rw [Parts, if_neg hy], ?_⟩, hserved.trans hcount, hbusy⟩
  · rw [hwritten, hw, hparts]
    simp
  · rw [List.append_assoc]
    exact (hperm.append_left answers).trans hall

theorem step (h : Balanced b time all x) (hstep : Step b x y) : Balanced b time all y := by
  cases hstep with
  | start hx hw =>
    have howed : b.owed { x with phase := .reading } = b.owed x := by rw [owed, owed, hx]
    exact h.next (by simp [hx]) (by simp) [] (by simp) (by rw [howed]; exact .refl _) (by rw [howed]) h.busy
  | skip hx hl ho =>
    refine h.next (by simp [hx]) (by simp [hx]) [] (by simp) ?_ ?_ h.busy
    all_goals rw [owed_reading hx, owed_reading (by exact hx), hl, serveLines_cons, ho]
    exact .refl _
  | spoiled hx hl ho =>
    refine h.next (by simp [hx]) (by simp) _ rfl ?_ ?_ h.busy
    all_goals rw [owed_reading hx, owed_draining rfl, hl, serveLines_cons, ho]
    show ([_] ++ (b.pending x ++ [])).Perm (b.pending x ++ [_])
    rw [List.append_nil]
    exact List.perm_append_comm
  | unreadable hx hl ho =>
    refine h.next (by simp [hx]) (by simp [hx]) _ rfl ?_ ?_ h.busy
    all_goals rw [owed_reading hx, owed_reading (by exact hx), hl, serveLines_cons, ho]
    show (_ :: (b.pending x ++ _)).Perm (b.pending x ++ _ :: _)
    exact List.perm_middle.symm
  | unknown hx hl ho =>
    refine h.next (by simp [hx]) (by simp [hx]) _ rfl ?_ ?_ h.busy
    all_goals rw [owed_reading hx, owed_reading (by exact hx), hl, serveLines_cons, ho]
    show (_ :: (b.pending x ++ _)).Perm (b.pending x ++ _ :: _)
    exact List.perm_middle.symm
  | call hx hl ho hroom =>
    refine h.next (by simp [hx]) (by simp [hx]) [] (by simp) ?_ ?_ (by simpa using hroom)
    all_goals rw [owed_reading hx, owed_reading (by exact hx), hl, serveLines_cons, ho]
    · simp [pending, Running.answer]
    · dsimp only
      omega
  | bye hx hl ho =>
    refine h.next (by simp [hx]) (by simp) [] (by simp) ?_ ?_ h.busy
    all_goals rw [owed_reading hx, owed_draining rfl, hl, serveLines_cons, ho]
    exact .refl _
  | ended hx hl =>
    refine h.next (by simp [hx]) (by simp) _ rfl ?_ ?_ h.busy
    all_goals rw [owed_reading hx, owed_draining rfl, hl, serveLines]
    show (_ ++ (b.pending x ++ [])).Perm (b.pending x ++ _)
    rw [List.append_nil]
    exact List.perm_append_comm
  | @finish before after c hr =>
    have hopen : x.phase ≠ .closed := by
      intro hclosed
      obtain ⟨answers, farewell, -, hparts, -⟩ := h.written
      rw [Parts, if_pos hclosed, hr] at hparts
      simp at hparts
    have hbusy := h.busy
    rw [hr] at hbusy
    refine h.next hopen hopen _ rfl ?_ rfl (by simp at hbusy ⊢; omega)
    have hpending : b.pending x = before.map (Running.answer b) ++ c.answer b :: after.map (Running.answer b) := by
      simp [pending, hr]
    rw [hpending, ← List.append_assoc]
    refine List.Perm.append_right _ ?_
    simpa [pending] using List.perm_middle.symm
  | close uptime hx hr =>
    obtain ⟨⟨answers, farewell, hw, hparts, hall⟩, hcount, hbusy⟩ := h
    rw [Parts, if_neg (by simp [hx])] at hparts
    rw [owed_draining hx] at hall hcount
    refine ⟨⟨answers, [b.bye x.served uptime], by simp [hw, hparts], ?_, hall⟩, hcount, hbusy⟩
    rw [Parts, if_pos rfl]
    exact ⟨hr, uptime, rfl⟩

theorem reached (h : Balanced b time all x) (hxy : Reached b x y) : Balanced b time all y := by
  induction hxy with
  | refl => exact h
  | tail _ hstep ih => exact ih.step hstep

end Balanced

/-! ### One call after another -/

/-- The only call that runs returns. -/
theorem Step.finish_only {c : Running} (hr : x.running = [c]) :
    Step b x { x with running := [], written := x.written ++ [c.answer b] } :=
  .finish (show x.running = [] ++ c :: [] from hr)

/-- A broker may let each call return before it reads on. -/
theorem exists_reached_serveLines (x : Shift) (hx : x.phase = .reading) (hr : x.running = []) :
    ∃ y, Reached b x y ∧ y.phase = .draining ∧ y.running = [] ∧
      y.written = x.written ++ (b.serveLines x.failure x.unread).answers ∧
      y.served = x.served + (b.serveLines x.failure x.unread).served := by
  obtain ⟨phase, unread, failure, running, written, served⟩ := x
  dsimp only at hx hr ⊢
  subst hx hr
  induction unread generalizing written served with
  | nil => exact ⟨_, .single (.ended rfl rfl), rfl, rfl, rfl, rfl⟩
  | cons line rest ih =>
    rw [serveLines_cons]
    cases ho : b.order line with
    | nothing =>
      obtain ⟨y, hy, hrest⟩ := ih written served
      exact ⟨y, .head (.skip rfl rfl ho) hy, hrest⟩
    | spoiled => exact ⟨_, .single (.spoiled rfl rfl ho), rfl, rfl, rfl, rfl⟩
    | bye => exact ⟨_, .single (.bye rfl rfl ho), rfl, rfl, by simp, rfl⟩
    | unreadable e =>
      obtain ⟨y, hy, hphase, hrunning, hwritten, hserved⟩ := ih (written ++ [b.complaint "" e.message]) served
      exact ⟨y, .head (.unreadable rfl rfl ho) hy, hphase, hrunning, by simp [hwritten], hserved⟩
    | unknown h =>
      obtain ⟨y, hy, hphase, hrunning, hwritten, hserved⟩ :=
        ih (written ++ [b.complaint h.token s!"Invalid method {h.method}"]) served
      exact ⟨y, .head (.unknown rfl rfl ho) hy, hphase, hrunning, by simp [hwritten], hserved⟩
    | call h f arg =>
      obtain ⟨y, hy, hphase, hrunning, hwritten, hserved⟩ := ih (written ++ [b.call h f arg]) (served + 1)
      have hroom : ([] : List Running).length < b.room := by simp [room]
      refine ⟨y, .head (.call rfl rfl ho hroom) (.head (.finish_only rfl) hy), hphase, hrunning,
        by simp [hwritten], ?_⟩
      rw [hserved]
      dsimp only
      omega

/-- What is served one call after another is one way in which a broker works. -/
theorem exists_reached_serve (hw : b.workers ≤ maxWorkers) (time uptime : Nat) (i : Input) :
    ∃ x, Reached b (b.opening time i) x ∧ x.phase = .closed ∧ b.serve time uptime i = ⟨x.written, x.served⟩ := by
  obtain ⟨y, hy, hphase, hrunning, hwritten, hserved⟩ :=
    exists_reached_serveLines (b := b) { b.opening time i with phase := .reading } rfl rfl
  have hclose : Step b y { y with phase := .closed, written := y.written ++ [b.bye y.served uptime] } :=
    .close uptime hphase hrunning
  refine ⟨_, .head (.start rfl hw) (hy.tail hclose), rfl, ?_⟩
  have hrefusal : b.refusal? = none := if_pos hw
  have hserved : y.served = (b.serveLines i.lines.2 i.lines.1).served := hserved.trans (Nat.zero_add _)
  have hwritten : y.written = b.hello time :: (b.serveLines i.lines.2 i.lines.1).answers := hwritten
  rw [serve, hrefusal, hserved, hwritten]
  rfl

/-! ## The whole service -/

/-- Whatever a broker with its input, a text, does and in which order its calls return, it comes to an end, and then
it has written a greeting, an answer to each line that is heard, and a farewell. -/
theorem answers_every_call (b : Broker) (hw : b.workers ≤ maxWorkers) (time : Nat) {i : Input} {text : String}
    (htext : Utf8.decode? i.bytes = some text) (hi : i.failure = none) :
    (WellFounded fun y x => Step b x y) ∧
    (∀ x, Reached b (b.opening time i) x → x.phase ≠ .closed → ∃ y, Step b x y) ∧
    (∀ x, Reached b (b.opening time i) x → x.phase = .closed → ∃ written answers uptime,
      x.written = ⟨"margo.hello", "", b.tag, .table [("time", .nat time)]⟩ :: written ++
        [⟨"margo.bye-ni", "", b.tag,
          .table [("served", .nat x.served), ("uptime", .text (Duration.render uptime))]⟩] ∧
      written.Perm answers ∧ List.Forall₂ b.Replies (heard i.lines.1) answers ∧
      x.served = (heard i.lines.1).countP b.knows) ∧
    ∀ uptime, ∃ x, Reached b (b.opening time i) x ∧ x.phase = .closed ∧
      b.serve time uptime i = ⟨x.written, x.served⟩ := by
  refine ⟨wellFounded_step b, fun x _ hx => exists_step hw hx, fun x hreached hclosed => ?_,
    fun uptime => exists_reached_serve hw time uptime i⟩
  have hlines := Input.isSome_decode?_of_mem_lines (by rw [htext]; rfl : (Utf8.decode? i.bytes).isSome)
  obtain ⟨hreplies, hserved⟩ := serveLines_heard (b := b) hlines
  rw [← hi, ← i.failure_lines] at hreplies hserved
  obtain ⟨⟨answers, farewell, hwritten, hparts, hperm⟩, hcount, -⟩ := (Balanced.opening b time i).reached hreached
  rw [Parts, if_pos hclosed] at hparts
  obtain ⟨hrunning, uptime, rfl⟩ := hparts
  have howed : b.owed x = {} := by rw [owed, hclosed]
  rw [howed, pending, hrunning] at hperm
  rw [howed] at hcount
  exact ⟨answers, _, uptime, hwritten, by simpa using hperm, hreplies, hcount.trans hserved⟩

/-- The input is one call. -/
theorem answers_every_call_env :
    let b : Broker := ⟨"t", .builtins ⟨[]⟩, 2⟩
    let i : Input := ⟨Utf8.encode "\x7b\"Method\":\"env\"\x7d", none⟩
    b.workers ≤ maxWorkers ∧ Utf8.decode? i.bytes = some "\x7b\"Method\":\"env\"\x7d" ∧
      i.failure = none ∧ ∀ x, Reached b (b.opening 0 i) x → x.phase = .closed → x.served = 1 := by
  intro b i
  have hw : b.workers ≤ maxWorkers := by decide
  have htext : Utf8.decode? i.bytes = some "\x7b\"Method\":\"env\"\x7d" := by cbv
  refine ⟨hw, htext, rfl, fun x hreached hclosed => ?_⟩
  obtain ⟨-, -, hall, -⟩ := answers_every_call b hw 0 htext rfl
  obtain ⟨-, -, -, -, -, -, hserved⟩ := hall x hreached hclosed
  have hcount : (heard i.lines.1).countP b.knows = 1 := by cbv
  exact hserved.trans hcount

/-- With more workers than there can be, a broker breaks off after its greeting. -/
theorem not_farewell_of_crowd :
    let b : Broker := ⟨"t", {}, 2 ^ 61⟩
    let i : Input := ⟨[], none⟩
    1 ≤ b.workers ∧ Utf8.decode? i.bytes = some "" ∧ (∀ x, ¬ Step b (b.opening 0 i) x) ∧
      ¬ ∃ before farewell, (b.serve 0 0 i).answers = before ++ [farewell] ∧ farewell.token = byeToken := by
  intro b i
  have hw : ¬ b.workers ≤ maxWorkers := by decide
  refine ⟨by decide, by cbv, ?_, ?_⟩
  · rintro x hstep
    cases hstep with
    | start hx h => exact hw h
    | skip hx | spoiled hx | unreadable hx | unknown hx | call hx | bye hx | ended hx => cases hx
    | finish hr => simp [opening] at hr
    | close uptime hx => cases hx
  · rintro ⟨before, farewell, hanswers, htoken⟩
    have hserve : (b.serve 0 0 i).answers = [b.hello 0] := by rw [serve, refusal?, if_neg hw]; rfl
    rw [hserve] at hanswers
    obtain ⟨rfl, rfl⟩ : before = [] ∧ b.hello 0 = farewell := by
      cases before <;> simp_all
    exact absurd htoken (by decide)

end Broker
end EditorAgent

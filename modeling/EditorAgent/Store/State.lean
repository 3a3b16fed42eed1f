import EditorAgent.Store.Env
import EditorAgent.Store.View

/-!
# State

Everything the editor is shown. Statuses, errors, completions, issues and tooltips last for one
reduction; commands, configuration, view and environment stay.
-/

namespace EditorAgent

structure EditorConfig where
  /-- Languages the editor forwards events for; none means all. -/
  enabledForLangs : List String := []
  settings : Value := .null
deriving Repr, Inhabited

structure Completion where
  query : String := ""
  title : String := ""
  src : String := ""
  tag : String := ""
deriving DecidableEq, Repr, Inhabited

inductive IssueTag where
  | error
  | warning
  | notice
deriving DecidableEq, Repr, Inhabited

structure Issue where
  path : String := ""
  name : String := ""
  row : Nat := 0
  col : Nat := 0
  stop : Nat := 0
  tag : IssueTag := .error
  label : String := ""
  message : String := ""
deriving DecidableEq, Repr, Inhabited

structure Tooltip where
  content : String := ""
deriving DecidableEq, Repr, Inhabited

structure UserCmd where
  title : String := ""
  desc : String := ""
  name : String := ""
  args : List String := []
deriving DecidableEq, Repr, Inhabited

structure State where
  status : List String := []
  errors : List String := []
  completions : List Completion := []
  issues : List Issue := []
  tooltips : List Tooltip := []
  userCmds : List UserCmd := []
  config : Option EditorConfig := none
  view : View := {}
  env : Env := .empty
deriving Repr, Inhabited

namespace EditorConfig

def toValue (c : EditorConfig) : Value :=
  .table [("EnabledForLangs", .texts c.enabledForLangs), ("Settings", c.settings)]

def reader (d : Dialect) : Reader EditorConfig :=
  d.record [
    .opt "EnabledForLangs" (d.list d.text) fun x c => { c with enabledForLangs := x },
    .opt "Settings" d.value fun x c => { c with settings := x }] {}

instance : Message EditorConfig := ⟨reader, toValue⟩

end EditorConfig

namespace Completion

def toValue (c : Completion) : Value :=
  .table [("Query", .text c.query), ("Title", .text c.title), ("Src", .text c.src),
    ("Tag", .text c.tag)]

def reader (d : Dialect) : Reader Completion :=
  d.record [
    .opt "Query" d.text fun x c => { c with query := x },
    .opt "Title" d.text fun x c => { c with title := x },
    .opt "Src" d.text fun x c => { c with src := x },
    .opt "Tag" d.text fun x c => { c with tag := x }] {}

instance : Message Completion := ⟨reader, toValue⟩

end Completion

namespace IssueTag

def name : IssueTag → String
  | .error => "error"
  | .warning => "warning"
  | .notice => "notice"

def all : List IssueTag := [.error, .warning, .notice]

def toValue (t : IssueTag) : Value := .text t.name

def reader (d : Dialect) : Reader IssueTag := (d.choice (all.map name)).map fun i => all.getD i .error

instance : Message IssueTag := ⟨reader, toValue⟩

end IssueTag

namespace Issue

def warning (message : String) : Issue := { tag := .warning, message }

/-- An issue needs a place and a message. -/
def isValid (i : Issue) : Bool := (i.path != "" || i.name != "") && i.message != ""

/-- The number after a 64-bit number; the last is followed by zero. -/
def succ64 (n : Nat) : Nat := (n + 1) % 0x10000000000000000

/-- `place:row:column: message`, rows and columns from one. -/
def display (i : Issue) : String :=
  let place := if i.path = "" then i.name else i.path
  s!"{place}:{succ64 i.row}:{succ64 i.col}: {i.message}"

def toValue (i : Issue) : Value :=
  .table [("Path", .text i.path), ("Name", .text i.name), ("Row", .nat i.row), ("Col", .nat i.col),
    ("End", .nat i.stop), ("Tag", i.tag.toValue), ("Label", .text i.label),
    ("Message", .text i.message)]

def reader (d : Dialect) : Reader Issue :=
  d.record [
    .opt "Path" d.text fun x i => { i with path := x },
    .opt "Name" d.text fun x i => { i with name := x },
    .opt "Row" d.natural fun x i => { i with row := x },
    .opt "Col" d.natural fun x i => { i with col := x },
    .opt "End" d.natural fun x i => { i with stop := x },
    .opt "Tag" (IssueTag.reader d) fun x i => { i with tag := x },
    .opt "Label" d.text fun x i => { i with label := x },
    .opt "Message" d.text fun x i => { i with message := x }] {}

instance : Message Issue := ⟨reader, toValue⟩

end Issue

namespace Tooltip

def toValue (t : Tooltip) : Value := .table [("Content", .text t.content)]

def reader (d : Dialect) : Reader Tooltip :=
  d.record [.opt "Content" d.text fun x t => { t with content := x }] {}

instance : Message Tooltip := ⟨reader, toValue⟩

end Tooltip

namespace UserCmd

def toValue (c : UserCmd) : Value :=
  .table [("Title", .text c.title), ("Desc", .text c.desc), ("Name", .text c.name),
    ("Args", .texts c.args)]

def reader (d : Dialect) : Reader UserCmd :=
  d.record [
    .opt "Title" d.text fun x c => { c with title := x },
    .opt "Desc" d.text fun x c => { c with desc := x },
    .opt "Name" d.text fun x c => { c with name := x },
    .opt "Args" (d.list d.text) fun x c => { c with args := x }] {}

instance : Message UserCmd := ⟨reader, toValue⟩

end UserCmd

namespace State

/-- Drops what lasts for one reduction. -/
def resetEphemeral (s : State) : State :=
  { userCmds := s.userCmds, config := s.config, view := s.view, env := s.env }

/-- Adds a status unless it is empty or there already. -/
def addStatus (s : State) (item : String) : State :=
  if item = "" || s.status.contains item then s else { s with status := s.status ++ [item] }

def addStatuses (s : State) (items : List String) : State := items.foldl addStatus s

/-- Adds an error unless it is empty. -/
def addError (s : State) (message : String) : State :=
  if message = "" then s else { s with errors := s.errors ++ [message] }

def addCompletions (s : State) (items : List Completion) : State :=
  { s with completions := s.completions ++ items }

def addIssues (s : State) (items : List Issue) : State := { s with issues := s.issues ++ items }

def addTooltips (s : State) (items : List Tooltip) : State :=
  { s with tooltips := s.tooltips ++ items }

def addUserCmds (s : State) (items : List UserCmd) : State :=
  { s with userCmds := s.userCmds ++ items }

def setSrc (s : State) (src : Bytes) : State := { s with view := s.view.setSrc src }

def joinedErrors (s : State) : String := Text.join "\n" s.errors

def toValue (s : State) : Value :=
  .table [("Status", .texts s.status), ("Errors", .texts s.errors),
    ("Completions", .list (s.completions.map Completion.toValue)),
    ("Issues", .list (s.issues.map Issue.toValue)),
    ("Tooltips", .list (s.tooltips.map Tooltip.toValue)),
    ("UserCmds", .list (s.userCmds.map UserCmd.toValue)),
    ("Config", match s.config with
      | some c => c.toValue
      | none => .null),
    ("View", s.view.toValue), ("Env", s.env.toValue)]

def reader (d : Dialect) : Reader State :=
  d.record [
    .opt "Status" (d.list d.text) fun x s => { s with status := x },
    .opt "Errors" (d.list d.text) fun x s => { s with errors := x },
    .opt "Completions" (d.list (Completion.reader d)) fun x s => { s with completions := x },
    .opt "Issues" (d.list (Issue.reader d)) fun x s => { s with issues := x },
    .opt "Tooltips" (d.list (Tooltip.reader d)) fun x s => { s with tooltips := x },
    .opt "UserCmds" (d.list (UserCmd.reader d)) fun x s => { s with userCmds := x },
    .opt "Config" (d.optional (EditorConfig.reader d)) fun x s => { s with config := x },
    .opt "View" (View.reader d) fun x s => { s with view := x },
    .opt "Env" (Env.reader d) fun x s => { s with env := x }] {}

instance : Message State := ⟨reader, toValue⟩

end State
end EditorAgent

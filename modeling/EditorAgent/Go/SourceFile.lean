import EditorAgent.Go.Grammar
import EditorAgent.Syntax.Run

/-!
# Source files

What is known of a Go source file: its package, imports, declarations and the names it uses. All of it is read off the
syntax tree, also where that has mistakes.
-/

namespace EditorAgent.Go

open Syntax

/-- How much of a file matters. -/
inductive ParseMode where
  | full
  /-- Mistakes inside function bodies are passed over. -/
  | skipBodies
deriving DecidableEq, Repr, Inhabited

structure ImportSpec where
  path : String
  /-- An explicit package name, `.` or `_`. -/
  name : Option String
  row : Nat
  col : Nat
deriving DecidableEq, Repr, Inhabited

/-- A declaration at the top of a file. -/
structure Decl where
  name : String
  row : Nat
  col : Nat
deriving DecidableEq, Repr, Inhabited

structure SyntaxError where
  row : Nat
  col : Nat
  message : String
deriving DecidableEq, Repr, Inhabited

structure SourceFile where
  package : String := ""
  imports : List ImportSpec := []
  decls : List Decl := []
  /-- Names used outside the package clause and the imports, sorted, each once. -/
  uses : List String := []
  error : Option SyntaxError := none
  /-- Whether there is a mistake anywhere, function bodies included. -/
  brokenBody : Bool := false
  /-- Set for an empty source. -/
  stub : Bool := false
deriving DecidableEq, Repr, Inhabited

namespace SourceFile

def isCgo (f : SourceFile) : Bool := f.imports.any fun i => i.path == "C"

def importPaths (f : SourceFile) : List String := f.imports.map (·.path)

/-- A list of names, sorted, each once. -/
def nameSet (names : List String) : List String := (names.mergeSort fun a b => a ≤ b).eraseReps

variable (src : Source)

def textOf (n : Node) : String := src.text n.start.bytes n.info.size.bytes

def unquoted (s : String) : String :=
  let isQuote c := c == '"' || c == '\x60'
  String.ofList ((((s.toList.dropWhile isQuote).reverse).dropWhile isQuote).reverse)

def packageOf (clause : Node) : Option String :=
  (clause.namedChildren.find? (·.kind == "package_identifier")).map (textOf src)

def importOf? (spec : Node) : Option ImportSpec := do
  let path := unquoted (textOf src (← spec.child? "path"))
  if path.isEmpty then none
  return ⟨path, (spec.child? "name").map (textOf src), spec.start.rows, spec.start.cols⟩

mutual

def importsOf : Node → List ImportSpec
  | .mk _ cs => importsOfAll cs

def importsOfAll : List Node → List ImportSpec
  | [] => []
  | .mk i cs :: r =>
    let own :=
      if !i.isNamed then []
      else if i.kind = "ImportSpec" then (importOf? src (.mk i cs)).toList
      else if i.kind = "ImportSpecs" then importsOf (.mk i cs)
      else []
    own ++ importsOfAll r

end

/-- The nodes that name what a declaration declares. -/
def declared (n : Node) : List Node :=
  if n.kind = "FuncDecl" then ((n.child? "name").toList).filter fun c => textOf src c != "init"
  else n.namedChildren.flatMap fun s =>
    let specs := if s.kind = "VarSpecs" then s.namedChildren else [s]
    specs.flatMap (·.childrenIn "name")

def declsOf (n : Node) : List Decl :=
  (declared src n).filterMap fun c =>
    let name := textOf src c
    if name = "" || name = "_" then none else some ⟨name, c.start.rows, c.start.cols⟩

mutual

/-- The names in a node. -/
def usesOf : Node → List String
  | .mk i cs =>
    let own := if i.kind = "identifier" || i.kind = "package_identifier" then [textOf src (.mk i cs)] else []
    own ++ usesOfAll cs

def usesOfAll : List Node → List String
  | [] => []
  | .mk i cs :: r => (if i.isNamed then usesOf (.mk i cs) else []) ++ usesOfAll r

end

def isDeclaration (kind : String) : Bool :=
  kind = "FuncDecl" || kind = "TypeDecl" || kind = "VarDecl" || kind = "ConstDecl"

def takesBody (kind : String) : Bool := kind = "FuncDecl" || kind = "MethodDecl" || kind = "FuncLit"

mutual

/-- The first mistake in a node. -/
def errorIn (mode : ParseMode) (parent : String) : Node → Option SyntaxError
  | .mk i cs =>
    if mode = .skipBodies && i.kind = "Block" && takesBody parent then none
    else if i.isMissing then some ⟨i.start.rows, i.start.cols, "syntax error: missing " ++ i.kind⟩
    else if i.isError then some ⟨i.start.rows, i.start.cols, "syntax error: unexpected input"⟩
    else if i.hasError then errorInAll mode i.kind cs
    else none

def errorInAll (mode : ParseMode) (parent : String) : List Node → Option SyntaxError
  | [] => none
  | n :: r => errorIn mode parent n <|> errorInAll mode parent r

end

/-- Adds what a part of the file at its top tells. -/
def addPart (f : SourceFile) (n : Node) : SourceFile :=
  if n.kind = "PackageClause" then { f with package := (packageOf src n).getD f.package }
  else if n.kind = "ImportDecl" then { f with imports := f.imports ++ importsOf src n }
  else
    let decls := if isDeclaration n.kind then declsOf src n else []
    { f with decls := f.decls ++ decls, uses := f.uses ++ usesOf src n }

def ofNode (mode : ParseMode) (root : Node) : SourceFile :=
  let f := root.namedChildren.foldl (addPart src) {}
  { f with uses := nameSet f.uses, error := errorIn mode "" root, brokenBody := root.info.hasError }

def parse (mode : ParseMode) (bytes : Bytes) : SourceFile :=
  if bytes.isEmpty then { stub := true }
  else match language.parse bytes with
    | some root => ofNode (Source.ofBytes bytes) mode root
    | none => { error := some ⟨0, 0, "Failed to parse source code"⟩ }

end SourceFile
end EditorAgent.Go

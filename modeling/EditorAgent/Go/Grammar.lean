import EditorAgent.Go.Lexicon
import EditorAgent.Syntax.Language

/-!
# The grammar of Go

What is read as Go: declarations as in the language, and statements also at the top of a file. A newline, a
semicolon and NUL end a statement; a newline does so only where a statement can end.
-/

namespace EditorAgent.Go

open Syntax Rule

namespace Grammar

def primary : Int := 7
def unary : Int := 6

def ended : Rule := choice ["newline", ";", "\x00"]

def name : Rule := "identifier"
def typeName : Rule := as "type_identifier" "identifier"
def fieldName : Rule := as "field_identifier" "identifier"
def packageName : Rule := as "package_identifier" "identifier"
def labelName : Rule := as "label_name" "identifier"

/-- A type, in brackets or not. -/
def anyType : Rule := choice ["Type", "ParenType"]
def anyString : Rule := choice ["RawString", "String"]
def topLevel : Rule := choice ["PackageClause", "FuncDecl", "MethodDecl", "ImportDecl"]
def interfaceElem : Rule := choice ["MethodElem", "TypeElem"]
def result : Rule := opt (choice ["Params", "Type"])
def statements : Rule := opt "StatementList"

/-- Entries with ends of statements between them, perhaps one after the last. -/
def lines (r : Rule) : Rule := opt (seq [r, any (seq [ended, r]), opt ended])

def multiplicative : List String := ["*", "/", "%", "<<", ">>", "&", "&^"]
def additive : List String := ["+", "-", "|", "^"]
def comparative : List String := ["==", "!=", "<", "<=", ">", ">="]

def oneOf (ops : List String) : Rule := choice (ops.map ref)

def binary (strength : Int) (ops : List String) : Rule :=
  leftStrong strength (seq ["Expr", oneOf ops, "Expr"])

def assignOps : Rule := oneOf (((multiplicative ++ additive).map (· ++ "=")) ++ ["="])

def node (name : String) (r : Rule) : NamedRule := ⟨name, .named, r⟩
def family (name : String) (r : Rule) : NamedRule := ⟨name, .family, r⟩
def hidden (name : String) (r : Rule) : NamedRule := ⟨name, .hidden, r⟩

def declarations : List NamedRule :=
  [node "SourceFile" (seq [any (choice [seq ["Statement", ended], seq [topLevel, ended]]), opt topLevel]),
   node "PackageClause" (seq ["package", packageName]),
   node "ImportDecl" (seq ["import", choice ["ImportSpec", "ImportSpecs"]]),
   node "ImportSpec" (seq [opt (field "name" (choice ["Dot", "_", packageName])), field "path" anyString]),
   node "Dot" ".",
   node "ImportSpecs" (seq ["(", lines "ImportSpec", ")"]),
   hidden "Declaration" (choice ["ConstDecl", "TypeDecl", "VarDecl"]),
   node "ConstDecl" (seq ["const", choice ["ConstSpec", seq ["(", any (seq ["ConstSpec", ended]), ")"]]]),
   node "ConstSpec" (leftStrong 0 (seq
     [field "name" (listed name), opt (seq [opt anyType, "=", "ExprList"])])),
   node "VarDecl" (seq ["var", choice ["VarSpec", "VarSpecs"]]),
   node "VarSpec" (seq [listed (field "name" name),
     choice [seq [anyType, opt (seq ["=", "ExprList"])], seq ["=", "ExprList"]]]),
   node "VarSpecs" (seq ["(", any (seq ["VarSpec", ended]), ")"]),
   node "FuncDecl" (rightStrong 1 (seq
     ["func", field "name" name, opt "TypeParams", "Params", result, opt "Block"])),
   node "MethodDecl" (rightStrong 1 (seq
     ["func", "Params", field "name" fieldName, "Params", result, opt "Block"])),
   node "TypeParams" (seq ["[", listed "TypeParam", opt ",", "]"]),
   node "TypeParam" (seq [listed (field "name" name), "TypeElem"]),
   node "Params" (seq ["(", opt (seq [opt (listed (choice ["Param", "VariadicParam"])), opt ","]), ")"]),
   node "Param" (seq [opt (listed (field "name" name)), anyType]),
   node "VariadicParam" (seq [opt (field "name" name), "...", anyType]),
   node "TypeAlias" (seq [field "name" typeName, opt "TypeParams", "=", anyType]),
   node "TypeDecl" (seq ["type", choice ["TypeSpec", "TypeAlias",
     seq ["(", any (seq [choice ["TypeSpec", "TypeAlias"], ended]), ")"]]]),
   node "TypeSpec" (weighing 1 (seq [field "name" typeName, opt "TypeParams", anyType])),
   node "ExprList" (listed "Expr")]

def types : List NamedRule :=
  [node "ParenType" (seq ["(", anyType, ")"]),
   family "Type" (choice [weighing (-1) typeName, "GenericType", "QualifiedType", "PointerType", "StructType",
     "InterfaceType", "ArrayType", "SliceType", "MapType", "ChanType", "FuncType", "NegatedType"]),
   node "GenericType" (weighing 1 (seq [choice [typeName, "QualifiedType", "NegatedType"], "TypeArgs"])),
   node "TypeArgs" (weighing 2 (seq ["[", listed "TypeElem", opt ",", "]"])),
   node "PointerType" (strong unary (seq ["*", anyType])),
   node "ArrayType" (rightStrong 0 (seq ["[", "Expr", "]", anyType])),
   node "OpenArrayType" (seq ["[", "...", "]", anyType]),
   node "SliceType" (rightStrong 0 (seq ["[", "]", anyType])),
   node "StructType" (seq ["struct", "Fields"]),
   node "NegatedType" (leftStrong 0 (seq ["~", anyType])),
   node "Fields" (seq ["\x7b", lines "Field", "\x7d"]),
   node "Field" (seq
     [choice [seq [listed (field "name" fieldName), anyType],
        seq [opt "*", choice [typeName, "QualifiedType", "GenericType"]]],
      opt anyString]),
   node "InterfaceType" (seq ["interface", "\x7b", lines interfaceElem, "\x7d"]),
   node "MethodElem" (seq [field "name" fieldName, "Params", result]),
   node "TypeElem" (separated "|" anyType),
   node "MapType" (rightStrong 0 (seq ["map", "[", anyType, "]", anyType])),
   node "ChanType" (leftStrong 0 (choice [seq ["chan", anyType], seq ["chan", "<-", anyType],
     strong unary (seq ["<-", "chan", anyType])])),
   node "FuncType" (rightStrong 0 (seq ["func", "Params", result]))]

def statementRules : List NamedRule :=
  [node "Block" (seq ["\x7b", statements, "\x7d"]),
   hidden "StatementList" (choice
     [seq ["Statement", any (seq [ended, "Statement"]), opt (seq [ended, opt "EmptyLabeled"])], "EmptyLabeled"]),
   family "Statement" (choice ["Declaration", "SimpleStatement", "Return", "Go", "Defer", "If", "For",
     "ExprSwitch", "TypeSwitch", "Select", "Labeled", "Fallthrough", "Break", "Continue", "Goto", "Block",
     "Empty"]),
   node "Empty" ";",
   family "SimpleStatement" (choice ["ExprStatement", "Send", "Inc", "Dec", "Assign", "ShortVarDecl"]),
   node "ExprStatement" "Expr",
   node "Send" (seq ["Expr", "<-", "Expr"]),
   node "Receive" (seq [opt (seq ["ExprList", choice ["=", ":="]]), "Expr"]),
   node "Inc" (seq ["Expr", "++"]),
   node "Dec" (seq ["Expr", "--"]),
   node "Assign" (seq ["ExprList", assignOps, "ExprList"]),
   node "ShortVarDecl" (seq ["ExprList", ":=", "ExprList"]),
   node "Labeled" (seq [labelName, ":", "Statement"]),
   node "EmptyLabeled" (seq [labelName, ":"]),
   node "Fallthrough" (leftStrong 0 "fallthrough"),
   node "Break" (seq ["break", opt labelName]),
   node "Continue" (seq ["continue", opt labelName]),
   node "Goto" (seq ["goto", labelName]),
   node "Return" (seq ["return", opt "ExprList"]),
   node "Go" (seq ["go", "Expr"]),
   node "Defer" (seq ["defer", "Expr"]),
   node "If" (seq ["if", opt (seq ["SimpleStatement", ";"]), "Expr", "Block",
     opt (seq ["else", choice ["Block", "If"]])]),
   node "For" (seq ["for", opt (choice ["Expr", "ForClause", "RangeClause"]), "Block"]),
   node "ForClause" (seq [opt "SimpleStatement", ";", opt "Expr", ";", opt "SimpleStatement"]),
   node "RangeClause" (seq [opt (seq ["ExprList", choice ["=", ":="]]), "range", "Expr"]),
   node "ExprSwitch" (seq ["switch", opt (seq ["SimpleStatement", ";"]), opt "Expr", "\x7b",
     any (choice ["ExprCase", "DefaultCase"]), "\x7d"]),
   node "ExprCase" (seq ["case", "ExprList", ":", statements]),
   node "DefaultCase" (seq ["default", ":", statements]),
   node "TypeSwitch" (seq ["switch", "TypeSwitchHeader", "\x7b", any (choice ["TypeCase", "DefaultCase"]),
     "\x7d"]),
   hidden "TypeSwitchHeader" (seq [opt (seq ["SimpleStatement", ";"]), opt (seq ["ExprList", ":="]), "Expr",
     ".", "(", "type", ")"]),
   node "TypeCase" (seq ["case", listed anyType, ":", statements]),
   node "Select" (seq ["select", "\x7b", any (choice ["CommCase", "DefaultCase"]), "\x7d"]),
   node "CommCase" (seq ["case", choice ["Send", "Receive"], ":", statements])]

def expressions : List NamedRule :=
  [family "Expr" (choice (["UnaryExpr", "BinaryExpr", "Selector", "Index", "Slice", "Call", "TypeAssertion",
     "Conversion", "Instantiation", name, choice ["new", "make"], "CompositeLit", "FuncLit", anyString,
     "int_literal", "float_literal", "imaginary_literal", "rune_literal", "nil", "true", "false", "iota", "ParenExpr"])),
   node "ParenExpr" (seq ["(", "Expr", ")"]),
   node "Call" (strong primary (choice
     [seq [choice ["new", "make"], "TypeFirstArgs"], seq ["Expr", opt "TypeArgs", "Args"]])),
   node "VariadicArg" (rightStrong 0 (seq ["Expr", "..."])),
   node "TypeFirstArgs" (seq ["(", opt (seq [anyType, any (seq [",", "Expr"]), opt ","]), ")"]),
   node "Args" (seq ["(", opt (seq [listed (choice ["Expr", "VariadicArg"]), opt ","]), ")"]),
   node "Selector" (strong primary (seq ["Expr", ".", fieldName])),
   node "Index" (strong primary (seq ["Expr", "[", "Expr", "]"])),
   node "Slice" (strong primary (seq ["Expr", "[",
     choice [seq [opt "Expr", ":", opt "Expr"], seq [opt "Expr", ":", "Expr", ":", "Expr"]], "]"])),
   node "TypeAssertion" (strong primary (seq ["Expr", ".", "(", anyType, ")"])),
   node "Conversion" (weighing (-1) (seq [anyType, "(", "Expr", opt ",", ")"])),
   node "Instantiation" (strong primary (seq [anyType, "[", listed anyType, opt ",", "]"])),
   node "CompositeLit" (strong (-1) (seq
     [choice ["MapType", "SliceType", "ArrayType", "OpenArrayType", "StructType", typeName, "GenericType",
        "QualifiedType"],
      "LiteralValue"])),
   node "LiteralValue" (seq ["\x7b",
     opt (seq [opt (listed (choice ["Element", "KeyedElement"])), opt ","]), "\x7d"]),
   node "Element" (choice ["Expr", "LiteralValue"]),
   node "KeyedElement" (seq ["Element", ":", "Element"]),
   node "FuncLit" (seq ["func", "Params", result, "Block"]),
   node "UnaryExpr" (strong unary (seq [oneOf ["+", "-", "!", "^", "*", "&", "<-"], "Expr"])),
   node "BinaryExpr" (choice [binary 5 multiplicative, binary 4 additive, binary 3 comparative,
     binary 2 ["&&"], binary 1 ["||"]]),
   node "QualifiedType" (seq [packageName, ".", typeName]),
   node "RawString" (seq ["`", "raw_string_literal_content", "`"]),
   node "String" (seq ["\"", any (choice ["interpreted_string_literal_content", "escape_sequence"]), "closing quote"])]

end Grammar

def grammar : Syntax.Grammar where
  lexicon := lexicon
  rules := Grammar.declarations ++ Grammar.types ++ Grammar.statementRules ++ Grammar.expressions
  extra := "comment"

def language : Language := Language.ofGrammar grammar

end EditorAgent.Go

import EditorAgent.Syntax.Token

/-!
# The tokens of Go
-/

namespace EditorAgent.Go

open Syntax

namespace Lexeme

def digits (d : Pattern) : Pattern := .join d (.many (.join (.opt (.text "_")) d))

def decimal : Pattern := .one Letters.digit
def hex : Pattern := .one (Letters.digit ||| Letters.range 'a' 'f' ||| Letters.range 'A' 'F')
def octal : Pattern := .one (Letters.range '0' '7')

def decimals : Pattern := digits decimal
def hexes : Pattern := digits hex
def underscore : Pattern := .opt (.text "_")

def integer : Pattern := .choice
  [.seq [.text "0", .oneOf "bB", underscore, digits (.oneOf "01")],
   .text "0",
   .seq [.one (Letters.range '1' '9'), .opt (.join underscore decimals)],
   .seq [.text "0", .opt (.oneOf "oO"), underscore, digits octal],
   .seq [.text "0", .oneOf "xX", underscore, hexes]]

def exponent (mark : String) : Pattern := .seq [.oneOf mark, .opt (.oneOf "+-"), decimals]

def float : Pattern := .choice
  [.seq [decimals, .text ".", .opt decimals, .opt (exponent "eE")],
   .seq [decimals, exponent "eE"],
   .seq [.text ".", decimals, .opt (exponent "eE")],
   .seq [.text "0", .oneOf "xX",
     .choice [.seq [underscore, hexes, .text ".", .opt hexes], .join underscore hexes, .join (.text ".") hexes],
     exponent "pP"]]

def imaginary : Pattern := .join (.choice [decimals, integer, float]) (.text "i")

def rune : Pattern := .seq
  [.text "'",
   .union (.one (Letters.except "'\\")) (.join (.text "\\") (.choice
     [.join (.text "x") (.times 2 hex), .times 3 octal, .join (.text "u") (.times 4 hex),
      .join (.text "U") (.times 8 hex), .oneOf "abfnrtv\\'\""])),
   .text "'"]

def escape : Pattern := .join (.text "\\") (.choice
  [.one (Letters.except "xuU"), .seq [decimal, decimal, .opt decimal],
   .seq [.text "x", hex, .some hex], .join (.text "u") (.times 4 hex), .join (.text "U") (.times 8 hex)])

def comment : Pattern :=
  let other : Pattern := .many (.one (Letters.except "*"))
  let stars : Pattern := .some (.text "*")
  .union (.join (.text "//") (.many (.one (Letters.except "\n"))))
    (.seq [.text "/*", other, stars, .many (.seq [.one (Letters.except "/*"), other, stars]), .text "/"])

def word : Pattern := .join (.one Letters.wordStart) (.many (.one Letters.wordPart))

end Lexeme

/-- A token that is a node of its own. -/
def namedToken (name : String) (p : Pattern) : Token := { name := name, sight := .named, pattern := p }

/-- A fixed text that is a node of its own. -/
def namedText (name : String) : Token := { Token.ofText name with sight := .named }

def newline : Token := { name := "newline", sight := .hidden, pattern := .text "\n" }

/-- A built-in function that takes a type; it is a name like any other. -/
def builtin (name : String) : Token := { namedText name with kind := "identifier" }

def lexicon : Lexicon :=
  let texts (ss : List String) := ss.map Token.ofText
  ([namedToken "identifier" Lexeme.word, newline] ++
    texts [";", "\x00", "package", "import", "."] ++ [{ namedText "_" with kind := "blank_identifier" }] ++
    texts ["(", ")", "const", ",", "=", "var", "func", "[", "]", "...", "type", "*", "struct", "~", "\x7b",
      "\x7d", "interface", "|", "map", "chan", "<-", ":=", "++", "--", "*=", "/=", "%=", "<<=", ">>=",
      "&=", "&^=", "+=", "-=", "|=", "^=", ":", "fallthrough", "break", "continue", "goto", "return", "go",
      "defer", "if", "else", "for", "range", "switch", "case", "default", "select"] ++
    [builtin "new", builtin "make"] ++
    texts ["+", "-", "!", "^", "&", "/", "%", "<<", ">>", "&^", "==", "!=", "<", "<=", ">", ">=", "&&",
      "||", "`"] ++
    [{ namedToken "raw_string_literal_content" (.many (.one (Letters.except "`"))) with priority := 1 },
     Token.ofText "\"",
     { namedToken "interpreted_string_literal_content" (.some (.one (Letters.except "\"\n\\"))) with
       priority := 1, immediate := true },
     { Token.ofText "\"" with name := "closing quote", kind := "\"", immediate := true },
     { namedToken "escape_sequence" Lexeme.escape with immediate := true },
     namedToken "int_literal" Lexeme.integer, namedToken "float_literal" Lexeme.float,
     namedToken "imaginary_literal" Lexeme.imaginary, namedToken "rune_literal" Lexeme.rune,
     namedText "nil", namedText "true", namedText "false", namedText "iota",
     namedToken "comment" Lexeme.comment]).toArray

end EditorAgent.Go

import SelectChain.Token

/-!
# Classification of character runs

Each predicate of this module says whether a whole run is a complete instance
of its category, so a proper beginning is refused: an open quotation is not
quoted text, and a comment without its line break is not yet a comment.
`classify` tries the categories in order of precedence.
-/

namespace SelectChain

namespace Lexeme

/-- Words that are never identifiers. -/
def reservedWords : List (List Char) :=
  ["int", "void", "if", "else", "while", "return", "write", "print",
    "continue", "break", "binary", "decimal", "val"].map String.toList

def symbols : List (List Char) :=
  ["(", ")", "\x7b", "\x7d", "[", "]", ",", ";", "+", "-", "*", "/",
    "==", "!=", ">", ">=", "<", "<=", "&&", "||", "=", ".", "%",
    "=>"].map String.toList

/-- Letters and the underscore start a name. -/
def isNameStart (c : Char) : Bool :=
  c.isAlpha || c == '_'

/-- Names continue with letters, digits and underscores. -/
def isNamePart (c : Char) : Bool :=
  isNameStart c || c.isDigit

/-- The blanks of the source language; U+001A stands for the end of a text
and counts as blank. -/
def isSpaceChar (c : Char) : Bool :=
  c == ' ' || c == '\t' || c == '\r' || c == '\n' || c == '\x1a'

/-- A run that begins a comment has to be read to the end of its line. -/
def opensComment : List Char → Bool
  | '#' :: _ => true
  | '/' :: '/' :: _ => true
  | _ => false

/-- A comment ends with its only line break. -/
def isComment (run : List Char) : Bool :=
  opensComment run && run.getLast? == some '\n' && !run.dropLast.contains '\n'

def isReserved (run : List Char) : Bool :=
  reservedWords.contains run

def isIdentifier : List Char → Bool
  | [] => false
  | c :: rest => isNameStart c && rest.all isNamePart

def isNumber (run : List Char) : Bool :=
  !run.isEmpty && run.all Char.isDigit

/-- Quoted text begins and ends with a quote, and one quote is not both. -/
def isQuoted : List Char → Bool
  | [] => false
  | c :: rest => c == '\x22' && rest.getLast? == some '\x22'

def isSymbol (run : List Char) : Bool :=
  symbols.contains run

def isSpace (run : List Char) : Bool :=
  !run.isEmpty && run.all isSpaceChar

/-- The category of a whole run, if it has one. -/
def classify (run : List Char) : Option Token.Kind :=
  if isComment run then some .comment
  else if isReserved run then some .reserved
  else if isIdentifier run then some .identifier
  else if isNumber run then some .number
  else if isQuoted run then some .quoted
  else if isSymbol run then some .symbol
  else if isSpace run then some .space
  else none

@[simp]
theorem classify_nil : classify [] = none := by
  decide

end Lexeme

end SelectChain

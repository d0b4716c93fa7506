/-!
# Tokens

A token is a classified run of source characters together with the line it
starts on.  Comments and blanks are tokens too: nothing of the source is
dropped by scanning, and the grammar skips the trivia on its own.
-/

namespace SelectChain

namespace Token

/-- The lexical categories of a run of characters. -/
inductive Kind where
  | comment
  | reserved
  | identifier
  | number
  | quoted
  | symbol
  | space
  deriving DecidableEq

/-- Trivia stands between grammar tokens and never matters to them. -/
def Kind.isTrivia : Kind → Bool
  | .comment | .space => true
  | _ => false

def Kind.label : Kind → String
  | .comment => "meta statement"
  | .reserved => "reserved word"
  | .identifier => "identifier"
  | .number => "number"
  | .quoted => "string literal"
  | .symbol => "symbol"
  | .space => "whitespace"

/-- All categories, in order of precedence. -/
def Kind.all : List Kind :=
  [.comment, .reserved, .identifier, .number, .quoted, .symbol, .space]

def Kind.ofLabel? (label : String) : Option Kind :=
  Kind.all.find? (·.label == label)

end Token

/-- A scanned run: its text, its category and the line of its first
character. -/
structure Token where
  text : String
  kind : Token.Kind
  line : Nat
  deriving DecidableEq

namespace Token

def isTrivia (token : Token) : Bool :=
  token.kind.isTrivia

end Token

end SelectChain

import SelectChain.Text.Blank

/-!
# Why a pipeline is refused

Three kinds of fault stop the lowering of a pipeline: a run of characters that
is no token, a token that the grammar does not admit, and a name that is used
against the rules of its scope.  The constructors hold the cause; the wording
is in the `message` functions.
-/

namespace SelectChain

def backquoted (text : String) : String :=
  "`" ++ text ++ "`"

/-- A run of characters that became no token, with the line it starts on. -/
structure ScanError where
  text : String
  line : Nat
  deriving DecidableEq

/-- What the grammar admits at a place. -/
inductive Expectation where
  | word (text : String)
  | rangeStart
  | rangeEnd
  | parameter
  | bindingName
  | expression
  | comparison
  | fieldName
  | endOfInput
  deriving DecidableEq

/-- A token, or the end of the input, where the grammar admits something
else. -/
structure GrammarError where
  expected : Expectation
  /-- The text of the token in the way, or `none` at the end of the input. -/
  found : Option String
  line : Nat
  deriving DecidableEq

/-- A name, or a number in the place of one, that breaks a scope rule. -/
inductive ScopeError where
  | undeclared (name : String)
  | numericField (literal : String)
  | fieldOnBinding (name : String)
  | parameterRebound (name : String)
  | duplicateBinding (name : String)
  deriving DecidableEq

inductive Fault where
  | lexical (error : ScanError)
  | grammar (error : GrammarError)
  | scope (error : ScopeError)
  deriving DecidableEq

/-! ## Wording -/

def ScanError.message (error : ScanError) : String :=
  "line " ++ toString error.line ++ ": not a valid token: " ++
    backquoted error.text

def Expectation.describe : Expectation → String
  | .word text => backquoted text
  | .rangeStart => "range start"
  | .rangeEnd => "range end"
  | .parameter => "lambda parameter"
  | .bindingName => "binding name"
  | .expression => "expression"
  | .comparison => "comparison operator"
  | .fieldName => "field name"
  | .endOfInput => "end of input"

/-- What stood in the way; blanks at the end of the token are not shown. -/
def GrammarError.describeFound (error : GrammarError) : String :=
  match error.found with
  | some text => backquoted (String.ofList (Text.trimEnd text.toList))
  | none => "end of input"

def GrammarError.message (error : GrammarError) : String :=
  "line " ++ toString error.line ++ ": expected " ++
    error.expected.describe ++ ", found " ++ error.describeFound

/-- The name or literal that a scope error is about. -/
def ScopeError.subject : ScopeError → String
  | .undeclared name => name
  | .numericField literal => literal
  | .fieldOnBinding name => name
  | .parameterRebound name => name
  | .duplicateBinding name => name

def ScopeError.message : ScopeError → String
  | .undeclared name => backquoted name ++ " used before declaration"
  | .numericField literal =>
      "numeric literal " ++ backquoted literal ++ " in a field access"
  | .fieldOnBinding name =>
      "field access on " ++ backquoted name ++
        ", which is not the transformation parameter"
  | .parameterRebound name =>
      backquoted name ++
        " is the transformation parameter and cannot be rebound"
  | .duplicateBinding name =>
      backquoted name ++ " is already bound in this transformation"

def Fault.message : Fault → String
  | .lexical error => "lexical error: " ++ error.message
  | .grammar error => "syntax error: " ++ error.message
  | .scope error => "semantic error: " ++ error.message

/-- The kind of a fault, as logs and answers name it. -/
def Fault.kind : Fault → String
  | .lexical _ => "Lexical"
  | .grammar _ => "Syntax"
  | .scope _ => "Semantic"

end SelectChain

import SelectChain.Pipeline
import Mathlib.Tactic

/-!
# The grammar of pipelines

A derivation of the pipeline grammar is a syntax tree, and the sentence it
derives is the list of its words, read from left to right.  There is one type
for each nonterminal and one constructor for each of its alternatives:

    Program    := 'sc' '.' 'range' '(' Number ',' Number ')' MapOps
                  'collect' '(' ')'
    MapOps     := ( '.' 'map' '(' UDF ')' )* '.'
    UDF        := Identifier '=>' Body
    Body       := '{' ComplexExpr '}' | SimpleExpr
    SimpleExpr := '(' TupleExpr ')' | PureExpr
    TupleExpr  := PureExpr ( ',' PureExpr )*
    ComplexExpr:= ( AssignExpr ( ';'? AssignExpr )* ';'? )? SimpleExpr
    AssignExpr := 'val' Identifier '=' PureExpr
    PureExpr   := ( Identifier | Number ) ( '.' Identifier )? ( Op PureExpr )?
                | '(' PureExpr ')' ( Op PureExpr )?
                | 'if' '(' PureExpr Comp PureExpr ')' PureExpr 'else' PureExpr

The module also states the scope rules of a body, and what it means that a scope
error is about a violation of them.
-/

namespace SelectChain

/-- What the grammar sees of a token. -/
structure Word where
  text : String
  kind : Token.Kind
  deriving DecidableEq

def Token.word (token : Token) : Word :=
  ⟨token.text, token.kind⟩

/-- The tokens that matter to the grammar. -/
def grammarTokens (tokens : List Token) : List Token :=
  tokens.filter fun token => !token.isTrivia

def grammarWords (tokens : List Token) : List Word :=
  (grammarTokens tokens).map Token.word

theorem grammarTokens_eq_self
    {part all : List Token} (h : part ⊆ grammarTokens all) :
    grammarTokens part = part := by
  apply List.filter_eq_self.mpr
  intro token hmem
  exact (List.mem_filter.mp (h hmem)).2

namespace Word

def mark (text : String) : Word :=
  ⟨text, .symbol⟩

def keyword (text : String) : Word :=
  ⟨text, .reserved⟩

def call (text : String) : Word :=
  ⟨text, .identifier⟩

/-- The category of a word is that of its text. -/
def Lexical (word : Word) : Prop :=
  Lexeme.classify word.text.toList = some word.kind

instance (word : Word) : Decidable word.Lexical :=
  inferInstanceAs (Decidable (_ = _))

theorem Lexical.eq_of_text
    {word : Word} {text : String} {kind : Token.Kind}
    (h : word.Lexical) (htext : word.text = text)
    (hkind : Lexeme.classify text.toList = some kind) :
    word = ⟨text, kind⟩ := by
  unfold Lexical at h
  rw [htext, hkind, Option.some.injEq] at h
  cases word
  simp_all

end Word

def Arithmetic.word (op : Arithmetic) : Word :=
  .mark op.symbol

def Comparison.word (op : Comparison) : Word :=
  .mark op.symbol

namespace Grammar

structure Name where
  text : String
  valid : Lexeme.classify text.toList = some .identifier

structure Numeral where
  text : String
  valid : Lexeme.classify text.toList = some .number

def Name.word (name : Name) : Word :=
  ⟨name.text, .identifier⟩

def Numeral.word (digits : Numeral) : Word :=
  ⟨digits.text, .number⟩

theorem Name.text_ne (name : Name) (text : String)
    (h : Lexeme.classify text.toList ≠ some .identifier) :
    name.text ≠ text := by
  intro heq
  exact h (heq ▸ name.valid)

theorem Numeral.text_ne (digits : Numeral) (text : String)
    (h : Lexeme.classify text.toList ≠ some .number) :
    digits.text ≠ text := by
  intro heq
  exact h (heq ▸ digits.valid)

inductive Operand where
  | number (digits : Numeral)
  | bare (name : Name)
  | access (qualifier field : Name)
  | numberAccess (digits : Numeral) (field : Name)

def Operand.words : Operand → List Word
  | .number digits => [digits.word]
  | .bare name => [name.word]
  | .access qualifier field => [qualifier.word, .mark ".", field.word]
  | .numberAccess digits field => [digits.word, .mark ".", field.word]

inductive Expression where
  | operand (atom : Operand)
  | operandThen (atom : Operand) (op : Arithmetic) (rest : Expression)
  | group (inner : Expression)
  | groupThen (inner : Expression) (op : Arithmetic) (rest : Expression)
  | conditional (cmp : Comparison) (left right yes no : Expression)

namespace Expression

def words : Expression → List Word
  | .operand atom => atom.words
  | .operandThen atom op rest => atom.words ++ op.word :: rest.words
  | .group inner => .mark "(" :: inner.words ++ [.mark ")"]
  | .groupThen inner op rest =>
      .mark "(" :: inner.words ++ .mark ")" :: op.word :: rest.words
  | .conditional cmp left right yes no =>
      .keyword "if" :: .mark "(" :: left.words ++ cmp.word :: right.words ++
        .mark ")" :: yes.words ++ .keyword "else" :: no.words

/-- The operands from left to right. -/
def operands : Expression → List Operand
  | .operand atom => [atom]
  | .operandThen atom _ rest => atom :: rest.operands
  | .group inner => inner.operands
  | .groupThen inner _ rest => inner.operands ++ rest.operands
  | .conditional _ left right yes no =>
      left.operands ++ right.operands ++ yes.operands ++ no.operands

end Expression

/-! ## Bodies and programs

The parts of a body are the same however its expressions are read, so the type
of expressions is a parameter. -/

structure Assignment (ε : Type) where
  name : Name
  value : ε
  /-- Whether a semicolon follows. -/
  semicolon : Bool

inductive Result (ε : Type) where
  | tuple (first : ε) (more : List ε)
  | single (only : ε)

inductive Body (ε : Type) where
  | block (assignments : List (Assignment ε)) (result : Result ε)
  | plain (result : Result ε)

variable {ε : Type}

def Assignment.words (spell : ε → List Word) (assignment : Assignment ε) :
    List Word :=
  .keyword "val" :: assignment.name.word :: .mark "=" ::
    spell assignment.value ++
      if assignment.semicolon then [.mark ";"] else []

def assignmentsWords (spell : ε → List Word) :
    List (Assignment ε) → List Word :=
  List.flatMap (Assignment.words spell)

/-- The elements of a tuple behind the first, each with its comma. -/
def moreWords (spell : ε → List Word) : List ε → List Word :=
  List.flatMap fun element => .mark "," :: spell element

def Result.words (spell : ε → List Word) : Result ε → List Word
  | .tuple first more =>
      .mark "(" :: spell first ++ moreWords spell more ++ [.mark ")"]
  | .single only => spell only

def Result.elements : Result ε → List ε
  | .tuple first more => first :: more
  | .single only => [only]

def Body.words (spell : ε → List Word) : Body ε → List Word
  | .block assignments result =>
      .mark "\x7b" :: assignmentsWords spell assignments ++
        result.words spell ++ [.mark "\x7d"]
  | .plain result => result.words spell

def Body.assignments : Body ε → List (Assignment ε)
  | .block assignments _ => assignments
  | .plain _ => []

def Body.result : Body ε → Result ε
  | .block _ result => result
  | .plain result => result

def Body.elements (body : Body ε) : List ε :=
  body.result.elements

structure Transformation where
  parameter : Name
  body : Body Expression

def Transformation.words (transformation : Transformation) : List Word :=
  .mark "." :: .call "map" :: .mark "(" :: transformation.parameter.word ::
    .mark "=>" :: transformation.body.words Expression.words ++ [.mark ")"]

structure Program where
  start : Numeral
  stop : Numeral
  transformations : List Transformation

def Program.words (program : Program) : List Word :=
  .call "sc" :: .mark "." :: .call "range" :: .mark "(" ::
    program.start.word :: .mark "," :: program.stop.word :: .mark ")" ::
    program.transformations.flatMap Transformation.words ++
      [.mark ".", .call "collect", .mark "(", .mark ")"]

/-! ## Scope rules -/

/-- A bare name is the parameter or one of the names bound earlier, and only the
parameter has fields. -/
def Operand.WellScoped (parameter : String) (earlier : List String) :
    Operand → Prop
  | .number _ => True
  | .bare name => name.text = parameter ∨ name.text ∈ earlier
  | .access qualifier _ => qualifier.text = parameter
  | .numberAccess _ _ => False

/-- The scope errors that tell the truth about an operand. -/
inductive Operand.Violates (parameter : String) (earlier : List String) :
    Operand → ScopeError → Prop
  | bare {name : Name}
      (hparameter : name.text ≠ parameter) (hearlier : name.text ∉ earlier) :
      Violates parameter earlier (.bare name) (.undeclared name.text)
  | qualifier {qualifier field : Name}
      (hparameter : qualifier.text ≠ parameter)
      (hearlier : qualifier.text ∉ earlier) :
      Violates parameter earlier (.access qualifier field)
        (.undeclared qualifier.text)
  | value {qualifier field : Name}
      (hparameter : qualifier.text ≠ parameter)
      (hearlier : qualifier.text ∈ earlier) :
      Violates parameter earlier (.access qualifier field)
        (.fieldOnBinding qualifier.text)
  | number {digits : Numeral} {field : Name} :
      Violates parameter earlier (.numberAccess digits field)
        (.numericField (digits.text ++ "." ++ field.text))

def boundNames (assignments : List (Assignment ε)) : List String :=
  assignments.map fun assignment => assignment.name.text

def Expression.WellScoped (parameter : String) (earlier : List String)
    (expression : Expression) : Prop :=
  ∀ operand ∈ expression.operands, operand.WellScoped parameter earlier

/-- The rules for one assignment behind those of the names in `earlier`: its
value uses no later name, and its own name is new. -/
structure Assignment.WellScoped (parameter : String) (earlier : List String)
    (assignment : Assignment Expression) : Prop where
  value : assignment.value.WellScoped parameter earlier
  ne_parameter : assignment.name.text ≠ parameter
  fresh : assignment.name.text ∉ earlier

/-- The scope errors that tell the truth about an assignment. -/
inductive Assignment.Violates (parameter : String) (earlier : List String)
    (assignment : Assignment Expression) : ScopeError → Prop
  | value {operand : Operand} {error : ScopeError}
      (hoperand : operand ∈ assignment.value.operands)
      (hviolates : operand.Violates parameter earlier error) :
      Violates parameter earlier assignment error
  | parameter (hname : assignment.name.text = parameter) :
      Violates parameter earlier assignment
        (.parameterRebound assignment.name.text)
  | duplicate (hname : assignment.name.text ∈ earlier) :
      Violates parameter earlier assignment
        (.duplicateBinding assignment.name.text)

structure Body.WellScoped (parameter : String) (body : Body Expression) :
    Prop where
  assignments : ∀ before assignment after,
    body.assignments = before ++ assignment :: after →
      assignment.WellScoped parameter (boundNames before)
  elements : ∀ element ∈ body.elements,
    element.WellScoped parameter (boundNames body.assignments)

/-- The scope errors that tell the truth about a body. -/
inductive Body.Violates (parameter : String) (body : Body Expression) :
    ScopeError → Prop
  | assignment {before after : List (Assignment Expression)}
      {assignment : Assignment Expression} {error : ScopeError}
      (hsplit : body.assignments = before ++ assignment :: after)
      (hviolates :
        assignment.Violates parameter (boundNames before) error) :
      Violates parameter body error
  | element {element : Expression} {operand : Operand} {error : ScopeError}
      (helement : element ∈ body.elements)
      (hoperand : operand ∈ element.operands)
      (hviolates :
        operand.Violates parameter (boundNames body.assignments) error) :
      Violates parameter body error

def Transformation.WellScoped (transformation : Transformation) : Prop :=
  transformation.body.WellScoped transformation.parameter.text

def Transformation.Violates (transformation : Transformation)
    (error : ScopeError) : Prop :=
  transformation.body.Violates transformation.parameter.text error

end Grammar

end SelectChain

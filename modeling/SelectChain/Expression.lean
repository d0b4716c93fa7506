import SelectChain.Cursor
import SelectChain.Projection
import SelectChain.Stack

/-!
# Expressions

An expression is a chain of primaries joined by arithmetic operators; a primary
is an operand, a group or a conditional.  The productions are the same in both
places where expressions occur, and differ only in where the pieces go.  A
`Sink` says that: `Sink.direct` writes column text and resolves names on the
spot, `Sink.collecting` gathers the pieces of a binding for later.

The recursion is bounded by a budget of tokens.  Each nested expression and
each link of a chain takes a token first, so a budget of all remaining tokens is
spent only when none is left, where an expression is missing and a chain ends.
-/

namespace SelectChain

/-- What becomes of the pieces of an expression. -/
structure Sink (σ : Type) where
  /-- A piece that needs no scope. -/
  entry : Entry → σ → σ
  /-- A bare name, and whether an arithmetic operator follows it. -/
  name : String → Bool → σ → Except ScopeError σ
  /-- A qualifier and the field behind its dot. -/
  field : String → String → σ → Except ScopeError σ

/-- A projection at work, and whether an arithmetic operator was written
last. -/
structure Draft where
  projection : Projection
  afterOperator : Bool
  deriving DecidableEq

namespace Draft

def empty : Draft :=
  ⟨.empty, false⟩

/-- Writes a text that is no operator. -/
def write (draft : Draft) (text : String) : Draft :=
  ⟨draft.projection.push text, false⟩

def finish (draft : Draft) : Draft :=
  { draft with projection := draft.projection.finish }

def parenthesize (draft : Draft) : Draft :=
  ⟨draft.projection.parenthesize, false⟩

end Draft

namespace Sink

/-- Writes column text, with names resolved in `scope`. -/
def direct (scope : Scope) : Sink Draft where
  entry entry draft :=
    ⟨draft.projection.push entry.verbatim, entry.isArithmetic⟩
  name name joined draft := do
    let text ← scope.resolve name (draft.afterOperator || joined)
    return draft.write text
  field qualifier field draft := do
    scope.requireParameter qualifier
    return draft.write field

def collecting : Sink Stack where
  entry entry stack := entry :: stack
  name name _ stack := .ok (.identifier name :: stack)
  field qualifier field stack :=
    .ok (.identifier field :: .dot :: .identifier qualifier :: stack)

end Sink

namespace Parser

variable {σ : Type}

/-- A field access.  Neither side of the dot may be a number, and the left
side is looked at first. -/
def fieldAccess (sink : Sink σ) (qualifier field : Token) (acc : σ) :
    Parser σ :=
  if qualifier.kind = .number then
    ofScope (.error (.numericField (qualifier.text ++ "." ++ field.text)))
  else
    match field.kind with
    | .number => ofScope (.error (.numericField field.text))
    | .identifier => ofScope (sink.field qualifier.text field.text acc)
    | _ => refuse .fieldName field

/-- A number, a name or a field access. -/
def operand (sink : Sink σ) (acc : σ) : Parser σ := do
  let token ← take .expression
  if ← sees "." then
    advance
    let field ← take .fieldName
    fieldAccess sink token field acc
  else if token.kind = .number then
    return sink.entry (.number token.text) acc
  else
    let joined := (← currentArithmetic).isSome
    ofScope (sink.name token.text joined acc)

def group (sink : Sink σ) (inner : σ → Parser σ) (acc : σ) : Parser σ := do
  advance
  let acc ← inner (sink.entry .opening acc)
  expect ")"
  return sink.entry .closing acc

/-- A conditional; its last branch reaches as far as an expression can. -/
def conditional (sink : Sink σ) (inner : σ → Parser σ) (acc : σ) :
    Parser σ := do
  expect "if"
  expect "("
  let acc ← inner (sink.entry .ifOpen acc)
  match ← currentComparison with
  | none => unexpected .comparison
  | some op =>
      advance
      let acc ← inner (sink.entry (.operator (.comparison op)) acc)
      expect ")"
      let acc ← inner (sink.entry .thenMark acc)
      expect "else"
      let acc ← inner (sink.entry .elseMark acc)
      return sink.entry .ifClose acc

def primary (sink : Sink σ) (inner : σ → Parser σ) (acc : σ) : Parser σ := do
  if (← seesKind .identifier) || (← seesKind .number) then
    operand sink acc
  else if ← sees "(" then
    group sink inner acc
  else if ← sees "if" then
    conditional sink inner acc
  else unexpected .expression

/-- The rest of a chain behind its first primary. -/
def operatorTail (sink : Sink σ) (next : σ → Parser σ) :
    Nat → σ → Parser σ
  | 0, acc => pure acc
  | budget + 1, acc => do
      match ← currentArithmetic with
      | none => return acc
      | some op =>
          advance
          let acc ← next (sink.entry (.operator (.arithmetic op)) acc)
          operatorTail sink next budget acc

/-- An expression of at most `budget` tokens. -/
def expressionWithin (sink : Sink σ) : Nat → σ → Parser σ
  | 0, _ => unexpected .expression
  | budget + 1, acc => do
      let next := primary sink (expressionWithin sink budget)
      let acc ← next acc
      operatorTail sink next budget acc

def expression (sink : Sink σ) (acc : σ) : Parser σ := do
  expressionWithin sink (← remaining) acc

/-- The rest of a chain whose first primary is already written. -/
def chainTail (sink : Sink σ) (acc : σ) : Parser σ := do
  let budget ← remaining
  operatorTail sink (primary sink (expressionWithin sink budget)) budget acc

end Parser

end SelectChain

import SelectChain.Expression

/-!
# Transformation bodies

A body is one expression or a tuple of them, possibly in braces behind a number
of bindings.  The right-hand side of a binding becomes a fragment, and the
expressions of the tuple become the columns of the stage.
-/

namespace SelectChain

/-- A lowered transformation: its scope at the end of the body, and its
columns. -/
structure Stage where
  scope : Scope
  columns : List String
  deriving DecidableEq

namespace Stage

def arguments (stage : Stage) : String :=
  Projection.renderColumns stage.columns

end Stage

namespace Parser

/-- One binding.  The name is reported as bound before the scope has its
say. -/
def binding (scope : Scope) : Parser Scope := do
  expect "val"
  let name ← expectKind .identifier .bindingName
  expect "="
  let stack ← expression Sink.collecting []
  let fragment ← ofScope (stack.unwind scope).1
  log (.bound name.text fragment.text)
  ofScope (scope.bind name.text fragment)

/-- All bindings at the lookahead, at most `budget` of them. -/
def bindingsWithin : Nat → Scope → Parser Scope
  | 0, scope => pure scope
  | budget + 1, scope => do
      if ← sees "val" then
        let scope ← binding scope
        if ← sees ";" then
          advance
        bindingsWithin budget scope
      else return scope

/-- The further elements of a tuple, at most `budget` of them. -/
def elementsWithin (scope : Scope) : Nat → Draft → Parser Draft
  | 0, draft => pure draft
  | budget + 1, draft => do
      if ← sees "," then
        advance
        let draft ← expression (Sink.direct scope) draft.finish
        elementsWithin scope budget draft
      else return draft

/-- A tuple or a single expression.  Parentheses around one expression with an
operator behind them are a group that the expression starts with. -/
def result (scope : Scope) : Parser Draft := do
  if ← sees "(" then
    advance
    let draft ← expression (Sink.direct scope) .empty
    let draft ← elementsWithin scope (← remaining) draft
    expect ")"
    let joined := (← currentArithmetic).isSome
    if draft.projection.arity = 0 && joined then
      let draft ← chainTail (Sink.direct scope) draft.parenthesize
      return draft.finish
    else return draft.finish
  else
    let draft ← expression (Sink.direct scope) .empty
    return draft.finish

/-- Bindings and a result in braces, or a result alone. -/
def bodyParts (scope : Scope) : Parser (Scope × Draft) := do
  if ← sees "\x7b" then
    advance
    let scope ← bindingsWithin (← remaining) scope
    let draft ← result scope
    expect "\x7d"
    return (scope, draft)
  else
    let draft ← result scope
    return (scope, draft)

def body (parameter : String) : Parser Stage := do
  let (scope, draft) ← bodyParts (.ofParameter parameter)
  let projection := draft.projection
  log (.compiled parameter projection.arity projection.render)
  return ⟨scope, projection.columns⟩

end Parser

end SelectChain

import SelectChain.Event
import SelectChain.Operator
import SelectChain.Scan

/-!
# The token cursor

The grammar reads its tokens through a cursor with one token of lookahead.
Trivia is skipped as the cursor moves.  An unreadable run is a fault only when
the cursor reaches it, so whatever the grammar finds wrong in front of it comes
first.  The cursor also keeps the journal of what has happened so far, which
survives a fault.
-/

namespace SelectChain

structure Cursor where
  /-- The lookahead; `none` at the end of the input. -/
  current : Option Token
  /-- The items behind the lookahead. -/
  ahead : List Item
  /-- The line of the last grammar token met. -/
  line : Nat
  /-- The events so far, the newest first. -/
  journal : List Event

/-- A step of the grammar: it moves the cursor, and may fail. -/
abbrev Parser :=
  EStateM Fault Cursor

namespace Cursor

/-- The cursor in front of a list of items, before its first move. -/
def ofItems (items : List Item) : Cursor :=
  ⟨none, items, 1, []⟩

/-- The number of items from the lookahead on. -/
def remaining (cursor : Cursor) : Nat :=
  cursor.ahead.length + if cursor.current.isSome then 1 else 0

def log (event : Event) (cursor : Cursor) : Cursor :=
  { cursor with journal := event :: cursor.journal }

/-- Moves the lookahead to the first grammar token among `items`. -/
def pull (cursor : Cursor) : List Item → EStateM.Result Fault Cursor Unit
  | [] => .ok () { cursor with current := none, ahead := [] }
  | .error error :: rest =>
      .error (.lexical error) { cursor with current := none, ahead := rest }
  | .ok token :: rest =>
      let noted := cursor.log (.scanned token)
      if token.isTrivia then noted.pull rest
      else
        .ok ()
          { noted with current := some token, ahead := rest, line := token.line }

end Cursor

namespace Parser

def log (event : Event) : Parser Unit :=
  modify (Cursor.log event)

def advance : Parser Unit :=
  fun cursor => cursor.pull cursor.ahead

/-- A bound on the grammar tokens from the lookahead on. -/
def remaining : Parser Nat := do
  return (← get).remaining

def sees (text : String) : Parser Bool := do
  return (← get).current.any (·.text == text)

def seesKind (kind : Token.Kind) : Parser Bool := do
  return (← get).current.any (·.kind == kind)

/-- The text of the lookahead, if it is a symbol. -/
def currentSymbol : Parser (Option String) := do
  return ((← get).current.filter (·.kind == .symbol)).map (·.text)

def currentArithmetic : Parser (Option Arithmetic) := do
  return (← currentSymbol).bind Arithmetic.ofSymbol?

def currentComparison : Parser (Option Comparison) := do
  return (← currentSymbol).bind Comparison.ofSymbol?

/-- Refuses a token that stands where something else is expected. -/
def refuse {α : Type} (expected : Expectation) (token : Token) : Parser α :=
  throw (.grammar ⟨expected, some token.text, token.line⟩)

/-- Refuses the lookahead, or the end of the input. -/
def unexpected {α : Type} (expected : Expectation) : Parser α := do
  let cursor ← get
  match cursor.current with
  | some token => refuse expected token
  | none => throw (.grammar ⟨expected, none, cursor.line⟩)

/-- Takes the lookahead, whatever it is. -/
def take (expected : Expectation) : Parser Token := do
  match (← get).current with
  | some token =>
      advance
      return token
  | none => unexpected expected

def expect (text : String) : Parser Unit := do
  if ← sees text then
    advance
  else unexpected (.word text)

def expectKind (kind : Token.Kind) (expected : Expectation) : Parser Token := do
  if ← seesKind kind then
    take expected
  else unexpected expected

/-- A scope fault stops the grammar where it arises. -/
def ofScope {α : Type} : Except ScopeError α → Parser α
  | .ok value => pure value
  | .error error => throw (.scope error)

end Parser

end SelectChain

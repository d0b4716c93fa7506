import SelectChain.Chain

/-!
# Pipelines

The whole grammar: a range, any number of transformations, and the call that
collects the outcome.  `Lowering.run` lowers a list of items, pulling them as it
goes.  `lower` scans a whole text first, so that an unreadable run anywhere in
it is reported before anything else; `Lowering.ofStream` pulls the items of a text
one by one.
-/

namespace SelectChain

namespace Parser

/-- One transformation, from its `map` to its closing parenthesis. -/
def transformation : Parser Stage := do
  expect "map"
  expect "("
  let parameter ← expectKind .identifier .parameter
  expect "=>"
  let stage ← body parameter.text
  expect ")"
  return stage

/-- The transformations up to the final call and its dot, behind those of
`done`. -/
def stagesWithin : Nat → List Stage → Parser (List Stage)
  | 0, _ => unexpected (.word ".")
  | budget + 1, done => do
      expect "."
      if ← sees "collect" then
        return done
      else
        let stage ← transformation
        stagesWithin budget (done ++ [stage])

/-- A pipeline up to the end of the input. -/
def pipeline : Parser Chain := do
  expect "sc"
  expect "."
  expect "range"
  expect "("
  let start ← expectKind .number .rangeStart
  expect ","
  let stop ← expectKind .number .rangeEnd
  expect ")"
  let stages ← stagesWithin (← remaining) []
  expect "collect"
  expect "("
  expect ")"
  if (← get).current.isSome then
    unexpected .endOfInput
  else
    log (.lowered stages.length)
    return ⟨start.text, stop.text, stages⟩

end Parser

/-- The outcome of lowering a text, and the events on the way, the oldest
first. -/
structure Lowering where
  outcome : Except Fault Chain
  events : List Event

namespace Lowering

/-- Lowers a list of items, pulling each when the grammar needs it. -/
def run (items : List Item) : Lowering :=
  match (do Parser.advance; Parser.pipeline : Parser Chain) (.ofItems items) with
  | .ok chain cursor => ⟨.ok chain, cursor.journal.reverse⟩
  | .error fault cursor => ⟨.error fault, cursor.journal.reverse⟩

/-- Lowers tokens that were scanned before: their scanning is no news. -/
def ofTokens (tokens : List Token) : Lowering :=
  let lowering := run (tokens.map .ok)
  { lowering with events := lowering.events.filter (!·.isScan) }

/-- Scans all items, then lowers the tokens; `summary` reports their
number. -/
def ofScan (summary : Nat → Event) (items : List Item) : Lowering :=
  let scans := (readableTokens items).map .scanned
  match tokensOf items with
  | .error error => ⟨.error (.lexical error), scans⟩
  | .ok tokens =>
      let lowering := ofTokens tokens
      { lowering with
        events := scans ++ summary tokens.length :: lowering.events }

def ofSource (source : String) : Lowering :=
  ofScan .unitScanned (scan source)

def ofChars (chars : List Char) : Lowering :=
  ofScan .streamScanned (Reader.ofChars chars).items

/-- Lowers a text while it is being scanned. -/
def ofStream (source : String) : Lowering :=
  run (scan source)

end Lowering

def lower (source : String) : Except Fault Chain :=
  (Lowering.ofSource source).outcome

end SelectChain

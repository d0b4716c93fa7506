import SelectChain.Body
import SelectChain.Json
import SelectChain.Target

/-!
# Lowered pipelines

A chain is a range and the stages its numbers pass through.  The chain itself
does not depend on a target; its text does.
-/

namespace SelectChain

structure Chain where
  /-- The first bound of the range, as written. -/
  start : String
  stop : String
  stages : List Stage
  deriving DecidableEq

namespace Chain

/-- The call that names the only column of a range `_1`. -/
def rangeAlias : String :=
  ".selectExpr(\x22id as _1\x22)"

/-- The text of one stage, from its separator on. -/
def stageText (target : Target) (stage : Stage) : String :=
  target.layout.separator ++ "selectExpr(" ++ stage.arguments ++ ")"

def text (target : Target) (chain : Chain) : String :=
  target.session ++ ".range(" ++ chain.start ++ "," ++ chain.stop ++ ")" ++
    rangeAlias ++ String.join (chain.stages.map (stageText target)) ++
    target.layout.separator ++ "collect()"

def scopes (chain : Chain) : List Scope :=
  chain.stages.map (·.scope)

/-- The listings of scopes under numbers that start at `number`. -/
def listingsFrom (number : Nat) : List Scope → List String
  | [] => []
  | scope :: rest =>
      ("Symbol Table " ++ toString number ++ ":\n" ++ scope.describe) ::
        listingsFrom (number + 1) rest

def report (chain : Chain) : String :=
  String.join (listingsFrom 1 chain.scopes)

end Chain

/-- A scope as a JSON object; its bindings are keyed by name. -/
def Scope.toJson (scope : Scope) : Json :=
  .object
    [("parameter", .str scope.parameter),
      ("bindings",
        .object (scope.values.map fun value => (value.1, .str value.2.text)))]

def Chain.members (target : Target) (chain : Chain) : List (String × Json) :=
  [("output", .str (chain.text target)),
    ("symbol_tables", .arr (chain.scopes.map Scope.toJson))]

def Chain.toJson (target : Target) (chain : Chain) : Json :=
  .object (chain.members target)

end SelectChain

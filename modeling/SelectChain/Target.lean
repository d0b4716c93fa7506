/-!
# Targets

How the lowered pipeline is written: the name of the session it starts from,
and the layout of its calls.
-/

namespace SelectChain

inductive Layout where
  /-- One call per line, indented under the first. -/
  | stacked
  /-- All calls on one line. -/
  | inline
  deriving DecidableEq

/-- What stands in front of each call, its dot included. -/
def Layout.separator : Layout → String
  | .stacked => "\n     ."
  | .inline => "."

structure Target where
  session : String
  layout : Layout
  deriving DecidableEq

/-- The target used where nothing else is asked for. -/
def Target.standard : Target :=
  ⟨"spark", .stacked⟩

end SelectChain

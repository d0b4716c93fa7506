/-!
# Projections

The columns of one transformation while they are written: finished columns, and
the text of the one at work.
-/

namespace SelectChain

structure Projection where
  current : String
  columns : List String
  deriving DecidableEq

namespace Projection

def empty : Projection :=
  ⟨"", []⟩

def push (projection : Projection) (text : String) : Projection :=
  { projection with current := projection.current ++ text }

def parenthesize (projection : Projection) : Projection :=
  { projection with current := "(" ++ projection.current ++ ")" }

def finish (projection : Projection) : Projection :=
  ⟨"", projection.columns ++ [projection.current]⟩

def arity (projection : Projection) : Nat :=
  projection.columns.length

/-- A column under its positional name. -/
def renderColumn (position : Nat) (column : String) : String :=
  "\x22" ++ column ++ " as _" ++ toString position ++ "\x22"

/-- Columns under the names that start at `position`. -/
def renderFrom (position : Nat) : List String → List String
  | [] => []
  | column :: rest =>
      renderColumn position column :: renderFrom (position + 1) rest

def renderColumns (columns : List String) : String :=
  ", ".intercalate (renderFrom 1 columns)

def render (projection : Projection) : String :=
  renderColumns projection.columns

end Projection

end SelectChain

/-!
# Operators

Arithmetic operators join the parts of a column expression; comparisons occur
only in the condition of an `if`.  Source and target spell them alike.
-/

namespace SelectChain

inductive Arithmetic where
  | add
  | subtract
  | multiply
  | modulo
  deriving DecidableEq

inductive Comparison where
  | equal
  | notEqual
  | less
  | greater
  | lessEqual
  | greaterEqual
  deriving DecidableEq

inductive Operator where
  | arithmetic (op : Arithmetic)
  | comparison (op : Comparison)
  deriving DecidableEq

namespace Arithmetic

def symbol : Arithmetic → String
  | .add => "+"
  | .subtract => "-"
  | .multiply => "*"
  | .modulo => "%"

def ofSymbol? : String → Option Arithmetic
  | "+" => some .add
  | "-" => some .subtract
  | "*" => some .multiply
  | "%" => some .modulo
  | _ => none

@[simp]
theorem ofSymbol?_symbol (op : Arithmetic) :
    ofSymbol? op.symbol = some op := by
  cases op <;> rfl

end Arithmetic

namespace Comparison

def symbol : Comparison → String
  | .equal => "=="
  | .notEqual => "!="
  | .less => "<"
  | .greater => ">"
  | .lessEqual => "<="
  | .greaterEqual => ">="

def ofSymbol? : String → Option Comparison
  | "==" => some .equal
  | "!=" => some .notEqual
  | "<" => some .less
  | ">" => some .greater
  | "<=" => some .lessEqual
  | ">=" => some .greaterEqual
  | _ => none

@[simp]
theorem ofSymbol?_symbol (op : Comparison) :
    ofSymbol? op.symbol = some op := by
  cases op <;> rfl

end Comparison

namespace Operator

def symbol : Operator → String
  | .arithmetic op => op.symbol
  | .comparison op => op.symbol

def isArithmetic : Operator → Bool
  | .arithmetic _ => true
  | .comparison _ => false

/-- The operator with a given spelling; no spelling is shared by the two
families. -/
def ofSymbol? (text : String) : Option Operator :=
  match Arithmetic.ofSymbol? text with
  | some op => some (.arithmetic op)
  | none => (Comparison.ofSymbol? text).map .comparison

end Operator

end SelectChain

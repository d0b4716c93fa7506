import SelectChain.Operator
import SelectChain.Scope

/-!
# The entries of a bound expression

The right-hand side of a binding is collected as a stack of entries and turned
into text from its right end.  What an entry contributes depends on its two
neighbours only: an identifier behind a dot is a field, one in front of a dot
qualifies a field, and any other is a bare name.
-/

namespace SelectChain

/-- One piece of an expression. -/
inductive Entry where
  | identifier (name : String)
  | number (digits : String)
  | operator (op : Operator)
  | opening
  | closing
  | dot
  /-- The `if (` of a conditional. -/
  | ifOpen
  /-- The end of its condition. -/
  | thenMark
  /-- Its `else`. -/
  | elseMark
  /-- The end of its last branch, which no token marks. -/
  | ifClose
  deriving DecidableEq

namespace Entry

/-- The text of an entry that needs no scope. -/
def verbatim : Entry → String
  | .identifier name => name
  | .number digits => digits
  | .operator op => " " ++ op.symbol ++ " "
  | .opening => "("
  | .closing => ")"
  | .dot => "."
  | .ifOpen => "if("
  | .thenMark => ", "
  | .elseMark => ", "
  | .ifClose => ")"

def isArithmetic : Entry → Bool
  | .operator op => op.isArithmetic
  | _ => false

/-- The number of groups that are still open to the left of an entry, from
the number open to its right. -/
def depthLeft (depth : Nat) : Entry → Nat
  | .closing | .ifClose => depth + 1
  | .opening | .ifOpen => depth - 1
  | _ => depth

/-- Whether there is a neighbour and it is an arithmetic operator. -/
def joins : Option Entry → Bool
  | some entry => entry.isArithmetic
  | none => false

/-- What an entry contributes to the text, between its neighbours. -/
def piece (scope : Scope) (left right : Option Entry) :
    Entry → Except ScopeError String
  | .identifier name =>
      if left = some .dot then .ok name
      else if right = some .dot then
        (scope.requireParameter name).map fun _ => ""
      else scope.resolve name (joins left || joins right)
  | .dot => .ok ""
  | entry => .ok entry.verbatim

end Entry

/-- The entries of an expression, the last one first. -/
abbrev Stack :=
  List Entry

namespace Stack

/-- Turns the entries of `stack` into text in front of `done`, given the entry
to their right and the number of groups open there.  At a fault the entries
below the faulty one remain. -/
def unwindOnto (scope : Scope) (right : Option Entry) (depth : Nat)
    (done : Fragment) : Stack → Except ScopeError Fragment × Stack
  | [] => (.ok done, [])
  | entry :: below =>
      match entry.piece scope below.head? right with
      | .error error => (.error error, below)
      | .ok text =>
          unwindOnto scope (some entry) (entry.depthLeft depth)
            ⟨text ++ done.text,
              done.compound || (depth == 0 && entry.isArithmetic)⟩
            below

/-- The fragment that a stack stands for, and the stack left behind. -/
def unwind (scope : Scope) (stack : Stack) :
    Except ScopeError Fragment × Stack :=
  unwindOnto scope none 0 ⟨"", false⟩ stack

end Stack

end SelectChain

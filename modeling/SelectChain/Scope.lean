import SelectChain.Error

/-!
# Scopes

The names that the body of one transformation can use: its parameter, and the
values bound so far.  The parameter is a field of its own, so a scope has
exactly one, and no binding can take its place.
-/

namespace SelectChain

/-- The text of a column expression.  It is compound if it has an arithmetic
operator outside all parentheses, and then needs parentheses of its own next to
another such operator. -/
structure Fragment where
  text : String
  compound : Bool
  deriving DecidableEq

/-- The text of a fragment at a place of use; `joined` says whether an
arithmetic operator stands right beside it. -/
def Fragment.spliced (fragment : Fragment) (joined : Bool) : String :=
  if fragment.compound && joined then "(" ++ fragment.text ++ ")"
  else fragment.text

/-- What a name stands for. -/
inductive Binding where
  | parameter
  | value (fragment : Fragment)
  deriving DecidableEq

/-- The parameter of a transformation and its bound values, oldest first. -/
structure Scope where
  parameter : String
  values : List (String × Fragment)
  deriving DecidableEq

namespace Scope

def parameterColumn : String :=
  "_1"

def ofParameter (parameter : String) : Scope :=
  ⟨parameter, []⟩

/-- All names with their meanings, in binding order. -/
def entries (scope : Scope) : List (String × Binding) :=
  (scope.parameter, .parameter) ::
    scope.values.map fun value => (value.1, .value value.2)

def size (scope : Scope) : Nat :=
  scope.entries.length

def lookup? (scope : Scope) (name : String) : Option Binding :=
  if name = scope.parameter then some .parameter
  else (scope.values.lookup name).map .value

/-- Binds a name that has no meaning yet. -/
def bind (scope : Scope) (name : String) (fragment : Fragment) :
    Except ScopeError Scope :=
  match scope.lookup? name with
  | some .parameter => .error (.parameterRebound name)
  | some (.value _) => .error (.duplicateBinding name)
  | none =>
      .ok { scope with values := scope.values ++ [(name, fragment)] }

/-- The column text of a bare name; `joined` says whether an arithmetic
operator stands right beside it. -/
def resolve (scope : Scope) (name : String) (joined : Bool) :
    Except ScopeError String :=
  match scope.lookup? name with
  | some .parameter => .ok parameterColumn
  | some (.value fragment) => .ok (fragment.spliced joined)
  | none => .error (.undeclared name)

/-- Only the parameter has fields. -/
def requireParameter (scope : Scope) (qualifier : String) :
    Except ScopeError Unit :=
  match scope.lookup? qualifier with
  | some .parameter => .ok ()
  | some (.value _) => .error (.fieldOnBinding qualifier)
  | none => .error (.undeclared qualifier)

def describeEntry : String × Binding → String
  | (name, .parameter) => "key: " ++ name ++ ", val: <parameter>\n"
  | (name, .value fragment) =>
      "key: " ++ name ++ ", val: " ++ fragment.text ++ "\n"

/-- The listing of a scope, one name per line. -/
def describe (scope : Scope) : String :=
  String.join (scope.entries.map describeEntry)

/-! ## How binding changes look-up -/

@[simp]
theorem lookup?_parameter (scope : Scope) :
    scope.lookup? scope.parameter = some .parameter := by
  simp [lookup?]

@[simp]
theorem lookup?_ofParameter_of_ne
    {parameter name : String} (h : name ≠ parameter) :
    (ofParameter parameter).lookup? name = none := by
  simp [lookup?, ofParameter, h]

/-- A name can be bound exactly when it has no meaning. -/
theorem bind_eq_ok_iff
    {scope after : Scope} {name : String} {fragment : Fragment} :
    scope.bind name fragment = .ok after ↔
      scope.lookup? name = none ∧
        after = { scope with values := scope.values ++ [(name, fragment)] } := by
  unfold bind
  cases h : scope.lookup? name with
  | none => simp [eq_comm]
  | some binding => cases binding <;> simp

end Scope

end SelectChain

import SelectChain.Proofs.BodyReading
import Mathlib.Tactic

/-!
# Scope rules

The outcome of a body is decided by the scope rules: a body has a stage if and
only if it is well scoped, and the error of any other body names one of its
violations.  The invariant behind both is that the scope in front of an
assignment holds the names of the assignments before it.
-/

namespace SelectChain

namespace Scope

def names (scope : Scope) : List String :=
  scope.values.map Prod.fst

theorem lookup_eq_none_iff (scope : Scope) (name : String) :
    scope.values.lookup name = none ↔ name ∉ scope.names := by
  rw [List.lookup_eq_none_iff, names, List.mem_map]
  constructor
  · rintro hall ⟨value, hmem, rfl⟩
    simpa using hall value hmem
  · intro hnot value hmem
    rw [bne_iff_ne]
    rintro rfl
    exact hnot ⟨value, hmem, rfl⟩

/-- A name is the parameter, a bound value or unknown. -/
theorem lookup?_cases (scope : Scope) (name : String) :
    (scope.lookup? name = some .parameter ∧ name = scope.parameter) ∨
      (∃ fragment, scope.lookup? name = some (.value fragment) ∧
        name ≠ scope.parameter ∧ name ∈ scope.names) ∨
      (scope.lookup? name = none ∧ name ≠ scope.parameter ∧
        name ∉ scope.names) := by
  unfold lookup?
  by_cases hname : name = scope.parameter
  · left
    simp [hname]
  · right
    cases hlookup : scope.values.lookup name with
    | some fragment =>
        left
        have hmem : name ∈ scope.names := by
          by_contra hnot
          rw [(scope.lookup_eq_none_iff name).mpr hnot] at hlookup
          cases hlookup
        exact ⟨fragment, by simp [hname], hname, hmem⟩
    | none =>
        right
        exact ⟨by simp [hname], hname,
          (scope.lookup_eq_none_iff name).mp hlookup⟩

end Scope

namespace Grammar

/-! ## Operands -/

theorem Operand.check_cases (scope : Scope) (operand : Operand) :
    (operand.check scope = .ok () ∧
        operand.WellScoped scope.parameter scope.names) ∨
      ∃ error, operand.check scope = .error error ∧
        operand.Violates scope.parameter scope.names error := by
  cases operand with
  | number digits => exact Or.inl ⟨rfl, trivial⟩
  | bare name =>
      simp only [check, Scope.resolve]
      rcases scope.lookup?_cases name.text with
        ⟨hlookup, hname⟩ | ⟨fragment, hlookup, -, hmem⟩ |
          ⟨hlookup, hname, hmem⟩
      · rw [hlookup]
        exact Or.inl ⟨rfl, Or.inl hname⟩
      · rw [hlookup]
        exact Or.inl ⟨rfl, Or.inr hmem⟩
      · rw [hlookup]
        exact Or.inr ⟨_, rfl, .bare hname hmem⟩
  | access qualifier field =>
      simp only [check, Scope.requireParameter]
      rcases scope.lookup?_cases qualifier.text with
        ⟨hlookup, hname⟩ | ⟨fragment, hlookup, hname, hmem⟩ |
          ⟨hlookup, hname, hmem⟩
      · rw [hlookup]
        exact Or.inl ⟨rfl, hname⟩
      · rw [hlookup]
        exact Or.inr ⟨_, rfl, .value hname hmem⟩
      · rw [hlookup]
        exact Or.inr ⟨_, rfl, .qualifier hname hmem⟩
  | numberAccess digits field => exact Or.inr ⟨_, rfl, .number⟩

theorem Operand.Violates.not_wellScoped
    {parameter : String} {earlier : List String} {operand : Operand}
    {error : ScopeError} (h : operand.Violates parameter earlier error) :
    ¬ operand.WellScoped parameter earlier := by
  intro hscoped
  cases h with
  | bare hparameter hearlier =>
      rcases hscoped with hname | hmem
      · exact hparameter hname
      · exact hearlier hmem
  | qualifier hparameter _ => exact hparameter hscoped
  | value hparameter _ => exact hparameter hscoped
  | number => exact hscoped

theorem Operand.wellScoped_of_check
    {scope : Scope} {operand : Operand} (h : operand.check scope = .ok ()) :
    operand.WellScoped scope.parameter scope.names := by
  rcases operand.check_cases scope with ⟨-, hscoped⟩ | ⟨error, herror, -⟩
  · exact hscoped
  · rw [h] at herror
    cases herror

theorem Operand.violates_of_check
    {scope : Scope} {operand : Operand} {error : ScopeError}
    (h : operand.check scope = .error error) :
    operand.Violates scope.parameter scope.names error := by
  rcases operand.check_cases scope with ⟨hok, -⟩ | ⟨other, hother, hviolates⟩
  · rw [h] at hok
    cases hok
  · rw [h] at hother
    cases hother
    exact hviolates

theorem Operand.violates_of_checkNumber
    {parameter : String} {earlier : List String} {operand : Operand}
    {error : ScopeError} (h : operand.checkNumber = .error error) :
    operand.Violates parameter earlier error := by
  cases operand with
  | numberAccess digits field =>
      cases h
      exact .number
  | number digits => cases h
  | bare name => cases h
  | access qualifier field => cases h

/-! ## Assignments -/

theorem Assignment.outcome_cases
    (scope : Scope) (assignment : Assignment Expression) :
    (assignment.outcome scope =
        .ok { scope with values := scope.values ++
          [(assignment.name.text, assignment.value.fragment scope)] } ∧
        assignment.WellScoped scope.parameter scope.names) ∨
      ∃ error, assignment.outcome scope = .error error ∧
        assignment.Violates scope.parameter scope.names error := by
  unfold outcome
  cases hnumbers : assignment.value.checkNumbers with
  | error error =>
      right
      obtain ⟨operand, hmem, hoperand⟩ := exists_of_forM_eq_error hnumbers
      exact ⟨error, rfl, .value hmem (Operand.violates_of_checkNumber hoperand)⟩
  | ok _ =>
      rw [ok_bind]
      cases hback : assignment.value.checkBack scope with
      | error error =>
          right
          obtain ⟨operand, hmem, hoperand⟩ := exists_of_forM_eq_error hback
          exact ⟨error, rfl, .value (List.mem_reverse.mp hmem)
            (Operand.violates_of_check hoperand)⟩
      | ok _ =>
          have hvalue : assignment.value.WellScoped scope.parameter
              scope.names := by
            intro operand hmem
            exact Operand.wellScoped_of_check
              (forM_eq_ok_iff.mp hback operand (List.mem_reverse.mpr hmem))
          rw [ok_bind, Scope.bind]
          rcases scope.lookup?_cases assignment.name.text with
            ⟨hlookup, hname⟩ | ⟨fragment, hlookup, -, hmem⟩ |
              ⟨hlookup, hname, hmem⟩
          · rw [hlookup]
            exact Or.inr ⟨_, rfl, .parameter hname⟩
          · rw [hlookup]
            exact Or.inr ⟨_, rfl, .duplicate hmem⟩
          · rw [hlookup]
            exact Or.inl ⟨rfl, hvalue, hname, hmem⟩

theorem Assignment.Violates.not_wellScoped
    {parameter : String} {earlier : List String}
    {assignment : Assignment Expression} {error : ScopeError}
    (h : assignment.Violates parameter earlier error) :
    ¬ assignment.WellScoped parameter earlier := by
  intro hscoped
  cases h with
  | value hoperand hviolates =>
      exact hviolates.not_wellScoped (hscoped.value _ hoperand)
  | parameter hname => exact hscoped.ne_parameter hname
  | duplicate hname => exact hscoped.fresh hname

/-- Binding in order meets no fault, or stops at the first one. -/
theorem bindAll_cases
    (assignments : List (Assignment Expression)) (scope : Scope) :
    (∃ extended, bindAll assignments scope = .ok extended ∧
        extended.parameter = scope.parameter ∧
        extended.names = scope.names ++ boundNames assignments ∧
        ∀ before assignment after,
          assignments = before ++ assignment :: after →
            assignment.WellScoped scope.parameter
              (scope.names ++ boundNames before)) ∨
      ∃ error before assignment after,
        bindAll assignments scope = .error error ∧
        assignments = before ++ assignment :: after ∧
        assignment.Violates scope.parameter
          (scope.names ++ boundNames before) error := by
  induction assignments generalizing scope with
  | nil =>
      left
      exact ⟨scope, rfl, rfl, by simp [boundNames], by simp⟩
  | cons assignment rest ih =>
      rw [bindAll]
      rcases assignment.outcome_cases scope with
        ⟨houtcome, hscoped⟩ | ⟨error, houtcome, hviolates⟩
      · rw [houtcome, ok_bind]
        -- The names in front of the rest are those before and the new one.
        have hnames : ∀ names : List String,
            Scope.names { scope with values := scope.values ++
              [(assignment.name.text, assignment.value.fragment scope)] } ++
              names = scope.names ++ (assignment.name.text :: names) := by
          simp [Scope.names]
        rcases ih { scope with values := scope.values ++
            [(assignment.name.text, assignment.value.fragment scope)] } with
          ⟨extended, hextended, hparameter, hbound, hrest⟩ |
            ⟨error, before, faulty, after, herror, hsplit, hviolates⟩
        · left
          refine ⟨extended, hextended, hparameter, ?_, ?_⟩
          · rw [hbound, hnames]
            rfl
          · intro before other after hsplit
            cases before with
            | nil =>
                cases hsplit
                simpa [boundNames] using hscoped
            | cons first before =>
                cases hsplit
                have hother := hrest before other after rfl
                rw [hnames] at hother
                exact hother
        · right
          refine ⟨error, assignment :: before, faulty, after, herror, ?_, ?_⟩
          · rw [hsplit]
            rfl
          · rw [hnames] at hviolates
            exact hviolates
      · right
        refine ⟨error, [], assignment, rest, ?_, rfl, ?_⟩
        · rw [houtcome]
          rfl
        · simpa [boundNames] using hviolates

/-! ## Bodies -/

/-- A body becomes a stage if it keeps the rules, and else an error that names
a violation. -/
theorem Body.outcome_cases (parameter : String) (body : Body Expression) :
    (∃ stage, body.outcome parameter = .ok stage ∧
        body.WellScoped parameter) ∨
      ∃ error, body.outcome parameter = .error error ∧
        body.Violates parameter error := by
  unfold outcome
  rcases bindAll_cases body.assignments (.ofParameter parameter) with
    ⟨scope, hscope, hparameter, hnames, hassignments⟩ |
      ⟨error, before, assignment, after, herror, hsplit, hviolates⟩
  · rw [hscope, ok_bind]
    have hnone : (Scope.ofParameter parameter).names = [] := rfl
    rw [hnone, List.nil_append] at hnames
    have hparameter : scope.parameter = parameter := hparameter
    cases hcheck : checkElements scope body.elements with
    | ok _ =>
        left
        refine ⟨_, rfl, hassignments, ?_⟩
        intro element helement operand hoperand
        have hverdict := forM_eq_ok_iff.mp
          (forM_eq_ok_iff.mp hcheck element helement) operand hoperand
        have hscoped := Operand.wellScoped_of_check hverdict
        rwa [hparameter, hnames] at hscoped
    | error error =>
        right
        obtain ⟨element, helement, hverdict⟩ := exists_of_forM_eq_error hcheck
        obtain ⟨operand, hoperand, hfault⟩ := exists_of_forM_eq_error hverdict
        have hviolates := Operand.violates_of_check hfault
        rw [hparameter, hnames] at hviolates
        exact ⟨error, rfl, .element helement hoperand hviolates⟩
  · right
    rw [herror]
    exact ⟨error, rfl, .assignment hsplit hviolates⟩

theorem Body.Violates.not_wellScoped
    {parameter : String} {body : Body Expression} {error : ScopeError}
    (h : body.Violates parameter error) : ¬ body.WellScoped parameter := by
  intro hscoped
  cases h with
  | assignment hsplit hviolates =>
      exact hviolates.not_wellScoped (hscoped.assignments _ _ _ hsplit)
  | element helement hoperand hviolates =>
      exact hviolates.not_wellScoped
        (hscoped.elements _ helement _ hoperand)

end Grammar

end SelectChain

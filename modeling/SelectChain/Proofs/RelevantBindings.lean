import SelectChain.Proofs.ScopeRules
import Mathlib.Tactic

/-!
# The bindings that matter

A binding matters to a body only through the names that refer to it.  One more
binding that nothing refers to, or two neighbours in the other order if the later
does not refer to the earlier, leave the columns of the body and the fragments of
all its bindings as they are.  The invariant behind both is `Scope.Extends`: what
a name means in one scope it means in the other, so the rest of the body is read
alike in the two.
-/

namespace SelectChain

namespace Scope

/-- The scope with further values behind its own. -/
def append (scope : Scope) (more : List (String × Fragment)) : Scope :=
  ⟨scope.parameter, scope.values ++ more⟩

@[simp] theorem append_nil (scope : Scope) : scope.append [] = scope := by
  simp [append]

@[simp] theorem append_append
    (scope : Scope) (first second : List (String × Fragment)) :
    (scope.append first).append second = scope.append (first ++ second) := by
  simp [append]

/-- The older of two meanings counts. -/
theorem lookup?_append
    (scope : Scope) (more : List (String × Fragment)) (name : String) :
    (scope.append more).lookup? name =
      (scope.lookup? name).or ((more.lookup name).map .value) := by
  unfold lookup? append
  by_cases hname : name = scope.parameter
  · simp [hname]
  · simp only [hname, if_false, List.lookup_append]
    cases scope.values.lookup name <;> rfl

theorem lookup?_append_of_ne
    (scope : Scope) {name other : String} (fragment : Fragment)
    (h : other ≠ name) :
    (scope.append [(name, fragment)]).lookup? other = scope.lookup? other := by
  simp [lookup?_append, List.lookup_cons, beq_false_of_ne h]

theorem lookup?_eq_none_iff (scope : Scope) (name : String) :
    scope.lookup? name = none ↔
      name ≠ scope.parameter ∧ name ∉ scope.names := by
  rcases scope.lookup?_cases name with
    ⟨hlookup, hname⟩ | ⟨fragment, hlookup, hname, hmem⟩ |
      ⟨hlookup, hname, hmem⟩
  · simp [hname]
  · simp [hlookup, hmem]
  · simp [hlookup, hname, hmem]

/-- What a name means in `scope`, it means in `other`. -/
def Extends (other scope : Scope) : Prop :=
  ∀ name binding, scope.lookup? name = some binding →
    other.lookup? name = some binding

theorem extends_append
    (scope : Scope) (more : List (String × Fragment)) :
    (scope.append more).Extends scope := by
  intro name binding hlookup
  rw [lookup?_append, hlookup, Option.some_or]

/-- A value that is new to both scopes keeps them alike. -/
theorem Extends.append_singleton
    {scope other : Scope} (h : other.Extends scope) {name : String}
    (hnew : other.lookup? name = none) (fragment : Fragment) :
    (other.append [(name, fragment)]).Extends
      (scope.append [(name, fragment)]) := by
  intro used binding hlookup
  by_cases hused : used = name
  · subst hused
    have hscope : scope.lookup? used = none := by
      cases hmeaning : scope.lookup? used with
      | none => rfl
      | some meaning =>
          rw [h used meaning hmeaning] at hnew
          cases hnew
    rw [lookup?_append, hscope] at hlookup
    rw [lookup?_append, hnew]
    exact hlookup
  · rw [lookup?_append_of_ne _ _ hused] at hlookup ⊢
    exact h used binding hlookup

/-- Two values under different names can be added in either order. -/
theorem lookup?_append_swap
    (scope : Scope) {name other : String} (hne : name ≠ other)
    (fragment fragment' : Fragment) (used : String) :
    (scope.append [(other, fragment'), (name, fragment)]).lookup? used =
      (scope.append [(name, fragment), (other, fragment')]).lookup? used := by
  rw [lookup?_append, lookup?_append]
  congr 2
  simp only [List.lookup_cons, List.lookup_nil]
  by_cases hname : used = name
  · subst hname
    simp [beq_false_of_ne hne]
  · simp [beq_false_of_ne hname]

end Scope

namespace Grammar

/-! ## Expressions in two scopes -/

/-- The name that an operand asks the scope for. -/
def Operand.consulted? : Operand → Option String
  | .bare name => some name.text
  | .access qualifier _ => some qualifier.text
  | .number _ | .numberAccess _ _ => none

section Congruence

variable {scope other : Scope}

theorem Operand.check_congr
    {operand : Operand}
    (h : ∀ name, operand.consulted? = some name →
      scope.lookup? name = other.lookup? name) :
    operand.check scope = operand.check other := by
  cases operand with
  | number digits => rfl
  | numberAccess digits field => rfl
  | bare name => simp only [check, Scope.resolve, h name.text rfl]
  | access qualifier field =>
      simp only [check, Scope.requireParameter, h qualifier.text rfl]

theorem Operand.text_congr
    {operand : Operand} (joined : Bool)
    (h : ∀ name, operand.consulted? = some name →
      scope.lookup? name = other.lookup? name) :
    operand.text scope joined = operand.text other joined := by
  cases operand with
  | number digits => rfl
  | numberAccess digits field => rfl
  | bare name => simp only [text, h name.text rfl]
  | access qualifier field => rfl

/-- The text of an expression depends on the names that it asks for. -/
theorem Expression.text_congr
    {expression : Expression} (joined : Bool)
    (h : ∀ operand ∈ expression.operands, ∀ name,
      operand.consulted? = some name →
        scope.lookup? name = other.lookup? name) :
    expression.text scope joined = expression.text other joined := by
  induction expression generalizing joined with
  | operand atom => exact Operand.text_congr joined (h atom (by simp [operands]))
  | operandThen atom op rest ih =>
      rw [text, text, Operand.text_congr true (h atom (by simp [operands])),
        ih true fun operand hmem => h operand (by simp [operands, hmem])]
  | group inner ih => rw [text, text, ih false h]
  | groupThen inner op rest ihInner ihRest =>
      rw [text, text,
        ihInner false fun operand hmem => h operand (by simp [operands, hmem]),
        ihRest true fun operand hmem => h operand (by simp [operands, hmem])]
  | conditional cmp left right yes no ihLeft ihRight ihYes ihNo =>
      rw [text, text,
        ihLeft false fun operand hmem => h operand (by simp [operands, hmem]),
        ihRight false fun operand hmem => h operand (by simp [operands, hmem]),
        ihYes false fun operand hmem => h operand (by simp [operands, hmem]),
        ihNo false fun operand hmem => h operand (by simp [operands, hmem])]

end Congruence

/-- An operand that passes its check asks for names that have a meaning. -/
theorem Operand.exists_lookup_of_check
    {scope : Scope} {operand : Operand} (h : operand.check scope = .ok ())
    {name : String} (hname : operand.consulted? = some name) :
    ∃ binding, scope.lookup? name = some binding := by
  cases operand with
  | number digits => cases hname
  | numberAccess digits field => cases hname
  | bare used =>
      cases hname
      cases hlookup : scope.lookup? used.text with
      | some binding => exact ⟨binding, rfl⟩
      | none =>
          rw [check, Scope.resolve, hlookup] at h
          cases h
  | access qualifier field =>
      cases hname
      cases hlookup : scope.lookup? qualifier.text with
      | some binding => exact ⟨binding, rfl⟩
      | none =>
          rw [check, Scope.requireParameter, hlookup] at h
          cases h

/-- Of a value that it does not refer to by its bare name, an operand that passes
asks nothing: only the parameter has fields. -/
theorem Operand.consulted?_ne
    {scope : Scope} {bound : String} (hnew : scope.lookup? bound = none)
    {fragment : Fragment} {operand : Operand}
    (h : operand.check (scope.append [(bound, fragment)]) = .ok ())
    (hbare : ∀ name : Name, operand = .bare name → name.text ≠ bound)
    {name : String} (hname : operand.consulted? = some name) :
    name ≠ bound := by
  cases operand with
  | number digits => cases hname
  | numberAccess digits field => cases hname
  | bare used =>
      cases hname
      exact hbare used rfl
  | access qualifier field =>
      cases hname
      intro hbound
      have hvalue : (scope.append [(bound, fragment)]).lookup? bound =
          some (.value fragment) := by
        simp [Scope.lookup?_append, hnew]
      rw [check, Scope.requireParameter, hbound, hvalue] at h
      cases h

/-- All operands pass their checks. -/
def Expression.Passes (scope : Scope) (expression : Expression) : Prop :=
  ∀ operand ∈ expression.operands, operand.check scope = .ok ()

theorem Expression.Passes.lookup_eq
    {scope other : Scope} {expression : Expression}
    (h : expression.Passes scope) (hextends : other.Extends scope) :
    ∀ operand ∈ expression.operands, ∀ name,
      operand.consulted? = some name →
        scope.lookup? name = other.lookup? name := by
  intro operand hmem name hname
  obtain ⟨binding, hlookup⟩ :=
    Operand.exists_lookup_of_check (h operand hmem) hname
  rw [hlookup, hextends name binding hlookup]

theorem Expression.Passes.congr
    {scope other : Scope} {expression : Expression}
    (h : expression.Passes scope)
    (hlookup : ∀ operand ∈ expression.operands, ∀ name,
      operand.consulted? = some name →
        scope.lookup? name = other.lookup? name) :
    expression.Passes other := by
  intro operand hmem
  rw [← Operand.check_congr (hlookup operand hmem)]
  exact h operand hmem

theorem Expression.passes_of_wellScoped
    {scope : Scope} {expression : Expression}
    (h : expression.WellScoped scope.parameter scope.names) :
    expression.Passes scope := by
  intro operand hmem
  rcases operand.check_cases scope with ⟨hok, -⟩ | ⟨error, -, hviolates⟩
  · exact hok
  · exact absurd (h operand hmem) hviolates.not_wellScoped

theorem Operand.checkNumber_of_check
    {scope : Scope} {operand : Operand} (h : operand.check scope = .ok ()) :
    operand.checkNumber = .ok () := by
  cases operand with
  | numberAccess digits field => cases h
  | number digits => rfl
  | bare name => rfl
  | access qualifier field => rfl

/-! ## Assignments in two scopes -/

theorem Assignment.outcome_eq_ok_iff
    {scope extended : Scope} {assignment : Assignment Expression} :
    assignment.outcome scope = .ok extended ↔
      assignment.value.Passes scope ∧
        scope.lookup? assignment.name.text = none ∧
        extended = scope.append
          [(assignment.name.text, assignment.value.fragment scope)] := by
  constructor
  · intro h
    unfold outcome at h
    cases hnumbers : assignment.value.checkNumbers with
    | error error =>
        rw [hnumbers] at h
        cases h
    | ok _ =>
        rw [hnumbers, ok_bind] at h
        cases hback : assignment.value.checkBack scope with
        | error error =>
            rw [hback] at h
            cases h
        | ok _ =>
            rw [hback, ok_bind, Scope.bind_eq_ok_iff] at h
            refine ⟨?_, h⟩
            intro operand hmem
            exact forM_eq_ok_iff.mp hback operand (List.mem_reverse.mpr hmem)
  · rintro ⟨hpasses, hnew, rfl⟩
    have hnumbers : assignment.value.checkNumbers = .ok () :=
      forM_eq_ok_iff.mpr fun operand hmem =>
        Operand.checkNumber_of_check (hpasses operand hmem)
    have hback : assignment.value.checkBack scope = .ok () :=
      forM_eq_ok_iff.mpr fun operand hmem =>
        hpasses operand (List.mem_reverse.mp hmem)
    rw [outcome, hnumbers, ok_bind, hback, ok_bind, Scope.bind_eq_ok_iff]
    exact ⟨hnew, rfl⟩

theorem Expression.fragment_congr
    {scope other : Scope} {expression : Expression}
    (h : ∀ operand ∈ expression.operands, ∀ name,
      operand.consulted? = some name →
        scope.lookup? name = other.lookup? name) :
    expression.fragment scope = expression.fragment other := by
  rw [fragment, fragment, text_congr false h]

/-- An assignment adds the same value to a scope and to an extension of it. -/
theorem Assignment.outcome_of_extends
    {scope other extended : Scope} {assignment : Assignment Expression}
    (h : assignment.outcome scope = .ok extended)
    (hextends : other.Extends scope)
    (hnew : other.lookup? assignment.name.text = none) :
    ∃ fragment,
      extended = scope.append [(assignment.name.text, fragment)] ∧
      assignment.outcome other =
        .ok (other.append [(assignment.name.text, fragment)]) := by
  obtain ⟨hpasses, -, rfl⟩ := outcome_eq_ok_iff.mp h
  have hlookup := hpasses.lookup_eq hextends
  refine ⟨assignment.value.fragment scope, rfl, ?_⟩
  rw [outcome_eq_ok_iff, Expression.fragment_congr hlookup]
  exact ⟨hpasses.congr hlookup, hnew, rfl⟩

/-- So do all assignments behind it, if their names are new to the extension
as well. -/
theorem bindAll_of_extends
    {scope other final : Scope} {assignments : List (Assignment Expression)}
    (h : bindAll assignments scope = .ok final)
    (hextends : other.Extends scope)
    (hnew : ∀ name ∈ boundNames assignments,
      scope.lookup? name = none → other.lookup? name = none) :
    ∃ more, final = scope.append more ∧
      more.map Prod.fst = boundNames assignments ∧
      bindAll assignments other = .ok (other.append more) ∧
      (other.append more).Extends (scope.append more) := by
  induction assignments generalizing scope other with
  | nil =>
      cases h
      exact ⟨[], by simp, rfl, by simp [bindAll], by simpa using hextends⟩
  | cons assignment rest ih =>
      rw [bindAll] at h
      cases hfirst : assignment.outcome scope with
      | error error =>
          rw [hfirst] at h
          cases h
      | ok extended =>
          rw [hfirst, ok_bind] at h
          obtain ⟨-, hunbound, -⟩ := Assignment.outcome_eq_ok_iff.mp hfirst
          have hfree := hnew _ (by simp [boundNames]) hunbound
          obtain ⟨fragment, rfl, hother⟩ :=
            Assignment.outcome_of_extends hfirst hextends hfree
          -- A name of the rest is new behind the first value in both scopes,
          -- or in neither.
          have hrest : ∀ name ∈ boundNames rest,
              (scope.append [(assignment.name.text, fragment)]).lookup? name =
                none →
              (other.append [(assignment.name.text, fragment)]).lookup? name =
                none := by
            intro name hmem hnone
            rw [Scope.lookup?_append, Option.or_eq_none_iff] at hnone ⊢
            exact ⟨hnew name (List.mem_cons_of_mem _ hmem) hnone.1, hnone.2⟩
          obtain ⟨more, rfl, hnames, hmore, hfinal⟩ :=
            ih h (hextends.append_singleton hfree fragment) hrest
          refine ⟨(assignment.name.text, fragment) :: more, ?_, ?_, ?_, ?_⟩
          · simp
          · simp [boundNames] at hnames ⊢
            exact hnames
          · rw [bindAll, hother, ok_bind, hmore]
            simp
          · simpa using hfinal

theorem bindAll_append
    (first second : List (Assignment Expression)) (scope : Scope) :
    bindAll (first ++ second) scope =
      bindAll first scope >>= bindAll second := by
  induction first generalizing scope with
  | nil => rfl
  | cons assignment rest ih =>
      simp only [List.cons_append, bindAll, bind_assoc]
      congr 1
      funext extended
      exact ih extended

theorem exists_of_bindAll_append
    {first second : List (Assignment Expression)} {scope final : Scope}
    (h : bindAll (first ++ second) scope = .ok final) :
    ∃ middle, bindAll first scope = .ok middle ∧
      bindAll second middle = .ok final := by
  rw [bindAll_append] at h
  cases hfirst : bindAll first scope with
  | error error =>
      rw [hfirst] at h
      cases h
  | ok middle =>
      rw [hfirst] at h
      exact ⟨middle, rfl, h⟩

theorem bindAll_singleton
    (assignment : Assignment Expression) (scope : Scope) :
    bindAll [assignment] scope = assignment.outcome scope := by
  rw [bindAll]
  exact bind_pure _

/-- Two assignments of which the second does not refer to the first can be made
in either order. -/
theorem bindAll_pair_swap
    {first second : Assignment Expression} {scope final : Scope}
    (h : bindAll [first, second] scope = .ok final)
    (hbare : ∀ name : Name, Operand.bare name ∈ second.value.operands →
      name.text ≠ first.name.text) :
    first.name.text ≠ second.name.text ∧
      ∃ fragment fragment',
        final = scope.append
          [(first.name.text, fragment), (second.name.text, fragment')] ∧
        bindAll [second, first] scope = .ok (scope.append
          [(second.name.text, fragment'), (first.name.text, fragment)]) := by
  have hsplit : bindAll ([first] ++ [second]) scope = .ok final := h
  obtain ⟨middle, hfirst, hsecond⟩ := exists_of_bindAll_append hsplit
  rw [bindAll_singleton] at hfirst hsecond
  obtain ⟨-, hnew, rfl⟩ := Assignment.outcome_eq_ok_iff.mp hfirst
  obtain ⟨hpasses, hnew', rfl⟩ := Assignment.outcome_eq_ok_iff.mp hsecond
  have hne : first.name.text ≠ second.name.text := by
    intro heq
    rw [← heq, Scope.lookup?_append, hnew] at hnew'
    simp at hnew'
  -- The second value is the same in front of the first one as behind it.
  have hlookup : ∀ operand ∈ second.value.operands, ∀ name,
      operand.consulted? = some name →
        (scope.append [(first.name.text, first.value.fragment scope)]).lookup?
          name = scope.lookup? name := by
    intro operand hmem name hname
    apply Scope.lookup?_append_of_ne
    apply Operand.consulted?_ne hnew (hpasses operand hmem) _ hname
    rintro used rfl
    exact hbare used hmem
  have hunbound : scope.lookup? second.name.text = none := by
    rw [← hnew', Scope.lookup?_append_of_ne _ _ hne.symm]
  have hsecond' : second.outcome scope = .ok (scope.append
      [(second.name.text, second.value.fragment scope)]) :=
    Assignment.outcome_eq_ok_iff.mpr ⟨hpasses.congr hlookup, hunbound, rfl⟩
  obtain ⟨fragment, hfragment, hfirst'⟩ :=
    Assignment.outcome_of_extends hfirst
      (scope.extends_append
        [(second.name.text, second.value.fragment scope)])
      (by rw [Scope.lookup?_append_of_ne _ _ hne, hnew])
  refine ⟨hne, fragment, second.value.fragment scope, ?_, ?_⟩
  · rw [hfragment, Scope.append_append, ← hfragment,
      Expression.fragment_congr hlookup]
    rfl
  · rw [bindAll, hsecond', ok_bind, bindAll_singleton, hfirst',
      Scope.append_append]
    rfl

/-! ## Bodies -/

section Bodies

variable {parameter : String} {result : Result Expression}
  {assignments : List (Assignment Expression)}

theorem Result.columns_of_extends
    {scope other : Scope} (hextends : other.Extends scope)
    (h : ∀ element ∈ result.elements, element.Passes scope) :
    result.columns other = result.columns scope := by
  have htext : ∀ element ∈ result.elements,
      element.text other false = element.text scope false := by
    intro element hmem
    exact (Expression.text_congr false
      ((h element hmem).lookup_eq hextends)).symm
  cases result with
  | tuple first more => exact List.map_congr_left htext
  | single only =>
      have honly := htext only (by simp [elements])
      cases only with
      | group inner =>
          have hinner : inner.Passes scope := h (.group inner) (by simp [elements])
          have hsame := Expression.text_congr false (hinner.lookup_eq hextends)
          simp only [columns, hsame]
      | operand atom => simp only [columns, honly]
      | operandThen atom op rest => simp only [columns, honly]
      | groupThen inner op rest => simp only [columns, honly]
      | conditional cmp left right yes no => simp only [columns, honly]

theorem checkElements_eq_ok_iff
    {scope : Scope} {elements : List Expression} :
    checkElements scope elements = .ok () ↔
      ∀ element ∈ elements, element.Passes scope := by
  rw [checkElements, forM_eq_ok_iff]
  exact forall₂_congr fun element _ => forM_eq_ok_iff

theorem Body.outcome_block_eq_ok_iff {stage : Stage} :
    (Body.block assignments result).outcome parameter = .ok stage ↔
      bindAll assignments (.ofParameter parameter) = .ok stage.scope ∧
        (∀ element ∈ result.elements, element.Passes stage.scope) ∧
        stage.columns = result.columns stage.scope := by
  obtain ⟨scope, columns⟩ := stage
  unfold outcome
  simp only [Body.assignments, Body.elements, Body.result]
  cases hbind : bindAll assignments (.ofParameter parameter) with
  | error error => simp [bind, Except.bind]
  | ok extended =>
      rw [ok_bind]
      cases hcheck : checkElements extended result.elements with
      | error error =>
          constructor
          · intro h
            cases h
          · rintro ⟨hscope, hpasses, -⟩
            cases hscope
            rw [checkElements_eq_ok_iff.mpr hpasses] at hcheck
            cases hcheck
      | ok _ =>
          rw [ok_bind]
          have hpasses := checkElements_eq_ok_iff.mp hcheck
          constructor
          · intro h
            cases h
            exact ⟨rfl, hpasses, rfl⟩
          · rintro ⟨hscope, -, hcolumns⟩
            cases hscope
            cases hcolumns
            rfl

/-- The same names with the same values in the same order; semicolons are of no
account. -/
def SameBindings (assignments others : List (Assignment Expression)) : Prop :=
  List.Forall₂ (fun assignment other =>
    assignment.name = other.name ∧ assignment.value = other.value)
    assignments others

theorem SameBindings.bindAll_eq
    {others : List (Assignment Expression)}
    (h : SameBindings assignments others) (scope : Scope) :
    bindAll assignments scope = bindAll others scope := by
  induction h generalizing scope with
  | nil => rfl
  | @cons assignment other rest others hhead _ ih =>
      have houtcome : assignment.outcome scope = other.outcome scope := by
        simp only [Assignment.outcome, hhead.1, hhead.2]
      rw [bindAll, bindAll, houtcome]
      congr 1
      funext extended
      exact ih extended

theorem SameBindings.outcome_eq
    {others : List (Assignment Expression)}
    (h : SameBindings assignments others) :
    (Body.block assignments result).outcome parameter =
      (Body.block others result).outcome parameter := by
  unfold Body.outcome
  simp only [Body.assignments, Body.elements, Body.result, h.bindAll_eq]

/-- The rest of a body is read alike in an extension of its scope. -/
theorem Body.outcome_of_extends
    {before later : List (Assignment Expression)} {stage : Stage}
    (h : (Body.block (before ++ later) result).outcome parameter = .ok stage)
    {scope other : Scope}
    (hscope : bindAll before (.ofParameter parameter) = .ok scope)
    {changed : List (Assignment Expression)}
    (hother : bindAll changed (.ofParameter parameter) = .ok other)
    (hextends : other.Extends scope)
    (hnew : ∀ name ∈ boundNames later,
      scope.lookup? name = none → other.lookup? name = none) :
    ∃ more, more.map Prod.fst = boundNames later ∧
      stage.scope = scope.append more ∧
      (Body.block (changed ++ later) result).outcome parameter =
        .ok ⟨other.append more, stage.columns⟩ := by
  obtain ⟨hbind, hpasses, hcolumns⟩ := outcome_block_eq_ok_iff.mp h
  rw [bindAll_append, hscope, ok_bind] at hbind
  obtain ⟨more, hfinal, hnames, hmore, hextended⟩ :=
    bindAll_of_extends hbind hextends hnew
  rw [hfinal] at hpasses hcolumns
  refine ⟨more, hnames, hfinal, ?_⟩
  rw [outcome_block_eq_ok_iff, bindAll_append, hother, ok_bind]
  refine ⟨hmore, ?_, ?_⟩
  · intro element hmem
    have hpassed := hpasses element hmem
    exact hpassed.congr (hpassed.lookup_eq hextended)
  · rw [hcolumns, Result.columns_of_extends hextended hpasses]

/-- The scope in front of the assignments `later`. -/
theorem Body.exists_scope_before
    {before later : List (Assignment Expression)} {stage : Stage}
    (h : (Body.block (before ++ later) result).outcome parameter = .ok stage) :
    ∃ values, values.map Prod.fst = boundNames before ∧
      bindAll before (.ofParameter parameter) = .ok ⟨parameter, values⟩ ∧
      bindAll later ⟨parameter, values⟩ = .ok stage.scope := by
  obtain ⟨hbind, -, -⟩ := outcome_block_eq_ok_iff.mp h
  obtain ⟨scope, hbefore, hlater⟩ := exists_of_bindAll_append hbind
  obtain ⟨values, rfl, hnames, -, -⟩ :=
    bindAll_of_extends hbefore (fun _ _ hlookup => hlookup)
      (fun _ _ hnone => hnone)
  exact ⟨values, hnames, hbefore, hlater⟩

/-- A further assignment in front of `later`, with a name that the body does
not bind. -/
theorem Body.outcome_insert
    {before later : List (Assignment Expression)}
    {extra : Assignment Expression} {stage : Stage}
    (h : (Body.block (before ++ later) result).outcome parameter = .ok stage)
    (hvalue : extra.value.WellScoped parameter (boundNames before))
    (hparameter : extra.name.text ≠ parameter)
    (hnew : extra.name.text ∉ boundNames (before ++ later)) :
    ∃ values fragment more,
      values.map Prod.fst = boundNames before ∧
      more.map Prod.fst = boundNames later ∧
      stage.scope = ⟨parameter, values ++ more⟩ ∧
      (Body.block (before ++ extra :: later) result).outcome parameter =
        .ok ⟨⟨parameter, values ++ (extra.name.text, fragment) :: more⟩,
          stage.columns⟩ := by
  obtain ⟨values, hnames, hbefore, -⟩ := exists_scope_before h
  simp only [boundNames, List.map_append, List.mem_append, not_or] at hnew
  let scope : Scope := ⟨parameter, values⟩
  have hscopeNames : scope.names = boundNames before := hnames
  have hunbound : scope.lookup? extra.name.text = none := by
    rw [Scope.lookup?_eq_none_iff, hscopeNames]
    exact ⟨hparameter, hnew.1⟩
  have houtcome : extra.outcome scope = .ok (scope.append
      [(extra.name.text, extra.value.fragment scope)]) := by
    rw [Assignment.outcome_eq_ok_iff]
    refine ⟨Expression.passes_of_wellScoped ?_, hunbound, rfl⟩
    rw [hscopeNames]
    exact hvalue
  have hchanged : bindAll (before ++ [extra]) (.ofParameter parameter) =
      .ok (scope.append [(extra.name.text, extra.value.fragment scope)]) := by
    rw [bindAll_append, hbefore, ok_bind, bindAll_singleton, houtcome]
  obtain ⟨more, hmore, hscope, hnewOutcome⟩ :=
    outcome_of_extends h hbefore hchanged (scope.extends_append _) (by
      intro name hmem hnone
      rw [Scope.lookup?_append_of_ne _ _ (ne_of_mem_of_not_mem hmem hnew.2)]
      exact hnone)
  refine ⟨values, extra.value.fragment scope, more, hnames, hmore, hscope, ?_⟩
  simpa [Scope.append, scope] using hnewOutcome

/-- Two neighbours in the other order, of which the later does not refer to the
earlier. -/
theorem Body.outcome_swap
    {before later : List (Assignment Expression)}
    {first second : Assignment Expression} {stage : Stage}
    (h : (Body.block (before ++ first :: second :: later) result).outcome
      parameter = .ok stage)
    (hbare : ∀ name : Name, Operand.bare name ∈ second.value.operands →
      name.text ≠ first.name.text) :
    ∃ values fragment fragment' more,
      values.map Prod.fst = boundNames before ∧
      more.map Prod.fst = boundNames later ∧
      stage.scope = ⟨parameter, values ++ (first.name.text, fragment) ::
        (second.name.text, fragment') :: more⟩ ∧
      (Body.block (before ++ second :: first :: later) result).outcome
          parameter =
        .ok ⟨⟨parameter, values ++ (second.name.text, fragment') ::
          (first.name.text, fragment) :: more⟩, stage.columns⟩ := by
  obtain ⟨values, hnames, hbefore, hlater⟩ := exists_scope_before h
  let scope : Scope := ⟨parameter, values⟩
  have hsplit : bindAll ([first, second] ++ later) scope =
      .ok stage.scope := hlater
  obtain ⟨final, hpair, -⟩ := exists_of_bindAll_append hsplit
  obtain ⟨hne, fragment, fragment', rfl, hswapped⟩ :=
    bindAll_pair_swap hpair hbare
  have hscope : bindAll (before ++ [first, second]) (.ofParameter parameter) =
      .ok (scope.append
        [(first.name.text, fragment), (second.name.text, fragment')]) := by
    rw [bindAll_append, hbefore, ok_bind, hpair]
  have hchanged :
      bindAll (before ++ [second, first]) (.ofParameter parameter) =
        .ok (scope.append
          [(second.name.text, fragment'), (first.name.text, fragment)]) := by
    rw [bindAll_append, hbefore, ok_bind, hswapped]
  have hlookup := scope.lookup?_append_swap hne fragment fragment'
  have hbody : (Body.block ((before ++ [first, second]) ++ later)
      result).outcome parameter = .ok stage := by
    simpa using h
  obtain ⟨more, hmore, hstage, houtcome⟩ :=
    outcome_of_extends hbody hscope hchanged
      (fun name binding => by rw [hlookup]; exact id)
      (fun name _ => by rw [hlookup]; exact id)
  refine ⟨values, fragment, fragment', more, hnames, hmore, ?_, ?_⟩
  · simpa [Scope.append, scope] using hstage
  · simpa [Scope.append, scope] using houtcome

end Bodies

/-- Only the bindings that something refers to matter to an accepted body.  With
one more binding at any place, or with two neighbours in the other order, it is
accepted again wherever it stands, with the same columns and with the same
fragments for its own bindings. -/
theorem only_referenced_bindings_matter
    {parameter : String} {assignments : List (Assignment Expression)}
    {result : Result Expression} {rest : List Word} {cursor after : Cursor}
    {stage : Stage}
    (hreads : cursor.Reads
      ((Body.block assignments result).words Expression.words ++ rest))
    (hrun : Parser.body parameter cursor = .ok stage after) :
    (∀ before later extra, assignments = before ++ later →
      extra.value.WellScoped parameter (boundNames before) →
      extra.name.text ≠ parameter →
      extra.name.text ∉ boundNames assignments →
      ∃ values fragment more,
        values.map Prod.fst = boundNames before ∧
        more.map Prod.fst = boundNames later ∧
        stage.scope = ⟨parameter, values ++ more⟩ ∧
        ∀ changed, SameBindings changed (before ++ extra :: later) →
          ∀ behind, Parser.Meets (Parser.body parameter)
            ((Body.block changed result).words Expression.words ++ behind)
            (.ok ⟨⟨parameter, values ++ (extra.name.text, fragment) :: more⟩,
              stage.columns⟩)
            behind) ∧
    ∀ before later first second,
      assignments = before ++ first :: second :: later →
      (∀ name : Name, Operand.bare name ∈ second.value.operands →
        name.text ≠ first.name.text) →
      ∃ values fragment fragment' more,
        values.map Prod.fst = boundNames before ∧
        more.map Prod.fst = boundNames later ∧
        stage.scope = ⟨parameter, values ++ (first.name.text, fragment) ::
          (second.name.text, fragment') :: more⟩ ∧
        ∀ changed, SameBindings changed (before ++ second :: first :: later) →
          ∀ behind, Parser.Meets (Parser.body parameter)
            ((Body.block changed result).words Expression.words ++ behind)
            (.ok ⟨⟨parameter, values ++ (second.name.text, fragment') ::
              (first.name.text, fragment) :: more⟩, stage.columns⟩)
            behind := by
  obtain ⟨houtcome, -⟩ :=
    (Parser.meets_body parameter (.block assignments result) trivial).of_ok
      hreads hrun
  have hmeets : ∀ {changed others : List (Assignment Expression)}
      {stage' : Stage}, SameBindings changed others →
      (Body.block others result).outcome parameter = .ok stage' →
      ∀ behind, Parser.Meets (Parser.body parameter)
        ((Body.block changed result).words Expression.words ++ behind)
        (.ok stage') behind := by
    intro changed others stage' hsame hothers behind
    rw [← hothers, ← hsame.outcome_eq]
    exact Parser.meets_body parameter _ trivial
  constructor
  · rintro before later extra rfl hvalue hparameter hnew
    obtain ⟨values, fragment, more, hvalues, hmore, hscope, hinserted⟩ :=
      Body.outcome_insert houtcome hvalue hparameter hnew
    exact ⟨values, fragment, more, hvalues, hmore, hscope,
      fun changed hsame => hmeets hsame hinserted⟩
  · rintro before later first second rfl hbare
    obtain ⟨values, fragment, fragment', more, hvalues, hmore, hscope,
      hswapped⟩ := Body.outcome_swap houtcome hbare
    exact ⟨values, fragment, fragment', more, hvalues, hmore, hscope,
      fun changed hsame => hmeets hsame hswapped⟩

/-- A copy that nothing refers to comes between two sums, of which one has a field
of its name; and the sums change places. -/
theorem unread_and_swapped_bindings :
    let x : Name := ⟨"x", by decide⟩
    let y : Name := ⟨"y", by decide⟩
    let z : Name := ⟨"z", by decide⟩
    let w : Name := ⟨"w", by decide⟩
    let successor : Assignment Expression :=
      ⟨y, .operandThen (.bare x) .add (.operand (.number ⟨"1", by decide⟩)),
        true⟩
    let field : Assignment Expression :=
      ⟨z, .operandThen (.access x w) .add (.operand (.bare x)), true⟩
    let copy : Assignment Expression := ⟨w, .operand (.bare y), false⟩
    let product : Result Expression :=
      .single (.operandThen (.bare y) .multiply (.operand (.bare z)))
    (∃ fragment, ∀ behind, Parser.Meets (Parser.body "x")
      ((Body.block [successor, copy, field] product).words
        Expression.words ++ behind)
      (.ok ⟨⟨"x", [("y", ⟨"_1 + 1", true⟩), ("w", fragment),
        ("z", ⟨"w + _1", true⟩)]⟩, ["(_1 + 1) * (w + _1)"]⟩)
      behind) ∧
    ∀ behind, Parser.Meets (Parser.body "x")
      ((Body.block [field, successor] product).words
        Expression.words ++ behind)
      (.ok ⟨⟨"x", [("z", ⟨"w + _1", true⟩), ("y", ⟨"_1 + 1", true⟩)]⟩,
        ["(_1 + 1) * (w + _1)"]⟩)
      behind := by
  intro x y z w successor field copy product
  let body : Body Expression := .block [successor, field] product
  let tokens : List Token := (body.words Expression.words).map fun word =>
    ⟨word.text, word.kind, 1⟩
  obtain ⟨cursor, -, hreads⟩ := (Cursor.ofItems []).pull_reads tokens
  have hwords : grammarWords tokens =
      (Body.block [successor, field] product).words Expression.words ++ [] := by
    decide
  rw [hwords] at hreads
  obtain ⟨after, hrun, -⟩ :
      ∃ after, Parser.body "x" cursor =
        .ok ⟨⟨"x", [("y", ⟨"_1 + 1", true⟩), ("z", ⟨"w + _1", true⟩)]⟩,
          ["(_1 + 1) * (w + _1)"]⟩ after ∧ after.Reads [] :=
    Parser.meets_body "x" body trivial cursor hreads
  obtain ⟨hinsert, hswap⟩ := only_referenced_bindings_matter hreads hrun
  constructor
  · have hvalue : copy.value.WellScoped "x" (boundNames [successor]) := by
      intro operand hmem
      obtain rfl := List.mem_singleton.mp hmem
      exact Or.inr (List.mem_singleton.mpr rfl)
    obtain ⟨values, fragment, more, hvalues, -, hscope, hmeets⟩ :=
      hinsert [successor] [field] copy rfl hvalue (by decide) (by decide)
    have hlength : values.length = 1 := by
      simpa [boundNames] using congrArg List.length hvalues
    obtain ⟨value, rfl⟩ := List.length_eq_one_iff.mp hlength
    cases hscope
    exact ⟨fragment, hmeets _
      (.cons ⟨rfl, rfl⟩ (.cons ⟨rfl, rfl⟩ (.cons ⟨rfl, rfl⟩ .nil)))⟩
  · have hbare : ∀ name : Name, Operand.bare name ∈ field.value.operands →
        name.text ≠ successor.name.text := by
      intro name hmem
      have hname : name = x := by
        simpa [field, Expression.operands] using hmem
      rw [hname]
      decide
    obtain ⟨values, fragment, fragment', more, hvalues, -, hscope, hmeets⟩ :=
      hswap [] [] successor field rfl hbare
    obtain rfl := List.map_eq_nil_iff.mp hvalues
    cases hscope
    exact hmeets _ (.cons ⟨rfl, rfl⟩ (.cons ⟨rfl, rfl⟩ .nil))

end Grammar

end SelectChain

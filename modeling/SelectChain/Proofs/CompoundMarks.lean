import SelectChain.Proofs.Acceptance
import SelectChain.Proofs.LoweredTrees
import Mathlib.Tactic

/-!
# The mark of a compound value

A bound value is marked compound if its text has an arithmetic operator outside
all parentheses.  The mark is set from the pieces of the right-hand side, while
the operator is a matter of the text, and the two part where a name is bound to
another bound name alone: the text is taken over and the mark is not.
`compound_exact` says that this is the only way to go wrong, and
`alias_loses_mark` that it happens.
-/

namespace SelectChain

def isOperatorChar (c : Char) : Bool :=
  c == '+' || c == '-' || c == '*' || c == '%'

/-- Whether an arithmetic operator stands outside all parentheses, when `depth`
of them are open already. -/
def outerOperator (depth : Nat) : List Char → Bool
  | [] => false
  | c :: rest =>
      if c = '(' then outerOperator (depth + 1) rest
      else if c = ')' then outerOperator (depth - 1) rest
      else (depth == 0 && isOperatorChar c) || outerOperator depth rest

def Fragment.hasOuterOperator (fragment : Fragment) : Bool :=
  outerOperator 0 fragment.text.toList

/-- The scope in front of the value at this position. -/
def Scope.before (scope : Scope) (index : Nat) : Scope :=
  ⟨scope.parameter, scope.values.take index⟩

def isPlain (c : Char) : Bool :=
  c != '(' && c != ')' && !isOperatorChar c

theorem outerOperator_plain
    (depth : Nat) {chars : List Char} (rest : List Char)
    (h : chars.all isPlain = true) :
    outerOperator depth (chars ++ rest) = outerOperator depth rest := by
  induction chars with
  | nil => rfl
  | cons c chars ih =>
      simp only [List.all_cons, isPlain, Bool.and_eq_true, bne_iff_ne,
        Bool.not_eq_true'] at h
      obtain ⟨⟨⟨hopen, hclose⟩, hoperator⟩, hrest⟩ := h
      rw [List.cons_append, outerOperator, if_neg hopen, if_neg hclose,
        hoperator, Bool.and_false, Bool.false_or]
      exact ih hrest

theorem isPlain_of_isNamePart {c : Char} (h : Lexeme.isNamePart c = true) :
    isPlain c = true := by
  have hne : ∀ d : Char, Lexeme.isNamePart d = false → c ≠ d := fun d hd =>
    Lexeme.ne_of_isNamePart h hd
  simp [isPlain, isOperatorChar, hne '(' (by decide), hne ')' (by decide),
    hne '+' (by decide), hne '-' (by decide), hne '*' (by decide),
    hne '%' (by decide)]

namespace Grammar

theorem Column.all_isPlain (column : Column) :
    column.text.toList.all isPlain = true := by
  rw [List.all_eq_true]
  intro c hc
  exact isPlain_of_isNamePart (column.isNamePart_of_mem hc)

theorem outerOperator_operator (op : Arithmetic) (depth : Nat)
    (rest : List Char) :
    outerOperator depth ((" " ++ op.symbol ++ " ").toList ++ rest) =
      (depth == 0 || outerOperator depth rest) := by
  cases op <;>
    simp [Arithmetic.symbol, outerOperator, isOperatorChar]

theorem outerOperator_comparison (cmp : Comparison) (depth : Nat)
    (rest : List Char) :
    outerOperator depth ((" " ++ cmp.symbol ++ " ").toList ++ rest) =
      outerOperator depth rest := by
  apply outerOperator_plain
  cases cmp <;> decide

theorem outerOperator_closing (depth : Nat) (rest : List Char) :
    outerOperator (depth + 1) (')' :: rest) = outerOperator depth rest := by
  simp [outerOperator]

/-- Of the text of a tree, only the operator at its root is outside. -/
theorem Tree.outerOperator_text
    (tree : Tree Column) (depth : Nat) (rest : List Char) :
    outerOperator depth (tree.text.toList ++ rest) =
      ((depth == 0 && tree.isBinary) || outerOperator depth rest) := by
  induction tree generalizing depth rest with
  | leaf atom =>
      have hplain := outerOperator_plain depth rest atom.all_isPlain
      simpa [text, isBinary] using hplain
  | group inner ih =>
      have htext : (Tree.group inner).text.toList ++ rest =
          '(' :: (inner.text.toList ++ ')' :: rest) := by
        simp [text]
      rw [htext, outerOperator, if_pos rfl, ih, outerOperator_closing]
      simp [isBinary]
  | binary op left right ihLeft ihRight =>
      have htext : (Tree.binary op left right).text.toList ++ rest =
          left.text.toList ++ ((" " ++ op.symbol ++ " ").toList ++
            (right.text.toList ++ rest)) := by
        simp [text]
      rw [htext, ihLeft, outerOperator_operator, ihRight, isBinary]
      cases depth == 0 <;> simp
  | conditional cmp left right yes no ihLeft ihRight ihYes ihNo =>
      have htext :
          (Tree.conditional cmp left right yes no).text.toList ++ rest =
            "if".toList ++ '(' :: (left.text.toList ++
              ((" " ++ cmp.symbol ++ " ").toList ++ (right.text.toList ++
                (", ".toList ++ (yes.text.toList ++ (", ".toList ++
                  (no.text.toList ++ ')' :: rest))))))) := by
        simp [text]
      have hcomma : ∀ rest : List Char,
          outerOperator (depth + 1) (", ".toList ++ rest) =
            outerOperator (depth + 1) rest := fun rest =>
        outerOperator_plain (depth + 1) rest (by decide)
      rw [htext, outerOperator_plain depth _ (by decide), outerOperator,
        if_pos rfl, ihLeft, outerOperator_comparison, ihRight, hcomma, ihYes,
        hcomma, ihNo, outerOperator_closing]
      simp [isBinary]

theorem Lowered.hasOuterOperator_fragment (value : Lowered) :
    value.fragment.hasOuterOperator = value.tree.isBinary := by
  have htext := value.tree.outerOperator_text 0 []
  rw [List.append_nil] at htext
  rw [Fragment.hasOuterOperator, Lowered.fragment, htext]
  simp [outerOperator]

/-! ## Values in order -/

section BindEach

variable {ε β : Type} (meaning : List (String × β) → ε → β)

theorem bindEach_eq_append
    (assignments : List (Assignment ε)) (values : List (String × β)) :
    ∃ more, bindEach meaning assignments values = values ++ more ∧
      more.length = assignments.length := by
  induction assignments generalizing values with
  | nil => exact ⟨[], by simp [bindEach], rfl⟩
  | cons assignment rest ih =>
      obtain ⟨more, hmore, hlength⟩ := ih
        (values ++ [(assignment.name.text, meaning values assignment.value)])
      refine ⟨(assignment.name.text, meaning values assignment.value) :: more,
        ?_, ?_⟩
      · rw [bindEach, hmore, List.append_assoc, List.singleton_append]
      · rw [List.length_cons, List.length_cons, hlength]

/-- What a name means follows from what was bound before it. -/
theorem bindEach_getElem?
    (assignments : List (Assignment ε)) (values : List (String × β))
    {index : Nat} {assignment : Assignment ε}
    (h : assignments[index]? = some assignment) :
    (bindEach meaning assignments values)[values.length + index]? =
      some (assignment.name.text,
        meaning ((bindEach meaning assignments values).take
          (values.length + index)) assignment.value) := by
  induction assignments generalizing values index with
  | nil => cases h
  | cons first rest ih =>
      rw [bindEach]
      cases index with
      | zero =>
          cases h
          obtain ⟨more, hmore, -⟩ := bindEach_eq_append meaning rest
            (values ++
              [(assignment.name.text, meaning values assignment.value)])
          rw [hmore]
          simp
      | succ index =>
          have hrest := ih
            (values ++ [(first.name.text, meaning values first.value)])
            (by simpa using h)
          rw [List.length_append, List.length_singleton, Nat.add_assoc,
            Nat.add_comm 1 index] at hrest
          exact hrest

end BindEach

theorem Expression.tree_eq_bare
    {expression : Expression} {name : Name}
    (h : expression.tree = .leaf (.bare name)) :
    expression = .operand (.bare name) := by
  cases expression with
  | operand atom =>
      cases h
      rfl
  | operandThen atom op rest =>
      have hbinary := Expression.isBinary_tree (.operandThen atom op rest)
      rw [h] at hbinary
      cases hbinary
  | groupThen inner op rest =>
      have hbinary := Expression.isBinary_tree (.groupThen inner op rest)
      rw [h] at hbinary
      cases hbinary
  | group inner => cases h
  | conditional cmp left right yes no => cases h

/-- A name that stands for a bound value takes over its tree; else there is an
operator exactly in a chain. -/
theorem isBinary_lowered_cases
    (parameter : String) (values : List (String × Lowered))
    (expression : Expression) :
    (∃ (name : Name) (value : Lowered),
        expression = .operand (.bare name) ∧
        (scopeOf parameter values).lookup? name.text =
          some (.value value.fragment) ∧
        expression.tree.lowered parameter values false = value.tree) ∨
      (∀ (name : Name) (fragment : Fragment),
        expression = .operand (.bare name) →
          (scopeOf parameter values).lookup? name.text ≠
            some (.value fragment)) ∧
        (expression.tree.lowered parameter values false).isBinary =
          expression.isChain := by
  by_cases hbare : ∃ name : Name, expression = .operand (.bare name)
  · obtain ⟨name, rfl⟩ := hbare
    rw [← Expression.isBinary_tree]
    by_cases hname : name.text = parameter
    · right
      constructor
      · intro other fragment heq
        cases heq
        simp [Scope.lookup?, scopeOf, hname]
      · simp [Expression.tree, Tree.lowered, Operand.lowered, hname,
          Tree.isBinary]
    · have hlookup : (scopeOf parameter values).lookup? name.text =
          ((values.lookup name.text).map Lowered.fragment).map .value := by
        rw [← lookup_scopeOf parameter]
        exact if_neg hname
      cases hvalue : values.lookup name.text with
      | some value =>
          left
          refine ⟨name, value, rfl, by rw [hlookup, hvalue]; rfl, ?_⟩
          simp [Expression.tree, Tree.lowered, Operand.lowered, hname, hvalue,
            Lowered.spliced]
      | none =>
          right
          rw [hvalue] at hlookup
          constructor
          · intro other fragment heq
            cases heq
            rw [hlookup]
            simp
          · simp [Expression.tree, Tree.lowered, Operand.lowered, hname,
              hvalue, Tree.isBinary]
  · right
    constructor
    · intro name fragment heq
      exact absurd ⟨name, heq⟩ hbare
    · rw [← Expression.isBinary_tree]
      apply Tree.isBinary_lowered parameter
      intro name hname
      exact absurd ⟨name, Expression.tree_eq_bare hname⟩ hbare

/-- For one value: the mark tells the truth unless the value is a name whose own
text has an operator outside. -/
theorem bound_compound_iff
    (parameter : String) (values : List (String × Lowered))
    (expression : Expression) {fragment : Fragment}
    (hfragment :
      fragment = (expression.tree.bound parameter values).fragment) :
    (fragment.compound = true → fragment.hasOuterOperator = true) ∧
      ((fragment.compound = true ↔ fragment.hasOuterOperator = true) ↔
        ¬ ∃ (name : Name) (earlier : Fragment),
          expression = .operand (.bare name) ∧
            (scopeOf parameter values).lookup? name.text =
              some (.value earlier) ∧
            earlier.hasOuterOperator = true) := by
  have hcompound : fragment.compound = expression.isChain := by
    rw [hfragment, ← Expression.isBinary_tree]
    rfl
  have houter : fragment.hasOuterOperator =
      (expression.tree.lowered parameter values false).isBinary := by
    rw [hfragment, Lowered.hasOuterOperator_fragment]
    rfl
  rw [hcompound, houter]
  rcases isBinary_lowered_cases parameter values expression with
    ⟨name, value, rfl, hlookup, htree⟩ | ⟨hbare, hsame⟩
  · rw [htree, ← Lowered.hasOuterOperator_fragment]
    refine ⟨fun hchain => absurd hchain Bool.false_ne_true, ?_, ?_⟩
    · rintro hiff ⟨other, earlier, heq, hother, houterOther⟩
      cases heq
      rw [hlookup] at hother
      cases hother
      cases hiff.mpr houterOther
    · intro hnot
      constructor
      · intro hchain
        cases hchain
      · intro hvalue
        exact absurd ⟨name, value.fragment, rfl, hlookup, hvalue⟩ hnot
  · rw [hsame]
    refine ⟨fun hchain => hchain, ?_, fun _ => Iff.rfl⟩
    rintro - ⟨name, earlier, heq, hlookup, -⟩
    exact hbare name earlier heq hlookup

/-- The values of a stage are those of its assignments, one by one. -/
theorem Body.values_getElem?
    {parameter : String} {body : Body Expression} {stage : Stage}
    (h : body.outcome parameter = .ok stage) :
    stage.scope.values.length = body.assignments.length ∧
      ∀ (index : Nat) (assignment : Assignment Expression),
        body.assignments[index]? = some assignment →
        ∃ values : List (String × Lowered),
          scopeOf parameter values = stage.scope.before index ∧
          stage.scope.values[index]? =
            some (assignment.name.text,
              (assignment.value.tree.bound parameter values).fragment) := by
  obtain ⟨hscope, -⟩ := Body.outcome_eq_ok h
  have hvalues : (body.map Expression.tree).values parameter =
      bindEach (Tree.bound parameter)
        (body.assignments.map (Assignment.map Expression.tree)) [] := by
    rw [Body.values, Body.assignments_map]
  constructor
  · obtain ⟨more, hmore, hlength⟩ := bindEach_eq_append
      (Tree.bound parameter)
      (body.assignments.map (Assignment.map Expression.tree)) []
    rw [hscope, hvalues, hmore]
    simpa [scopeOf] using hlength
  · intro index assignment hassignment
    have hmapped :
        (body.assignments.map (Assignment.map Expression.tree))[index]? =
          some (assignment.map Expression.tree) := by
      rw [List.getElem?_map, hassignment]
      rfl
    have hentry := bindEach_getElem? (Tree.bound parameter)
      (body.assignments.map (Assignment.map Expression.tree)) [] hmapped
    rw [← hvalues, List.length_nil, Nat.zero_add] at hentry
    refine ⟨((body.map Expression.tree).values parameter).take index, ?_, ?_⟩
    · rw [hscope]
      simp [scopeOf, Scope.before, List.map_take]
    · rw [hscope]
      simp only [scopeOf, List.getElem?_map, hentry]
      rfl

theorem forall₂_of_mapM
    {transformations : List Transformation} {stages : List Stage}
    (h : transformations.mapM Transformation.outcome = .ok stages) :
    List.Forall₂
      (fun stage transformation => transformation.outcome = .ok stage)
      stages transformations := by
  induction transformations generalizing stages with
  | nil =>
      cases h
      exact .nil
  | cons first rest ih =>
      rw [List.mapM_cons] at h
      cases hfirst : first.outcome with
      | error error =>
          rw [hfirst] at h
          cases h
      | ok stage =>
          rw [hfirst, ok_bind] at h
          cases hrest : rest.mapM Transformation.outcome with
          | error error =>
              rw [hrest] at h
              cases h
          | ok others =>
              rw [hrest] at h
              cases h
              exact .cons hfirst (ih hrest)

end Grammar

open Grammar

/-- The mark of a bound value says whether its text has an arithmetic operator
outside all parentheses, except where the value is a name that is bound to such
a text before.  A mark is never there without the operator. -/
theorem compound_exact
    {source : String} {chain : Chain} (h : lower source = .ok chain) :
    ∃ tokens, tokenize source = .ok tokens ∧
      (∃ program : Program, program.words = grammarWords tokens) ∧
      ∀ program : Program, program.words = grammarWords tokens →
        chain.stages.length = program.transformations.length ∧
        ∀ stage transformation,
          (stage, transformation) ∈
            chain.stages.zip program.transformations →
          stage.scope.values.length = transformation.body.assignments.length ∧
          ∀ (index : Nat) (name : String) (fragment : Fragment)
            (assignment : Assignment Expression),
            stage.scope.values[index]? = some (name, fragment) →
            transformation.body.assignments[index]? = some assignment →
            name = assignment.name.text ∧
            (fragment.compound = true → fragment.hasOuterOperator = true) ∧
            ((fragment.compound = true ↔ fragment.hasOuterOperator = true) ↔
              ¬ ∃ (other : Name) (earlier : Fragment),
                assignment.value = .operand (.bare other) ∧
                (stage.scope.before index).lookup? other.text =
                  some (.value earlier) ∧
                earlier.hasOuterOperator = true) := by
  obtain ⟨tokens, htokens⟩ := exists_tokens_of_lower h
  refine ⟨tokens, htokens, exists_program_of_lower htokens h, ?_⟩
  intro program hwords
  have houtcome := lower_of_program htokens hwords
  rw [h, Program.outcome] at houtcome
  cases hstages : program.transformations.mapM Transformation.outcome with
  | error error =>
      rw [hstages] at houtcome
      cases houtcome
  | ok stages =>
      rw [hstages] at houtcome
      cases houtcome
      have hall := List.forall₂_iff_zip.mp (forall₂_of_mapM hstages)
      refine ⟨hall.1, ?_⟩
      intro stage transformation hmem
      obtain ⟨hlength, hvalues⟩ := Body.values_getElem? (hall.2 hmem)
      refine ⟨hlength, ?_⟩
      intro index name fragment assignment hvalue hassignment
      obtain ⟨values, hscope, hentry⟩ := hvalues index assignment hassignment
      rw [hvalue] at hentry
      cases hentry
      rw [← hscope]
      exact ⟨rfl, bound_compound_iff _ values assignment.value rfl⟩

/-- A sum is bound with its mark. -/
theorem sum_keeps_mark :
    ∃ chain stage fragment,
      lower "sc.range(1,10).map(x => \x7b val y = x + 1; y \x7d).collect()" =
          .ok chain ∧
        stage ∈ chain.stages ∧ ("y", fragment) ∈ stage.scope.values ∧
        fragment.compound = true ∧
        (fragment.compound = true ↔ fragment.hasOuterOperator = true) := by
  let x : Name := ⟨"x", by decide⟩
  let y : Name := ⟨"y", by decide⟩
  let sum : Expression :=
    .operandThen (.bare x) .add (.operand (.number ⟨"1", by decide⟩))
  let program : Program :=
    ⟨⟨"1", by decide⟩, ⟨"10", by decide⟩,
      [⟨x, .block [⟨y, sum, true⟩] (.single (.operand (.bare y)))⟩]⟩
  have hlower :
      lower "sc.range(1,10).map(x => \x7b val y = x + 1; y \x7d).collect()" =
        .ok ⟨"1", "10",
          [⟨⟨"x", [("y", ⟨"_1 + 1", true⟩)]⟩, ["_1 + 1"]⟩]⟩ := by
    decide +kernel
  have hscanned :
      (tokenize "sc.range(1,10).map(x => \x7b val y = x + 1; y \x7d).collect()").map
        grammarWords = .ok program.words := by
    decide +kernel
  obtain ⟨tokens, htokens, -, hall⟩ := compound_exact hlower
  rw [htokens] at hscanned
  obtain ⟨-, hstages⟩ := hall program (Except.ok.inj hscanned).symm
  obtain ⟨-, hvalues⟩ := hstages _ _ (List.mem_singleton.mpr rfl)
  obtain ⟨-, -, hexact⟩ := hvalues 0 "y" _ _ rfl rfl
  refine ⟨_, _, ⟨"_1 + 1", true⟩, hlower, List.mem_singleton.mpr rfl,
    List.mem_singleton.mpr rfl, rfl, hexact.mpr ?_⟩
  rintro ⟨other, earlier, hbare, -⟩
  cases hbare

/-- The text of `y` is taken over by `z`, its mark is not, and the product that
uses `z` lacks the parentheses. -/
theorem alias_loses_mark :
    ∃ chain stage fragment,
      lower "sc.range(1,10).map(x => \x7b val y = x + 1; val z = y; z * 2 \x7d).collect()" =
          .ok chain ∧
        stage ∈ chain.stages ∧ ("z", fragment) ∈ stage.scope.values ∧
        ¬ (fragment.compound = true ↔ fragment.hasOuterOperator = true) ∧
        stage.columns = ["_1 + 1 * 2"] := by
  refine ⟨⟨"1", "10",
      [⟨⟨"x", [("y", ⟨"_1 + 1", true⟩), ("z", ⟨"_1 + 1", false⟩)]⟩,
        ["_1 + 1 * 2"]⟩]⟩, _, ⟨"_1 + 1", false⟩, ?_,
    List.mem_singleton.mpr rfl, by simp, by decide, rfl⟩
  decide +kernel

end SelectChain

import SelectChain.Proofs.ColumnText
import SelectChain.Proofs.ScopeRules
import Mathlib.Tactic

/-!
# Lowered trees

What a body writes is the text of trees.  `Tree.lowered` is the target tree of a
source tree: bare names are replaced by the trees that they are bound to, in
parentheses where the scope asks for them.  `Body.outcome_eq_ok` says that the
scope and the columns of a stage are the texts of such trees.  So whatever is to
be shown about these texts can be shown about trees.
-/

namespace SelectChain

namespace Grammar

variable {ε δ β γ : Type}

/-! ## Bodies over other expressions -/

def Assignment.map (f : ε → δ) (assignment : Assignment ε) : Assignment δ :=
  ⟨assignment.name, f assignment.value, assignment.semicolon⟩

def Result.map (f : ε → δ) : Result ε → Result δ
  | .tuple first more => .tuple (f first) (more.map f)
  | .single only => .single (f only)

def Body.map (f : ε → δ) : Body ε → Body δ
  | .block assignments result =>
      .block (assignments.map (Assignment.map f)) (result.map f)
  | .plain result => .plain (result.map f)

theorem Body.assignments_map (f : ε → δ) (body : Body ε) :
    (body.map f).assignments = body.assignments.map (Assignment.map f) := by
  cases body <;> rfl

theorem Body.result_map (f : ε → δ) (body : Body ε) :
    (body.map f).result = body.result.map f := by
  cases body <;> rfl

theorem Body.elements_map (f : ε → δ) (body : Body ε) :
    (body.map f).elements = body.elements.map f := by
  rw [elements, result_map, elements]
  cases body.result <;> rfl

/-- The meanings of the assigned names, in order; that of a value may depend on
those before it. -/
def bindEach (meaning : List (String × β) → ε → β) :
    List (Assignment ε) → List (String × β) → List (String × β)
  | [], values => values
  | assignment :: rest, values =>
      bindEach meaning rest
        (values ++ [(assignment.name.text, meaning values assignment.value)])

/-- Two lists of meanings agree name by name. -/
def Related (R : β → γ → Prop) (values : List (String × β))
    (others : List (String × γ)) : Prop :=
  List.Forall₂ (fun value other => value.1 = other.1 ∧ R value.2 other.2)
    values others

theorem Related.bindEach
    {R : β → γ → Prop} {meaning : List (String × β) → ε → β}
    {meaning' : List (String × γ) → ε → γ}
    (hstep : ∀ values others, Related R values others →
      ∀ expression, R (meaning values expression) (meaning' others expression))
    (assignments : List (Assignment ε)) {values : List (String × β)}
    {others : List (String × γ)} (h : Related R values others) :
    Related R (Grammar.bindEach meaning assignments values)
      (Grammar.bindEach meaning' assignments others) := by
  induction assignments generalizing values others with
  | nil => exact h
  | cons assignment rest ih =>
      apply ih
      apply List.rel_append h
      exact .cons ⟨rfl, hstep values others h assignment.value⟩ .nil

theorem Related.lookup
    {R : β → γ → Prop} {values : List (String × β)}
    {others : List (String × γ)} (h : Related R values others)
    (name : String) :
    (values.lookup name = none ∧ others.lookup name = none) ∨
      ∃ value other, values.lookup name = some value ∧
        others.lookup name = some other ∧ R value other := by
  induction h with
  | nil => exact Or.inl ⟨rfl, rfl⟩
  | @cons value other values others hhead _ ih =>
      obtain ⟨key, value⟩ := value
      obtain ⟨otherKey, other⟩ := other
      obtain ⟨hkey, hrelated⟩ := hhead
      dsimp only at hkey hrelated
      subst hkey
      by_cases hsame : name = key
      · right
        refine ⟨value, other, ?_, ?_, hrelated⟩
        · simp [hsame]
        · simp [hsame]
      · simpa [List.lookup_cons, beq_false_of_ne hsame] using ih

/-! ## Lowering -/

/-- The tree that a name is bound to, and the mark that the scope keeps with
it. -/
structure Lowered where
  tree : Tree Column
  compound : Bool

def Lowered.fragment (value : Lowered) : Fragment :=
  ⟨value.tree.text, value.compound⟩

def Lowered.spliced (value : Lowered) (joined : Bool) : Tree Column :=
  if value.compound && joined then .group value.tree else value.tree

theorem Lowered.text_spliced (value : Lowered) (joined : Bool) :
    (value.spliced joined).text = value.fragment.spliced joined := by
  unfold spliced Fragment.spliced fragment
  cases value.compound && joined with
  | true => rfl
  | false => rfl

/-- The column that the parameter stands for. -/
def parameterName : Name :=
  ⟨"_1", by decide⟩

def scopeOf (parameter : String) (values : List (String × Lowered)) : Scope :=
  ⟨parameter, values.map fun value => (value.1, value.2.fragment)⟩

def Operand.lowered (parameter : String) (values : List (String × Lowered))
    (joined : Bool) : Operand → Tree Column
  | .number digits => .leaf (.number digits)
  | .bare name =>
      if name.text = parameter then .leaf (.column parameterName)
      else
        match values.lookup name.text with
        | some value => value.spliced joined
        | none => .leaf (.column name)
  | .access _ field => .leaf (.column field)
  | .numberAccess digits _ => .leaf (.number digits)

def Tree.lowered (parameter : String) (values : List (String × Lowered)) :
    Bool → Tree Operand → Tree Column
  | joined, .leaf atom => atom.lowered parameter values joined
  | _, .group inner => .group (inner.lowered parameter values false)
  | _, .binary op left right =>
      .binary op (left.lowered parameter values true)
        (right.lowered parameter values true)
  | _, .conditional cmp left right yes no =>
      .conditional cmp (left.lowered parameter values false)
        (right.lowered parameter values false)
        (yes.lowered parameter values false)
        (no.lowered parameter values false)

/-- What a name is bound to by an assignment of this tree. -/
def Tree.bound (parameter : String) (values : List (String × Lowered))
    (tree : Tree Operand) : Lowered :=
  ⟨tree.lowered parameter values false, tree.isBinary⟩

/-- Only a bare name takes over the operator of what it stands for. -/
theorem Tree.isBinary_lowered
    (parameter : String) {values : List (String × Lowered)}
    {tree : Tree Operand}
    (h : ∀ name : Name, tree = .leaf (.bare name) →
      name.text ∉ values.map Prod.fst) :
    (tree.lowered parameter values false).isBinary = tree.isBinary := by
  cases tree with
  | leaf atom =>
      cases atom with
      | number digits => rfl
      | access qualifier field => rfl
      | numberAccess digits field => rfl
      | bare name =>
          have hunbound : values.lookup name.text = none := by
            rw [List.lookup_eq_none_iff]
            intro value hmem
            rw [bne_iff_ne]
            intro hname
            exact h name rfl (List.mem_map.mpr ⟨value, hmem, hname.symm⟩)
          simp only [lowered, Operand.lowered, hunbound]
          split <;> rfl
  | group inner => rfl
  | binary op left right => rfl
  | conditional cmp left right yes no => rfl

section Text

variable (parameter : String) (values : List (String × Lowered))

theorem names_scopeOf :
    (scopeOf parameter values).names = values.map Prod.fst := by
  simp [scopeOf, Scope.names]

theorem lookup_scopeOf (name : String) :
    (scopeOf parameter values).values.lookup name =
      (values.lookup name).map Lowered.fragment := by
  unfold scopeOf
  induction values with
  | nil => rfl
  | cons value rest ih =>
      obtain ⟨key, value⟩ := value
      by_cases hname : name = key
      · simp [hname]
      · simpa [List.lookup_cons, beq_false_of_ne hname] using ih

theorem Operand.text_lowered
    {operand : Operand} (joined : Bool)
    (h : operand.WellScoped parameter (values.map Prod.fst)) :
    (operand.lowered parameter values joined).text =
      operand.text (scopeOf parameter values) joined := by
  cases operand with
  | number digits => rfl
  | access qualifier field => rfl
  | numberAccess digits field => exact h.elim
  | bare name =>
      simp only [lowered, text, Scope.lookup?, lookup_scopeOf]
      by_cases hname : name.text = parameter
      · simp [hname, scopeOf, Tree.text, Column.text, parameterName,
          Scope.parameterColumn]
      · have hmem : name.text ∈ values.map Prod.fst := h.resolve_left hname
        rw [← names_scopeOf parameter] at hmem
        have hbound := mt ((scopeOf parameter values).lookup_eq_none_iff
          name.text).mp (not_not_intro hmem)
        rw [lookup_scopeOf] at hbound
        cases hlookup : values.lookup name.text with
        | none =>
            rw [hlookup] at hbound
            exact absurd rfl hbound
        | some value =>
            simp [hname, scopeOf, Lowered.text_spliced]

theorem Tree.text_lowered_graft
    (head : Tree Operand) (op : Arithmetic) (tree : Tree Operand)
    (joined : Bool) :
    ((graft head op tree).lowered parameter values joined).text =
      (head.lowered parameter values true).text ++
        (" " ++ op.symbol ++ " ") ++
          (tree.lowered parameter values true).text := by
  induction tree using graft_induction op generalizing joined with
  | below next left right hlevel ih =>
      rw [graft_binary_of_le head left right hlevel]
      simp only [lowered, text, ih, String.append_assoc]
  | here tree hlevel =>
      rw [graft_of_lt head hlevel]
      simp only [lowered, text]

theorem Expression.text_lowered
    {expression : Expression} (joined : Bool)
    (h : expression.WellScoped parameter (values.map Prod.fst)) :
    (expression.tree.lowered parameter values joined).text =
      expression.text (scopeOf parameter values) joined := by
  induction expression generalizing joined with
  | operand atom =>
      exact Operand.text_lowered parameter values joined
        (h atom (by simp [operands]))
  | operandThen atom op rest ih =>
      have hatom := h atom (by simp [operands])
      have hrest : rest.WellScoped parameter (values.map Prod.fst) :=
        fun operand hmem => h operand (by simp [operands, hmem])
      rw [tree, Tree.text_lowered_graft, ih true hrest, Tree.lowered,
        Operand.text_lowered parameter values true hatom, text]
  | group inner ih =>
      rw [tree, Tree.lowered, Tree.text, ih false h, text]
  | groupThen inner op rest ihInner ihRest =>
      have hinner : inner.WellScoped parameter (values.map Prod.fst) :=
        fun operand hmem => h operand (by simp [operands, hmem])
      have hrest : rest.WellScoped parameter (values.map Prod.fst) :=
        fun operand hmem => h operand (by simp [operands, hmem])
      rw [tree, Tree.text_lowered_graft, ihRest true hrest, Tree.lowered,
        Tree.text, ihInner false hinner, text]
  | conditional cmp left right yes no ihLeft ihRight ihYes ihNo =>
      have hleft : left.WellScoped parameter (values.map Prod.fst) :=
        fun operand hmem => h operand (by simp [operands, hmem])
      have hright : right.WellScoped parameter (values.map Prod.fst) :=
        fun operand hmem => h operand (by simp [operands, hmem])
      have hyes : yes.WellScoped parameter (values.map Prod.fst) :=
        fun operand hmem => h operand (by simp [operands, hmem])
      have hno : no.WellScoped parameter (values.map Prod.fst) :=
        fun operand hmem => h operand (by simp [operands, hmem])
      rw [tree, Tree.lowered, Tree.text, ihLeft false hleft,
        ihRight false hright, ihYes false hyes, ihNo false hno, text]

end Text

/-! ## Stages -/

/-- The tree without the parentheses around all of it. -/
def Tree.stripped {α : Type} : Tree α → Tree α
  | .group inner => inner
  | tree => tree

theorem Tree.stripped_of_isBinary {α : Type} {tree : Tree α}
    (h : tree.isBinary = true) : tree.stripped = tree := by
  cases tree with
  | binary op left right => rfl
  | leaf atom => cases h
  | group inner => cases h
  | conditional cmp left right yes no => cases h

/-- The trees that become columns: parentheses around a single expression are
those of a tuple. -/
def Result.columnTrees : Result (Tree Operand) → List (Tree Operand)
  | .tuple first more => first :: more
  | .single only => [only.stripped]

/-- The bound values at the end of a body. -/
def Body.values (parameter : String) (body : Body (Tree Operand)) :
    List (String × Lowered) :=
  bindEach (Tree.bound parameter) body.assignments []

theorem bindAll_scopeOf
    (parameter : String) (assignments : List (Assignment Expression))
    {values : List (String × Lowered)} {scope : Scope}
    (h : bindAll assignments (scopeOf parameter values) = .ok scope) :
    scope = scopeOf parameter
      (bindEach (Tree.bound parameter)
        (assignments.map (Assignment.map Expression.tree)) values) := by
  induction assignments generalizing values with
  | nil =>
      cases h
      rfl
  | cons assignment rest ih =>
      rw [bindAll] at h
      rcases assignment.outcome_cases (scopeOf parameter values) with
        ⟨houtcome, hscoped⟩ | ⟨error, houtcome, -⟩
      · have hvalue := hscoped.value
        rw [names_scopeOf] at hvalue
        have hfragment :
            assignment.value.fragment (scopeOf parameter values) =
              (assignment.value.tree.bound parameter values).fragment := by
          rw [Expression.fragment, ← Expression.isBinary_tree,
            ← Expression.text_lowered parameter values false hvalue]
          rfl
        have hscope : { scopeOf parameter values with
              values := (scopeOf parameter values).values ++
                [(assignment.name.text,
                  assignment.value.fragment (scopeOf parameter values))] } =
            scopeOf parameter (values ++ [(assignment.name.text,
              assignment.value.tree.bound parameter values)]) := by
          rw [hfragment]
          simp [scopeOf]
        rw [houtcome, ok_bind, hscope] at h
        exact ih h
      · rw [houtcome] at h
        cases h

theorem Result.columns_scopeOf
    (parameter : String) (values : List (String × Lowered))
    (result : Result Expression)
    (h : ∀ element ∈ result.elements,
      element.WellScoped parameter (values.map Prod.fst)) :
    result.columns (scopeOf parameter values) =
      (result.map Expression.tree).columnTrees.map fun tree =>
        (tree.lowered parameter values false).text := by
  have htext : ∀ element ∈ result.elements,
      element.text (scopeOf parameter values) false =
        (element.tree.lowered parameter values false).text := fun element hmem =>
    (Expression.text_lowered parameter values false (h element hmem)).symm
  cases result with
  | tuple first more =>
      simp only [columns, Result.map, columnTrees, List.map_cons, List.map_map]
      rw [htext first (by simp [elements])]
      congr 1
      apply List.map_congr_left
      intro element hmem
      exact htext element (by simp [elements, hmem])
  | single only =>
      have honly := htext only (by simp [elements])
      cases only with
      | group inner =>
          have hscoped : inner.WellScoped parameter (values.map Prod.fst) :=
            h (.group inner) (by simp [elements])
          have hinner := Expression.text_lowered parameter values false hscoped
          simp [columns, Result.map, columnTrees, Expression.tree,
            Tree.stripped, hinner]
      | operand atom =>
          simp only [columns, Result.map, columnTrees, honly]
          rfl
      | conditional cmp left right yes no =>
          simp only [columns, Result.map, columnTrees, honly]
          rfl
      | operandThen atom op rest =>
          have hbinary := Expression.isBinary_tree (.operandThen atom op rest)
          simp only [columns, Result.map, columnTrees, honly,
            Tree.stripped_of_isBinary hbinary, List.map_cons, List.map_nil]
      | groupThen inner op rest =>
          have hbinary := Expression.isBinary_tree (.groupThen inner op rest)
          simp only [columns, Result.map, columnTrees, honly,
            Tree.stripped_of_isBinary hbinary, List.map_cons, List.map_nil]

/-- A stage consists of the texts of trees. -/
theorem Body.outcome_eq_ok
    {parameter : String} {body : Body Expression} {stage : Stage}
    (h : body.outcome parameter = .ok stage) :
    stage.scope = scopeOf parameter
        ((body.map Expression.tree).values parameter) ∧
      stage.columns =
        (body.map Expression.tree).result.columnTrees.map fun tree =>
          (tree.lowered parameter
            ((body.map Expression.tree).values parameter) false).text := by
  have hvalues : (body.map Expression.tree).values parameter =
      bindEach (Tree.bound parameter)
        (body.assignments.map (Assignment.map Expression.tree)) [] := by
    rw [values, assignments_map]
  unfold outcome at h
  cases hbind : bindAll body.assignments (.ofParameter parameter) with
  | error error =>
      rw [hbind] at h
      cases h
  | ok scope =>
      have hempty : bindAll body.assignments (scopeOf parameter []) =
          .ok scope := hbind
      have hscope := bindAll_scopeOf parameter body.assignments hempty
      rw [hbind, ok_bind] at h
      cases hcheck : checkElements scope body.elements with
      | error error =>
          rw [hcheck] at h
          cases h
      | ok _ =>
          rw [hcheck, ok_bind] at h
          cases h
          rw [← hvalues] at hscope
          refine ⟨hscope, ?_⟩
          have hscoped : ∀ element ∈ body.result.elements,
              element.WellScoped parameter
                (((body.map Expression.tree).values parameter).map
                  Prod.fst) := by
            intro element helement operand hoperand
            have hverdict := forM_eq_ok_iff.mp
              (forM_eq_ok_iff.mp hcheck element helement) operand hoperand
            have hoperandScoped := Operand.wellScoped_of_check hverdict
            rw [hscope, names_scopeOf] at hoperandScoped
            exact hoperandScoped
          simp only [hscope, result_map]
          exact body.result.columns_scopeOf parameter _ hscoped

end Grammar

end SelectChain

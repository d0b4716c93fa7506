import SelectChain.Proofs.Acceptance
import SelectChain.Proofs.LoweredTrees
import Mathlib.Tactic

/-!
# Columns mean what the source means

A body is read with the precedence of the source: every expression is a tree, and
a bound name means the tree it is bound to.  Each column has exactly one tree of
the target grammar, and that tree is the one of the source expression, up to
parentheses, with all names replaced by what they mean.  So column and source have
the same value under every interpretation of numbers, columns and operators.

The argument needs that the parentheses around a replaced name are there when they
are wanted.  `Faithful` is what the bound values have to satisfy for that, and they
do unless a name is bound to another bound name alone.
-/

namespace SelectChain

namespace Grammar

/-! ## Readings of a body -/

/-- A body of trees that spells these words. -/
structure Body.IsReading (words : List Word) (body : Body (Tree Operand)) :
    Prop where
  words_eq : body.words Tree.sourceWords = words
  values : ∀ assignment ∈ body.assignments, assignment.value.IsSource
  elements : ∀ element ∈ body.elements, element.IsSource

/-- No name is bound to just another name that is bound before. -/
def Body.NoAlias (body : Body (Tree Operand)) : Prop :=
  ∀ before assignment after,
    body.assignments = before ++ assignment :: after →
    ∀ name : Name, assignment.value = .leaf (.bare name) →
      name.text ∉ boundNames before

/-- The tree is a reading of the text by the target grammar. -/
def Tree.IsColumn (text : String) (tree : Tree Column) : Prop :=
  tree.Graded ∧
    ∃ tokens, tokenize text = .ok tokens ∧
      grammarWords tokens = tree.targetWords

theorem Body.words_map (body : Body Expression) :
    (body.map Expression.tree).words Tree.sourceWords =
      body.words Expression.words := by
  have hassignments : ∀ assignments : List (Assignment Expression),
      assignmentsWords Tree.sourceWords
          (assignments.map (Assignment.map Expression.tree)) =
        assignmentsWords Expression.words assignments := by
    intro assignments
    have hwords : (fun assignment : Assignment Expression =>
        (assignment.map Expression.tree).words Tree.sourceWords) =
          Assignment.words Expression.words := by
      funext assignment
      simp only [Assignment.words, Assignment.map, Expression.sourceWords_tree]
      rfl
    rw [assignmentsWords, List.flatMap_map, hwords, assignmentsWords]
  have hresult : ∀ result : Result Expression,
      (result.map Expression.tree).words Tree.sourceWords =
        result.words Expression.words := by
    intro result
    cases result with
    | tuple first more =>
        simp only [Result.map, Result.words, moreWords, List.flatMap_map,
          Expression.sourceWords_tree]
    | single only =>
        simp only [Result.map, Result.words, Expression.sourceWords_tree]
  cases body with
  | block assignments result =>
      simp only [Body.map, Body.words, hassignments, hresult]
  | plain result => simp only [Body.map, Body.words, hresult]

theorem Body.isReading_map (body : Body Expression) :
    (body.map Expression.tree).IsReading (body.words Expression.words) := by
  refine ⟨body.words_map, ?_, ?_⟩
  · intro assignment hmem
    rw [assignments_map] at hmem
    obtain ⟨source, -, rfl⟩ := List.mem_map.mp hmem
    exact source.value.isSource_tree
  · intro element hmem
    rw [elements_map] at hmem
    obtain ⟨source, -, rfl⟩ := List.mem_map.mp hmem
    exact source.isSource_tree

theorem exists_map_tree {trees : List (Tree Operand)}
    (h : ∀ tree ∈ trees, tree.IsSource) :
    ∃ expressions : List Expression, expressions.map Expression.tree = trees := by
  have hrange : trees ∈ Set.range (List.map Expression.tree) := by
    rw [Set.range_list_map]
    intro tree hmem
    exact (h tree hmem).exists_expression
  exact hrange

theorem exists_map_assignments {assignments : List (Assignment (Tree Operand))}
    (h : ∀ assignment ∈ assignments, assignment.value.IsSource) :
    ∃ sources : List (Assignment Expression),
      sources.map (Assignment.map Expression.tree) = assignments := by
  have hrange :
      assignments ∈ Set.range (List.map (Assignment.map Expression.tree)) := by
    rw [Set.range_list_map]
    intro assignment hmem
    obtain ⟨expression, htree⟩ := (h assignment hmem).exists_expression
    exact ⟨⟨assignment.name, expression, assignment.semicolon⟩, by
      simp [Assignment.map, htree]⟩
  exact hrange

/-- Every reading comes from a derivation. -/
theorem Body.IsReading.exists_body
    {words : List Word} {reading : Body (Tree Operand)}
    (h : reading.IsReading words) :
    ∃ body : Body Expression, body.map Expression.tree = reading ∧
      body.words Expression.words = words := by
  have hresult : ∃ result : Result Expression,
      result.map Expression.tree = reading.result := by
    have helements := h.elements
    unfold Body.elements at helements
    cases hcase : reading.result with
    | tuple first more =>
        rw [hcase] at helements
        obtain ⟨source, hfirst⟩ :=
          (helements first (by simp [Result.elements])).exists_expression
        have hsources : ∀ tree ∈ more, tree.IsSource := fun tree hmem =>
          helements tree (by simp [Result.elements, hmem])
        obtain ⟨sources, hmore⟩ := exists_map_tree hsources
        exact ⟨.tuple source sources, by simp [Result.map, hfirst, hmore]⟩
    | single only =>
        rw [hcase] at helements
        obtain ⟨source, honly⟩ :=
          (helements only (by simp [Result.elements])).exists_expression
        exact ⟨.single source, by simp [Result.map, honly]⟩
  obtain ⟨result, hresult⟩ := hresult
  obtain ⟨assignments, hassignments⟩ := exists_map_assignments h.values
  have hbody : ∃ body : Body Expression,
      body.map Expression.tree = reading := by
    cases reading with
    | block _ _ => exact ⟨.block assignments result, by
        simp only [Body.map, hassignments, hresult, Body.assignments,
          Body.result]⟩
    | plain _ => exact ⟨.plain result, by
        simp only [Body.map, hresult, Body.result]⟩
  obtain ⟨body, rfl⟩ := hbody
  exact ⟨body, rfl, body.words_map.symm.trans h.words_eq⟩

/-! ## Inlining -/

def Operand.inlined (parameter : String)
    (values : List (String × Tree Column)) : Operand → Tree Column
  | .number digits => .leaf (.number digits)
  | .bare name =>
      if name.text = parameter then .leaf (.column parameterName)
      else (values.lookup name.text).getD (.leaf (.column name))
  | .access _ field => .leaf (.column field)
  | .numberAccess digits _ => .leaf (.number digits)

/-- The tree with the parameter, its fields and the bound names replaced. -/
def Tree.inlined (parameter : String) (values : List (String × Tree Column)) :
    Tree Operand → Tree Column
  | .leaf atom => atom.inlined parameter values
  | .group inner => .group (inner.inlined parameter values)
  | .binary op left right =>
      .binary op (left.inlined parameter values)
        (right.inlined parameter values)
  | .conditional cmp left right yes no =>
      .conditional cmp (left.inlined parameter values)
        (right.inlined parameter values) (yes.inlined parameter values)
        (no.inlined parameter values)

/-- What the names of a body stand for, inlined recursively. -/
def Body.inlinedValues (parameter : String) (body : Body (Tree Operand)) :
    List (String × Tree Column) :=
  bindEach (Tree.inlined parameter) body.assignments []

/-- A lowered value is a tree up to parentheses. -/
def Lowered.Erases (value : Lowered) (tree : Tree Column) : Prop :=
  value.tree.erase = tree.erase

theorem Lowered.erase_spliced (value : Lowered) (joined : Bool) :
    (value.spliced joined).erase = value.tree.erase := by
  unfold spliced
  cases value.compound && joined with
  | true => rfl
  | false => rfl

theorem Tree.erase_lowered
    {values : List (String × Lowered)} {trees : List (String × Tree Column)}
    (h : Related Lowered.Erases values trees) (parameter : String)
    (tree : Tree Operand) (joined : Bool) :
    (tree.lowered parameter values joined).erase =
      (tree.inlined parameter trees).erase := by
  induction tree generalizing joined with
  | leaf atom =>
      cases atom with
      | number digits => rfl
      | access qualifier field => rfl
      | numberAccess digits field => rfl
      | bare name =>
          simp only [lowered, Operand.lowered, inlined, Operand.inlined]
          by_cases hname : name.text = parameter
          · simp [hname]
          · rcases h.lookup name.text with
              ⟨hnone, hnone'⟩ | ⟨value, tree, hsome, hsome', herase⟩
            · simp [hname, hnone, hnone']
            · simp only [hname, if_false, hsome, hsome', Option.getD_some,
                Lowered.erase_spliced]
              exact herase
  | group inner ih => exact ih false
  | binary op left right ihLeft ihRight =>
      rw [lowered, inlined, erase, erase, ihLeft, ihRight]
  | conditional cmp left right yes no ihLeft ihRight ihYes ihNo =>
      rw [lowered, inlined, erase, erase, ihLeft, ihRight, ihYes, ihNo]

theorem Body.values_erase (parameter : String) (body : Body (Tree Operand)) :
    Related Lowered.Erases (body.values parameter)
      (body.inlinedValues parameter) := by
  apply Related.bindEach
  · intro values trees h tree
    exact tree.erase_lowered h parameter false
  · exact .nil

/-! ## Values -/

/-- What numbers, columns and operators stand for. -/
structure Interpretation (V : Type) where
  number : String → V
  column : String → V
  arithmetic : Arithmetic → V → V → V
  conditional : Comparison → V → V → V → V → V

variable {V : Type}

def Column.value (interpretation : Interpretation V) : Column → V
  | .number digits => interpretation.number digits.text
  | .column name => interpretation.column name.text

def Tree.value (interpretation : Interpretation V) : Tree Column → V
  | .leaf atom => atom.value interpretation
  | .group inner => inner.value interpretation
  | .binary op left right =>
      interpretation.arithmetic op (left.value interpretation)
        (right.value interpretation)
  | .conditional cmp left right yes no =>
      interpretation.conditional cmp (left.value interpretation)
        (right.value interpretation) (yes.value interpretation)
        (no.value interpretation)

/-- The value of an operand of the source, given those of the bound names. -/
def Operand.value (interpretation : Interpretation V) (parameter : String)
    (values : List (String × V)) : Operand → V
  | .number digits => interpretation.number digits.text
  | .bare name =>
      if name.text = parameter then interpretation.column "_1"
      else (values.lookup name.text).getD (interpretation.column name.text)
  | .access _ field => interpretation.column field.text
  | .numberAccess digits _ => interpretation.number digits.text

def Tree.sourceValue (interpretation : Interpretation V) (parameter : String)
    (values : List (String × V)) : Tree Operand → V
  | .leaf atom => atom.value interpretation parameter values
  | .group inner => inner.sourceValue interpretation parameter values
  | .binary op left right =>
      interpretation.arithmetic op
        (left.sourceValue interpretation parameter values)
        (right.sourceValue interpretation parameter values)
  | .conditional cmp left right yes no =>
      interpretation.conditional cmp
        (left.sourceValue interpretation parameter values)
        (right.sourceValue interpretation parameter values)
        (yes.sourceValue interpretation parameter values)
        (no.sourceValue interpretation parameter values)

/-- The values of the names of a body, computed in order. -/
def Body.computedValues (interpretation : Interpretation V)
    (parameter : String) (body : Body (Tree Operand)) : List (String × V) :=
  bindEach (Tree.sourceValue interpretation parameter) body.assignments []

theorem Tree.value_erase
    (interpretation : Interpretation V) (tree : Tree Column) :
    tree.erase.value interpretation = tree.value interpretation := by
  induction tree with
  | leaf atom => rfl
  | group inner ih => exact ih
  | binary op left right ihLeft ihRight =>
      rw [erase, value, value, ihLeft, ihRight]
  | conditional cmp left right yes no ihLeft ihRight ihYes ihNo =>
      rw [erase, value, value, ihLeft, ihRight, ihYes, ihNo]

theorem Tree.value_inlined
    (interpretation : Interpretation V) {trees : List (String × Tree Column)}
    {values : List (String × V)}
    (h : Related (fun tree value => tree.value interpretation = value) trees
      values)
    (parameter : String) (tree : Tree Operand) :
    (tree.inlined parameter trees).value interpretation =
      tree.sourceValue interpretation parameter values := by
  induction tree with
  | leaf atom =>
      cases atom with
      | number digits => rfl
      | access qualifier field => rfl
      | numberAccess digits field => rfl
      | bare name =>
          simp only [inlined, Operand.inlined, sourceValue, Operand.value]
          by_cases hname : name.text = parameter
          · simp [hname, value, Column.value, parameterName]
          · rcases h.lookup name.text with
              ⟨hnone, hnone'⟩ | ⟨tree, result, hsome, hsome', hvalue⟩
            · simp [hname, hnone, hnone', value, Column.value]
            · simpa [hname, hsome, hsome'] using hvalue
  | group inner ih => exact ih
  | binary op left right ihLeft ihRight =>
      rw [inlined, value, sourceValue, ihLeft, ihRight]
  | conditional cmp left right yes no ihLeft ihRight ihYes ihNo =>
      rw [inlined, value, sourceValue, ihLeft, ihRight, ihYes, ihNo]

theorem Body.inlinedValues_value
    (interpretation : Interpretation V) (parameter : String)
    (body : Body (Tree Operand)) :
    Related (fun tree value => tree.value interpretation = value)
      (body.inlinedValues parameter)
      (body.computedValues interpretation parameter) := by
  apply Related.bindEach
  · intro trees values h tree
    exact tree.value_inlined interpretation h parameter
  · exact .nil

/-! ## Parentheses -/

/-- A graded value carries the mark of its operator. -/
structure Lowered.Faithful (value : Lowered) : Prop where
  graded : value.tree.Graded
  compound : value.compound = value.tree.isBinary

def Faithful (values : List (String × Lowered)) : Prop :=
  ∀ value ∈ values, value.2.Faithful

theorem Faithful.lookup
    {values : List (String × Lowered)} (h : Faithful values) {name : String}
    {value : Lowered} (hlookup : values.lookup name = some value) :
    value.Faithful := by
  obtain ⟨before, after, hsplit, -⟩ := List.lookup_eq_some_iff.mp hlookup
  exact h (name, value) (by simp [hsplit])

theorem Lowered.Faithful.level_spliced
    {value : Lowered} (h : value.Faithful) :
    (value.spliced true).level = 2 := by
  unfold Lowered.spliced
  rw [Bool.and_true, h.compound]
  cases hbinary : value.tree.isBinary with
  | true => rfl
  | false =>
      rw [if_neg (by simp)]
      exact value.tree.level_eq_two_iff.mpr hbinary

theorem Lowered.Faithful.graded_spliced
    {value : Lowered} (h : value.Faithful) (joined : Bool) :
    (value.spliced joined).Graded := by
  unfold Lowered.spliced
  cases value.compound && joined with
  | true => exact h.graded
  | false => exact h.graded

section Faithful

variable {values : List (String × Lowered)} (h : Faithful values)
  (parameter : String)
include h

theorem Faithful.level_lowered (tree : Tree Operand) :
    (tree.lowered parameter values true).level = tree.level := by
  cases tree with
  | leaf atom =>
      cases atom with
      | number digits => rfl
      | access qualifier field => rfl
      | numberAccess digits field => rfl
      | bare name =>
          simp only [Tree.lowered, Operand.lowered]
          split
          · rfl
          · cases hlookup : values.lookup name.text with
            | none => rfl
            | some value => exact (h.lookup hlookup).level_spliced
  | group inner => rfl
  | binary op left right => rfl
  | conditional cmp left right yes no => rfl

theorem Faithful.graded_lowered
    {tree : Tree Operand} (htree : tree.Graded) (joined : Bool) :
    (tree.lowered parameter values joined).Graded := by
  induction tree generalizing joined with
  | leaf atom =>
      cases atom with
      | number digits => trivial
      | access qualifier field => trivial
      | numberAccess digits field => trivial
      | bare name =>
          simp only [Tree.lowered, Operand.lowered]
          split
          · trivial
          · cases hlookup : values.lookup name.text with
            | none => trivial
            | some value => exact (h.lookup hlookup).graded_spliced joined
  | group inner ih => exact ih htree false
  | binary op left right ihLeft ihRight =>
      obtain ⟨hleft, hright, hleftGraded, hrightGraded⟩ := htree
      refine ⟨?_, ?_, ihLeft hleftGraded true, ihRight hrightGraded true⟩
      · rw [h.level_lowered parameter left]
        exact hleft
      · rw [h.level_lowered parameter right]
        exact hright
  | conditional cmp left right yes no ihLeft ihRight ihYes ihNo =>
      obtain ⟨hleft, hright, hyes, hno⟩ := htree
      exact ⟨ihLeft hleft false, ihRight hright false, ihYes hyes false,
        ihNo hno false⟩

end Faithful

theorem Faithful.bindEach
    {parameter : String} (assignments : List (Assignment (Tree Operand)))
    {values : List (String × Lowered)} (hvalues : Faithful values)
    (hgraded : ∀ assignment ∈ assignments, assignment.value.Graded)
    (halias : ∀ before assignment after,
      assignments = before ++ assignment :: after →
      ∀ name : Name, assignment.value = .leaf (.bare name) →
        name.text ∉ values.map Prod.fst ++ boundNames before) :
    Faithful (Grammar.bindEach (Tree.bound parameter) assignments values) := by
  induction assignments generalizing values with
  | nil => exact hvalues
  | cons assignment rest ih =>
      apply ih
      · intro value hmem
        rcases List.mem_append.mp hmem with hold | hnew
        · exact hvalues value hold
        · rw [List.mem_singleton] at hnew
          subst hnew
          constructor
          · exact hvalues.graded_lowered parameter
              (hgraded assignment (by simp)) false
          · apply Eq.symm
            apply Tree.isBinary_lowered parameter
            intro name hname
            simpa [boundNames] using halias [] assignment rest rfl name hname
      · intro other hmem
        exact hgraded other (by simp [hmem])
      · intro before other after hsplit name hname
        have hother := halias (assignment :: before) other after
          (by rw [hsplit]; rfl) name hname
        simpa [boundNames] using hother

theorem Body.NoAlias.faithful
    {words : List Word} {reading : Body (Tree Operand)}
    (h : reading.NoAlias) (hreading : reading.IsReading words)
    (parameter : String) : Faithful (reading.values parameter) := by
  apply Faithful.bindEach
  · intro value hmem
    cases hmem
  · intro assignment hmem
    exact (hreading.values assignment hmem).graded
  · intro before assignment after hsplit name hname
    simpa using h before assignment after hsplit name hname

/-! ## Columns -/

theorem Result.length_columnTrees (result : Result (Tree Operand)) :
    result.columnTrees.length = result.elements.length := by
  cases result <;> rfl

theorem Result.columnTrees_getElem?
    {result : Result (Tree Operand)} {index : Nat}
    {column element : Tree Operand}
    (hcolumn : result.columnTrees[index]? = some column)
    (helement : result.elements[index]? = some element) :
    column = element ∨ column = element.stripped := by
  cases result with
  | tuple first more =>
      left
      have hsame : (Result.tuple first more).columnTrees =
          (Result.tuple first more).elements := rfl
      rw [hsame, helement] at hcolumn
      exact (Option.some.inj hcolumn).symm
  | single only =>
      right
      cases index with
      | succ index => cases helement
      | zero =>
          cases helement
          cases hcolumn
          rfl

theorem Tree.Graded.stripped {tree : Tree Operand} (h : tree.Graded) :
    tree.stripped.Graded := by
  cases tree with
  | group inner => exact h
  | leaf atom => exact h
  | binary op left right => exact h
  | conditional cmp left right yes no => exact h

theorem Tree.erase_inlined_stripped
    (parameter : String) (values : List (String × Tree Column))
    (tree : Tree Operand) :
    (tree.stripped.inlined parameter values).erase =
      (tree.inlined parameter values).erase := by
  cases tree <;> rfl

theorem Tree.Graded.isColumn_text {tree : Tree Column} (h : tree.Graded) :
    tree.IsColumn tree.text :=
  ⟨h, tree.exists_tokenize⟩

theorem Tree.IsColumn.unique
    {text : String} {first second : Tree Column} (hfirst : first.IsColumn text)
    (hsecond : second.IsColumn text) : first = second := by
  obtain ⟨hgraded, tokens, htokens, hwords⟩ := hfirst
  obtain ⟨hgraded', tokens', htokens', hwords'⟩ := hsecond
  rw [htokens] at htokens'
  cases htokens'
  exact hgraded.eq_of_targetWords hgraded' (hwords.symm.trans hwords')

/-! ## The body parser -/

/-- The words within a readable text can be read by themselves. -/
theorem exists_reads_of_append
    {tokens : List Token} {before words rest : List Word}
    (h : grammarWords tokens = before ++ (words ++ rest)) :
    ∃ cursor : Cursor, cursor.Reads words := by
  unfold grammarWords at h
  obtain ⟨first, others, htokens, -, hothers⟩ := List.map_eq_append_iff.mp h
  obtain ⟨middle, last, rfl, hmiddle, -⟩ := List.map_eq_append_iff.mp hothers
  have htrivia : grammarTokens middle = middle := by
    apply grammarTokens_eq_self
    rw [htokens]
    intro token hmem
    simp [hmem]
  obtain ⟨cursor, -, hreads⟩ :=
    (Cursor.ofItems []).pull_reads middle
  rw [grammarWords, htrivia, hmiddle] at hreads
  exact ⟨cursor, hreads⟩

/-- The outcome of a body depends on its words alone. -/
theorem outcome_eq_of_words
    {parameter : String} {first second : Body Expression} {cursor : Cursor}
    (hreads : cursor.Reads (first.words Expression.words))
    (h : second.words Expression.words = first.words Expression.words)
    {stage : Stage} (hstage : first.outcome parameter = .ok stage) :
    second.outcome parameter = .ok stage := by
  have hfirst := Parser.meets_body parameter first first.endsBefore_nil
  have hsecond := Parser.meets_body parameter second second.endsBefore_nil
  rw [List.append_nil] at hfirst hsecond
  rw [h] at hsecond
  have hrun := hfirst cursor hreads
  rw [hstage] at hrun
  obtain ⟨after, hbody, -⟩ := hrun
  exact (hsecond.of_ok hreads hbody).1

/-- Every column of an accepted body has exactly one tree, and it is that of the
source element. -/
theorem body_columns_preserve_meaning
    {source : String} {tokens : List Token}
    (htokens : tokenize source = .ok tokens) {before words : List Word}
    (hwords : grammarWords tokens = before ++ words) {cursor after : Cursor}
    (hreads : cursor.Reads words) {parameter : String} {stage : Stage}
    (hrun : Parser.body parameter cursor = .ok stage after) :
    ∃ consumed rest, words = consumed ++ rest ∧ after.Reads rest ∧
      (∃ reading : Body (Tree Operand), reading.IsReading consumed) ∧
      ∀ reading : Body (Tree Operand), reading.IsReading consumed →
        reading.NoAlias →
        stage.columns.length = reading.elements.length ∧
        ∀ (index : Nat) (column : String) (element : Tree Operand),
          stage.columns[index]? = some column →
          reading.elements[index]? = some element →
          ∃ tree : Tree Column, tree.IsColumn column ∧
            (∀ other : Tree Column, other.IsColumn column → other = tree) ∧
            tree.erase =
              (element.inlined parameter
                (reading.inlinedValues parameter)).erase ∧
            ∀ (V : Type) (interpretation : Interpretation V),
              tree.value interpretation =
                element.sourceValue interpretation parameter
                  (reading.computedValues interpretation parameter) := by
  have hlexical : ∀ word ∈ words, word.Lexical := by
    intro word hmem
    apply lexical_of_tokenize htokens
    rw [hwords]
    exact List.mem_append_right _ hmem
  obtain ⟨body, rest, rfl, hafter, hends⟩ :=
    Parser.body_eq_ok hreads hlexical hrun
  obtain ⟨houtcome, -⟩ :=
    (Parser.meets_body parameter body hends).of_ok hreads hrun
  obtain ⟨alone, halone⟩ := exists_reads_of_append hwords
  refine ⟨body.words Expression.words, rest, rfl, hafter,
    ⟨_, body.isReading_map⟩, ?_⟩
  intro reading hreading halias
  obtain ⟨derived, rfl, hderived⟩ := hreading.exists_body
  have hstage := outcome_eq_of_words halone hderived houtcome
  obtain ⟨-, hcolumns⟩ := Body.outcome_eq_ok hstage
  have hfaithful := halias.faithful hreading parameter
  have herases := (derived.map Expression.tree).values_erase parameter
  constructor
  · rw [hcolumns, List.length_map, Result.length_columnTrees]
    rfl
  · intro index column element hcolumn helement
    rw [hcolumns, List.getElem?_map, Option.map_eq_some_iff] at hcolumn
    obtain ⟨columnTree, htree, rfl⟩ := hcolumn
    have hsource := hreading.elements element (List.mem_of_getElem? helement)
    have hmeans : columnTree.Graded ∧
        (columnTree.inlined parameter
            ((derived.map Expression.tree).inlinedValues parameter)).erase =
          (element.inlined parameter
            ((derived.map Expression.tree).inlinedValues parameter)).erase := by
      rcases Result.columnTrees_getElem? htree helement with rfl | rfl
      · exact ⟨hsource.graded, rfl⟩
      · exact ⟨hsource.graded.stripped, element.erase_inlined_stripped _ _⟩
    have hgraded := hfaithful.graded_lowered parameter hmeans.1 false
    have herase := (columnTree.erase_lowered herases parameter false).trans
      hmeans.2
    refine ⟨_, hgraded.isColumn_text, ?_, herase, ?_⟩
    · intro other hother
      exact hother.unique hgraded.isColumn_text
    · intro V interpretation
      have hinlined := element.value_inlined interpretation
        ((derived.map Expression.tree).inlinedValues_value interpretation
          parameter) parameter
      rw [← Tree.value_erase, herase, Tree.value_erase]
      exact hinlined

/-- A bound sum keeps its parentheses in a product. -/
theorem doubled_sum_preserves_meaning :
    ∃ tree : Tree Column, tree.IsColumn "(_1 + 1) * 2" ∧
      (∀ other : Tree Column, other.IsColumn "(_1 + 1) * 2" → other = tree) ∧
      ∀ interpretation : Interpretation Int,
        tree.value interpretation =
          interpretation.arithmetic .multiply
            (interpretation.arithmetic .add (interpretation.column "_1")
              (interpretation.number "1"))
            (interpretation.number "2") := by
  let x : Name := ⟨"x", by decide⟩
  let y : Name := ⟨"y", by decide⟩
  let body : Body Expression :=
    .block
      [⟨y, .operandThen (.bare x) .add (.operand (.number ⟨"1", by decide⟩)),
        true⟩]
      (.single (.operandThen (.bare y) .multiply
        (.operand (.number ⟨"2", by decide⟩))))
  let program : Program := ⟨⟨"1", by decide⟩, ⟨"3", by decide⟩, [⟨x, body⟩]⟩
  let rest : List Word :=
    [.mark ")", .mark ".", .call "collect", .mark "(", .mark ")"]
  have hscanned :
      (tokenize "sc.range(1,3).map(x => \x7b val y = x + 1; y * 2 \x7d).collect()").map
        grammarWords = .ok program.words := by
    decide +kernel
  obtain ⟨tokens, htokens, hwords⟩ := exists_tokens_of_words hscanned
  have hsplit : grammarWords tokens = program.words.take 13 ++
      (body.words Expression.words ++ rest) := by
    rw [hwords]
    decide
  have hend : grammarWords tokens = program.words.take 13 ++
      ((body.words Expression.words ++ rest) ++ []) := by
    rw [List.append_nil]
    exact hsplit
  obtain ⟨cursor, hreads⟩ := exists_reads_of_append hend
  obtain ⟨after, hrun, hrest⟩ :
      ∃ after, Parser.body "x" cursor =
        .ok ⟨⟨"x", [("y", ⟨"_1 + 1", true⟩)]⟩, ["(_1 + 1) * 2"]⟩ after ∧
          after.Reads rest :=
    Parser.meets_body "x" body trivial cursor hreads
  obtain ⟨consumed, rest', hconsumed, hrest', -, hall⟩ :=
    body_columns_preserve_meaning htokens hsplit hreads hrun
  obtain rfl := hrest.unique hrest'
  obtain rfl := List.append_cancel_right hconsumed
  have halias : (body.map Expression.tree).NoAlias := by
    intro before assignment after hassignments name hname
    cases before with
    | nil =>
        cases hassignments
        cases hname
    | cons first before =>
        cases before <;> cases hassignments
  obtain ⟨tree, hcolumn, hunique, -, hvalue⟩ :=
    (hall _ body.isReading_map halias).2 0 _ _ rfl rfl
  exact ⟨tree, hcolumn, hunique, hvalue Int⟩

end Grammar

end SelectChain

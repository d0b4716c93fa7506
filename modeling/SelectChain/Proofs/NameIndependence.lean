import SelectChain.Proofs.RenamedPrograms
import SelectChain.Proofs.StreamedLowering
import Mathlib.Tactic

/-!
# Names of parameters and bindings

The text of a chain has none of the names that the bodies of its pipeline
introduce.  Under other names, the parameter and the bindings of every body
lead to the same text, to scopes with the new names and the same fragments, and
to a scope error about the new name where there was one about the old.  The main
step is that the outcome of a body is renamed along with the body
(`Body.outcome_renamed`); it rests on look-up, which an injective change of names
does not disturb.
-/

namespace SelectChain

open Grammar

/-! ## Renamed scopes and errors -/

def Scope.renamed (spelling : String → String) (scope : Scope) : Scope :=
  ⟨spelling scope.parameter,
    scope.values.map fun value => (spelling value.1, value.2)⟩

/-- The same error about another name.  A number is no name, and neither is what
stands behind its dot. -/
def ScopeError.renamed (spelling : String → String) : ScopeError → ScopeError
  | .undeclared name => .undeclared (spelling name)
  | .numericField literal => .numericField literal
  | .fieldOnBinding name => .fieldOnBinding (spelling name)
  | .parameterRebound name => .parameterRebound (spelling name)
  | .duplicateBinding name => .duplicateBinding (spelling name)

def Fault.renamed (spelling : String → String) : Fault → Fault
  | .lexical error => .lexical error
  | .grammar error => .grammar error
  | .scope error => .scope (error.renamed spelling)

def Stage.renamed (spelling : String → String) (stage : Stage) : Stage :=
  { stage with scope := stage.scope.renamed spelling }

def Chain.renamed (spelling : String → String) (chain : Chain) : Chain :=
  { chain with stages := chain.stages.map (Stage.renamed spelling) }

/-- An outcome under other names, with `carry` for its value. -/
def renamedOutcome {α β : Type} (spelling : String → String) (carry : α → β)
    (outcome : Except ScopeError α) : Except ScopeError β :=
  (outcome.map carry).mapError (ScopeError.renamed spelling)

section Outcomes

variable {α β γ δ : Type} {spelling : String → String}

@[simp] theorem renamedOutcome_ok (carry : α → β) (value : α) :
    renamedOutcome spelling carry (.ok value) = .ok (carry value) :=
  rfl

theorem renamedOutcome_bind
    {carry : α → β} {carry' : γ → δ} {outcome : Except ScopeError α}
    {next : α → Except ScopeError γ} {next' : β → Except ScopeError δ}
    (h : ∀ value, next' (carry value) =
      renamedOutcome spelling carry' (next value)) :
    renamedOutcome spelling carry outcome >>= next' =
      renamedOutcome spelling carry' (outcome >>= next) := by
  cases outcome with
  | ok value => exact h value
  | error error => rfl

theorem forM_renamed
    {rename : α → β} {check : α → Except ScopeError Unit}
    {check' : β → Except ScopeError Unit}
    (h : ∀ part, check' (rename part) =
      renamedOutcome spelling id (check part)) (parts : List α) :
    (parts.map rename).forM check' =
      renamedOutcome spelling id (parts.forM check) := by
  induction parts with
  | nil => rfl
  | cons part parts ih =>
      change (check' (rename part) >>= fun _ =>
          (parts.map rename).forM check') =
        renamedOutcome spelling id (check part >>= fun _ => parts.forM check)
      rw [h]
      exact renamedOutcome_bind fun _ => ih

theorem mapM_renamed
    {rename : α → β} {carry : γ → δ} {run : α → Except ScopeError γ}
    {run' : β → Except ScopeError δ}
    (h : ∀ part, run' (rename part) =
      renamedOutcome spelling carry (run part)) (parts : List α) :
    (parts.map rename).mapM run' =
      renamedOutcome spelling (List.map carry) (parts.mapM run) := by
  induction parts with
  | nil => rfl
  | cons part parts ih =>
      rw [List.map_cons, List.mapM_cons, List.mapM_cons, h]
      apply renamedOutcome_bind
      intro value
      rw [ih]
      exact renamedOutcome_bind fun _ => rfl

end Outcomes

namespace Scope

variable {spelling : String → String} (hinjective : Function.Injective spelling)
  (scope : Scope)

include hinjective

theorem lookup?_renamed (name : String) :
    (scope.renamed spelling).lookup? (spelling name) = scope.lookup? name := by
  have hvalues : ∀ values : List (String × Fragment),
      (values.map fun value => (spelling value.1, value.2)).lookup
        (spelling name) = values.lookup name := by
    intro values
    induction values with
    | nil => rfl
    | cons value values ih =>
        have hname : (spelling name == spelling value.1) =
            (name == value.1) := by
          rw [Bool.eq_iff_iff, beq_iff_eq, beq_iff_eq, hinjective.eq_iff]
        rw [List.map_cons, List.lookup_cons, List.lookup_cons, hname, ih]
  simp only [lookup?, renamed, hinjective.eq_iff, hvalues]

theorem resolve_renamed (name : String) (joined : Bool) :
    (scope.renamed spelling).resolve (spelling name) joined =
      renamedOutcome spelling id (scope.resolve name joined) := by
  rw [resolve, resolve, lookup?_renamed hinjective]
  cases scope.lookup? name with
  | none => rfl
  | some binding => cases binding <;> rfl

theorem requireParameter_renamed (name : String) :
    (scope.renamed spelling).requireParameter (spelling name) =
      renamedOutcome spelling id (scope.requireParameter name) := by
  rw [requireParameter, requireParameter, lookup?_renamed hinjective]
  cases scope.lookup? name with
  | none => rfl
  | some binding => cases binding <;> rfl

theorem bind_renamed (name : String) (fragment : Fragment) :
    (scope.renamed spelling).bind (spelling name) fragment =
      renamedOutcome spelling (renamed spelling)
        (scope.bind name fragment) := by
  rw [bind, bind, lookup?_renamed hinjective]
  cases scope.lookup? name with
  | none => simp [renamed]
  | some binding => cases binding <;> rfl

end Scope

/-! ## Outcomes under other names -/

namespace Grammar

variable (naming : Renaming)

theorem Operand.check_renamed (scope : Scope) (operand : Operand) :
    (operand.renamed naming).check (scope.renamed naming.spelling) =
      renamedOutcome naming.spelling id (operand.check scope) := by
  have hinjective := naming.spelling_injective
  cases operand with
  | number digits => rfl
  | bare name =>
      rw [renamed, check, check, ← naming.spelling_name,
        scope.resolve_renamed hinjective]
      cases scope.resolve name.text false <;> rfl
  | access qualifier field =>
      rw [renamed, check, check, ← naming.spelling_name,
        scope.requireParameter_renamed hinjective]
  | numberAccess digits field => rfl

theorem Operand.text_renamed
    (scope : Scope) (joined : Bool) (operand : Operand) :
    (operand.renamed naming).text (scope.renamed naming.spelling) joined =
      operand.text scope joined := by
  cases operand with
  | bare name =>
      rw [renamed, text, text, ← naming.spelling_name,
        scope.lookup?_renamed naming.spelling_injective]
  | number digits => rfl
  | access qualifier field => rfl
  | numberAccess digits field => rfl

theorem Operand.checkNumber_renamed (operand : Operand) :
    (operand.renamed naming).checkNumber =
      renamedOutcome naming.spelling id operand.checkNumber := by
  cases operand <;> rfl

namespace Expression

theorem operands_renamed (expression : Expression) :
    (expression.renamed naming).operands =
      expression.operands.map (Operand.renamed naming) := by
  induction expression with
  | operand atom => rfl
  | operandThen atom op rest ih => simp [renamed, operands, ih]
  | group inner ih => simpa [renamed, operands] using ih
  | groupThen inner op rest ihInner ihRest =>
      simp [renamed, operands, ihInner, ihRest]
  | conditional cmp left right yes no ihLeft ihRight ihYes ihNo =>
      simp [renamed, operands, ihLeft, ihRight, ihYes, ihNo]

theorem check_renamed (scope : Scope) (expression : Expression) :
    (expression.renamed naming).check (scope.renamed naming.spelling) =
      renamedOutcome naming.spelling id (expression.check scope) := by
  rw [check, operands_renamed]
  exact forM_renamed (Operand.check_renamed naming scope) _

theorem checkBack_renamed (scope : Scope) (expression : Expression) :
    (expression.renamed naming).checkBack (scope.renamed naming.spelling) =
      renamedOutcome naming.spelling id (expression.checkBack scope) := by
  rw [checkBack, operands_renamed, ← List.map_reverse]
  exact forM_renamed (Operand.check_renamed naming scope) _

theorem checkNumbers_renamed (expression : Expression) :
    (expression.renamed naming).checkNumbers =
      renamedOutcome naming.spelling id expression.checkNumbers := by
  rw [checkNumbers, operands_renamed]
  exact forM_renamed (Operand.checkNumber_renamed naming) _

theorem text_renamed
    (scope : Scope) (joined : Bool) (expression : Expression) :
    (expression.renamed naming).text (scope.renamed naming.spelling) joined =
      expression.text scope joined := by
  induction expression generalizing joined with
  | operand atom => exact atom.text_renamed naming scope joined
  | operandThen atom op rest ih =>
      simp only [renamed, text, ih, Operand.text_renamed]
  | group inner ih => simp only [renamed, text, ih]
  | groupThen inner op rest ihInner ihRest =>
      simp only [renamed, text, ihInner, ihRest]
  | conditional cmp left right yes no ihLeft ihRight ihYes ihNo =>
      simp only [renamed, text, ihLeft, ihRight, ihYes, ihNo]

theorem fragment_renamed (scope : Scope) (expression : Expression) :
    (expression.renamed naming).fragment (scope.renamed naming.spelling) =
      expression.fragment scope := by
  rw [fragment, fragment, text_renamed]
  cases expression <;> rfl

end Expression

theorem Assignment.outcome_renamed
    (scope : Scope) (assignment : Assignment Expression) :
    (assignment.renamed naming).outcome (scope.renamed naming.spelling) =
      renamedOutcome naming.spelling (Scope.renamed naming.spelling)
        (assignment.outcome scope) := by
  simp only [outcome, renamed, Expression.checkNumbers_renamed,
    Expression.checkBack_renamed, Expression.fragment_renamed,
    ← naming.spelling_name]
  apply renamedOutcome_bind
  intro _
  apply renamedOutcome_bind
  intro _
  exact scope.bind_renamed naming.spelling_injective _ _

theorem bindAll_renamed
    (assignments : List (Assignment Expression)) (scope : Scope) :
    bindAll (assignments.map (Assignment.renamed naming))
        (scope.renamed naming.spelling) =
      renamedOutcome naming.spelling (Scope.renamed naming.spelling)
        (bindAll assignments scope) := by
  induction assignments generalizing scope with
  | nil => rfl
  | cons assignment assignments ih =>
      rw [List.map_cons, bindAll, bindAll, assignment.outcome_renamed naming]
      exact renamedOutcome_bind ih

theorem Result.columns_renamed
    (scope : Scope) (result : Result Expression) :
    (result.map (Expression.renamed naming)).columns
        (scope.renamed naming.spelling) =
      result.columns scope := by
  cases result with
  | tuple first more => simp [map, columns, Expression.text_renamed]
  | single only =>
      cases only <;>
        simp only [map, Expression.renamed, columns,
          ← Expression.text_renamed naming scope]

theorem Body.outcome_renamed (parameter : Name) (body : Body Expression) :
    (body.renamed naming).outcome (naming.image parameter).text =
      renamedOutcome naming.spelling (Stage.renamed naming.spelling)
        (body.outcome parameter.text) := by
  have hassignments : (body.renamed naming).assignments =
      body.assignments.map (Assignment.renamed naming) := by
    cases body <;> rfl
  have hresult : (body.renamed naming).result =
      body.result.map (Expression.renamed naming) := by
    cases body <;> rfl
  have helements : (body.renamed naming).elements =
      body.elements.map (Expression.renamed naming) := by
    rw [elements, hresult, elements]
    cases body.result <;> rfl
  have hscope : Scope.ofParameter (naming.image parameter).text =
      (Scope.ofParameter parameter.text).renamed naming.spelling := by
    rw [← naming.spelling_name]
    rfl
  rw [outcome, outcome, hassignments, hscope, helements, hresult,
    bindAll_renamed]
  apply renamedOutcome_bind
  intro scope
  rw [Result.columns_renamed, checkElements,
    forM_renamed (Expression.check_renamed naming scope)]
  exact renamedOutcome_bind fun _ => rfl

theorem Program.outcome_renamed (program : Program) :
    (program.renamed naming).outcome =
      renamedOutcome naming.spelling (Chain.renamed naming.spelling)
        program.outcome := by
  have hstage : ∀ transformation : Transformation,
      (transformation.renamed naming).outcome =
        renamedOutcome naming.spelling (Stage.renamed naming.spelling)
          transformation.outcome :=
    fun transformation => transformation.body.outcome_renamed naming _
  rw [outcome, outcome, renamed, mapM_renamed hstage]
  exact renamedOutcome_bind fun _ => rfl

end Grammar

/-! ## The words of a renamed program -/

namespace Renaming

variable (naming : Renaming)

def word (word : Word) : Word :=
  { word with text := naming.spelling word.text }

/-- What `tokensFrom` does to the words that the grammar sees. -/
def wordsFrom (kept : Bool) : List Word → List Word
  | [] => []
  | word :: rest =>
      (if kept then word else naming.word word) ::
        wordsFrom (word.text == ".") rest

theorem grammarWords_tokensFrom (kept : Bool) (tokens : List Token) :
    grammarWords (naming.tokensFrom kept tokens) =
      naming.wordsFrom kept (grammarWords tokens) := by
  induction tokens generalizing kept with
  | nil => rfl
  | cons token tokens ih =>
      unfold grammarWords grammarTokens at ih ⊢
      rw [tokensFrom]
      cases htrivia : token.isTrivia with
      | true => simpa [htrivia] using ih kept
      | false =>
          have hrenamed : (naming.token token).isTrivia = false := htrivia
          cases kept with
          | true => simp [htrivia, wordsFrom, ih, Token.word]
          | false =>
              have hword : (naming.token token).word =
                  naming.word token.word := rfl
              simp [htrivia, hrenamed, hword, wordsFrom, ih]
              rfl

/-- Words that become others, whatever follows them. -/
def Rewords (words renamed : List Word) : Prop :=
  ∀ rest, naming.wordsFrom false (words ++ rest) =
    renamed ++ naming.wordsFrom false rest

variable {naming}

theorem rewords_single {word : Word} (hdot : word.text ≠ ".") :
    naming.Rewords [word] [naming.word word] := by
  intro rest
  have hdot : (word.text == ".") = false := by simpa using hdot
  simp [wordsFrom, hdot]

/-- What is no name stays. -/
theorem rewords_self
    {word : Word} (h : Lexeme.classify word.text.toList ≠ some .identifier)
    (hdot : word.text ≠ ".") : naming.Rewords [word] [word] := by
  have hsingle : naming.Rewords [word] [naming.word word] :=
    rewords_single hdot
  rwa [Renaming.word, naming.spelling_of_ne h] at hsingle

theorem rewords_name (name : Name) :
    naming.Rewords [name.word] [(naming.image name).word] := by
  have hsingle : naming.Rewords [name.word] [naming.word name.word] :=
    rewords_single (name.text_ne "." (by decide))
  rwa [Renaming.word, Name.word, naming.spelling_name] at hsingle

/-- A name behind a dot is kept. -/
theorem rewords_dot (name : Name) :
    naming.Rewords [.mark ".", name.word] [.mark ".", name.word] := by
  intro rest
  have hdot : naming.spelling "." = "." := naming.spelling_of_ne (by decide)
  have hname : (name.text == ".") = false := by
    simpa using name.text_ne "." (by decide)
  simp [wordsFrom, Word.mark, Renaming.word, Name.word, hdot, hname]

theorem respells_rewords : naming.Respells naming.Rewords where
  nil _ := rfl
  append h h' rest := by
    rw [List.append_assoc, h, h', List.append_assoc]
  mark text h hdot := by
    apply rewords_self
    · simp [Word.mark, h]
    · exact hdot
  keyword text h := by
    apply rewords_self
    · simp [Word.keyword, h]
    · rintro rfl
      revert h
      decide
  name := rewords_name
  numeral digits := by
    apply rewords_self
    · rw [Numeral.word, digits.valid]
      decide
    · exact digits.text_ne "." (by decide)
  dot := rewords_dot

end Renaming

/-- The words of the renamed program are those of the program, with other names
in all places but the first and those behind a dot. -/
theorem Grammar.Program.wordsFrom_words (naming : Renaming) (program : Program) :
    naming.wordsFrom true program.words = (program.renamed naming).words := by
  have hrespells : naming.Respells naming.Rewords := Renaming.respells_rewords
  have htail := hrespells.program program []
  rw [List.append_nil, Renaming.wordsFrom, List.append_nil] at htail
  exact congrArg (List.cons (.call "sc")) htail

theorem Chain.text_renamed
    (spelling : String → String) (target : Target) (chain : Chain) :
    (chain.renamed spelling).text target = chain.text target := by
  simp only [text, renamed, List.map_map]
  rfl

theorem Chain.scopes_renamed (spelling : String → String) (chain : Chain) :
    (chain.renamed spelling).scopes =
      chain.scopes.map (Scope.renamed spelling) := by
  simp only [scopes, renamed, List.map_map]
  rfl

/-- The names of parameters and bindings do not reach the text of a chain.  With
other names in their places, a text that is derivable is read as the program with
these names.  Every text that reads so is lowered to the same text, and to the
scopes with the new names; or it is refused for the same reason, told of the new
name. -/
theorem lowering_unchanged_by_naming
    {source : String} {tokens : List Token}
    (h : tokenize source = .ok tokens) {program : Program}
    (hwords : program.words = grammarWords tokens) (naming : Renaming) :
    (tokenize (naming.source tokens) = .ok (naming.tokens tokens) ∧
      grammarWords (naming.tokens tokens) = (program.renamed naming).words) ∧
    ∀ source' tokens', tokenize source' = .ok tokens' →
      grammarWords tokens' = (program.renamed naming).words →
      ∀ target, (Lowering.ofSource source').written target =
        match (Lowering.ofSource source).written target with
        | .ok (text, scopes) =>
            .ok (text, scopes.map (Scope.renamed naming.spelling))
        | .error fault => .error (fault.renamed naming.spelling) := by
  refine ⟨⟨naming.tokenize_source h, ?_⟩, ?_⟩
  · rw [Renaming.tokens, naming.grammarWords_tokensFrom, ← hwords,
      program.wordsFrom_words]
  · intro source' tokens' h' hwords' target
    have hold : (Lowering.ofSource source).outcome =
        program.outcome.mapError .scope := lower_of_program h hwords
    have hnew : (Lowering.ofSource source').outcome =
        (program.renamed naming).outcome.mapError .scope :=
      lower_of_program h' hwords'.symm
    rw [Lowering.written, Lowering.written, hold, hnew,
      program.outcome_renamed]
    cases program.outcome with
    | error error => rfl
    | ok chain =>
        rw [renamedOutcome_ok]
        change Except.ok ((chain.renamed naming.spelling).text target,
          (chain.renamed naming.spelling).scopes) = _
        rw [chain.text_renamed, chain.scopes_renamed]
        rfl

/-- Two names in each other's place. -/
def Renaming.swap (first second : Name) : Renaming where
  image name :=
    if name.text = first.text then second
    else if name.text = second.text then first
    else name
  injective := by
    intro name other heq
    obtain ⟨text, hvalid⟩ := name
    obtain ⟨text', hvalid'⟩ := other
    obtain ⟨firstText, hfirst⟩ := first
    obtain ⟨secondText, hsecond⟩ := second
    dsimp only at heq
    split_ifs at heq <;> simp_all

/-- The parameter and a binding with a field of its name change places, in a body
that is lowered and in one that is not. -/
theorem swapped_names_keep_text :
    (Lowering.ofSource
      "sc.range(1,3).map(y => \x7b val x = y.y + y; x * y \x7d).collect()").written
        ⟨"spark", .inline⟩ =
      .ok ("spark.range(1,3).selectExpr(\x22id as _1\x22)" ++
          ".selectExpr(\x22(y + _1) * _1 as _1\x22).collect()",
        [⟨"y", [("x", ⟨"y + _1", true⟩)]⟩]) ∧
    (Lowering.ofSource "sc.range(1,3).map(y => x).collect()").written .standard =
      .error (.scope (.undeclared "x")) := by
  let x : Name := ⟨"x", by decide⟩
  let y : Name := ⟨"y", by decide⟩
  let bounds : List Transformation → Program :=
    Program.mk ⟨"1", by decide⟩ ⟨"3", by decide⟩
  let product : Program := bounds
    [⟨x, .block
      [⟨y, .operandThen (.access x y) .add (.operand (.bare x)), true⟩]
      (.single (.operandThen (.bare y) .multiply (.operand (.bare x))))⟩]
  let unknown : Program := bounds
    [⟨x, .plain (.single (.operand (.bare y)))⟩]
  have hproduct : (tokenize
      "sc.range(1,3).map(x => \x7b val y = x.y + x; y * x \x7d).collect()").map
        grammarWords = .ok product.words := by
    decide +kernel
  have hswapped : (tokenize
      "sc.range(1,3).map(y => \x7b val x = y.y + y; x * y \x7d).collect()").map
        grammarWords = .ok (product.renamed (.swap x y)).words := by
    decide +kernel
  have hunknown : (tokenize "sc.range(1,3).map(x => y).collect()").map
      grammarWords = .ok unknown.words := by
    decide +kernel
  have hstranger : (tokenize "sc.range(1,3).map(y => x).collect()").map
      grammarWords = .ok (unknown.renamed (.swap x y)).words := by
    decide +kernel
  obtain ⟨_, htokens, hwords⟩ := exists_tokens_of_words hproduct
  obtain ⟨_, htokens', hwords'⟩ := exists_tokens_of_words hswapped
  obtain ⟨_, hother, hotherWords⟩ := exists_tokens_of_words hunknown
  obtain ⟨_, hother', hotherWords'⟩ := exists_tokens_of_words hstranger
  constructor
  · rw [(lowering_unchanged_by_naming htokens hwords.symm (.swap x y)).2 _ _
      htokens' hwords']
    decide +kernel
  · rw [(lowering_unchanged_by_naming hother hotherWords.symm (.swap x y)).2 _ _
      hother' hotherWords']
    decide +kernel

end SelectChain

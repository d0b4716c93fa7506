import SelectChain.Proofs.ExpressionText
import Mathlib.Tactic

/-!
# Reading bodies

What a body with a derivation becomes is said here without a cursor:
`Body.outcome` binds the assignments in order, checks the elements of the result
and gives the stage or the first scope error.  `meets_body` shows that reading
the body does the same, and `body_eq_ok` that every body that was read has a
derivation.
-/

namespace SelectChain

namespace Grammar

/-! ## Outcomes -/

def Assignment.outcome (scope : Scope) (assignment : Assignment Expression) :
    Except ScopeError Scope := do
  assignment.value.checkNumbers
  assignment.value.checkBack scope
  scope.bind assignment.name.text (assignment.value.fragment scope)

def bindAll : List (Assignment Expression) → Scope → Except ScopeError Scope
  | [], scope => .ok scope
  | assignment :: rest, scope => do
      let scope ← assignment.outcome scope
      bindAll rest scope

def checkElements (scope : Scope) (elements : List Expression) :
    Except ScopeError Unit :=
  elements.forM (Expression.check scope)

/-- The columns of a result.  The parentheses around a single expression are
those of a tuple. -/
def Result.columns (scope : Scope) : Result Expression → List String
  | .tuple first more => (first :: more).map (Expression.text scope false)
  | .single (.group inner) => [inner.text scope false]
  | .single only => [only.text scope false]

def Body.outcome (parameter : String) (body : Body Expression) :
    Except ScopeError Stage := do
  let scope ← bindAll body.assignments (.ofParameter parameter)
  checkElements scope body.elements
  .ok ⟨scope, body.result.columns scope⟩

/-! ## Where bodies end -/

/-- A budget for the words of parts that are not empty covers the parts. -/
theorem length_le_flatMap
    {α : Type} (words : α → List Word) (h : ∀ part, 0 < (words part).length)
    (parts : List α) : parts.length ≤ (parts.flatMap words).length := by
  have hone : ∀ length ∈ parts.map fun part => (words part).length,
      1 ≤ length := by
    intro length hmem
    obtain ⟨part, -, rfl⟩ := List.mem_map.mp hmem
    exact h part
  simpa only [List.length_flatMap, List.length_map] using
    List.length_le_sum_of_one_le _ hone

/-- One pair of parentheses may turn out to be a group. -/
def Result.EndsBefore : Result Expression → List Word → Prop
  | .tuple _ [], rest => startsArithmetic rest = false
  | .tuple _ (_ :: _), _ => True
  | .single only, rest => only.EndsBefore rest

def Body.EndsBefore : Body Expression → List Word → Prop
  | .block _ _, _ => True
  | .plain result, rest => result.EndsBefore rest

theorem Result.endsBefore_cons
    (result : Result Expression) (word : Word) (rest : List Word)
    (harithmetic : word.arithmetic? = none) (hdot : word.text ≠ ".") :
    result.EndsBefore (word :: rest) := by
  cases result with
  | tuple first more =>
      cases more with
      | nil => simp [EndsBefore, startsArithmetic, harithmetic]
      | cons second more => trivial
  | single only => exact only.endsBefore_cons word rest harithmetic hdot

theorem Result.endsBefore_nil (result : Result Expression) :
    result.EndsBefore [] := by
  cases result with
  | tuple first more =>
      cases more with
      | nil => rfl
      | cons second more => trivial
  | single only => exact only.endsBefore_nil

theorem Body.endsBefore_cons
    (body : Body Expression) (word : Word) (rest : List Word)
    (harithmetic : word.arithmetic? = none) (hdot : word.text ≠ ".") :
    body.EndsBefore (word :: rest) := by
  cases body with
  | block assignments result => trivial
  | plain result => exact result.endsBefore_cons word rest harithmetic hdot

theorem Body.endsBefore_nil (body : Body Expression) :
    body.EndsBefore [] := by
  cases body with
  | block assignments result => trivial
  | plain result => exact result.endsBefore_nil

/-- The words that expressions start with. -/
structure Opening (word : Word) : Prop where
  lexical : word.Lexical
  kind : word.kind = .identifier ∨ word.kind = .number ∨
    word = .mark "(" ∨ word = .keyword "if"

theorem Opening.text_ne
    {word : Word} (h : Opening word) {text : String}
    (hidentifier : Lexeme.classify text.toList ≠ some .identifier)
    (hnumber : Lexeme.classify text.toList ≠ some .number)
    (hparen : "(" ≠ text) (hif : "if" ≠ text) : word.text ≠ text := by
  intro heq
  subst heq
  have hlexical := h.lexical
  unfold Word.Lexical at hlexical
  rcases h.kind with hkind | hkind | rfl | rfl
  · exact hidentifier (hkind ▸ hlexical)
  · exact hnumber (hkind ▸ hlexical)
  · exact hparen rfl
  · exact hif rfl

theorem Opening.arithmetic?_eq_none {word : Word} (h : Opening word) :
    word.arithmetic? = none := by
  rcases h.kind with hkind | hkind | rfl | rfl
  · simp [Word.arithmetic?, hkind]
  · simp [Word.arithmetic?, hkind]
  · rfl
  · rfl

theorem Expression.exists_opening (expression : Expression) :
    ∃ word rest, expression.words = word :: rest ∧ Opening word := by
  have hparen : Opening (.mark "(") := ⟨by decide, by simp⟩
  have hoperand : ∀ atom : Operand, ∀ more,
      ∃ word rest, atom.words ++ more = word :: rest ∧ Opening word := by
    intro atom more
    cases atom with
    | number digits => exact ⟨_, _, rfl, digits.valid, by simp [Numeral.word]⟩
    | bare name => exact ⟨_, _, rfl, name.valid, by simp [Name.word]⟩
    | access qualifier field =>
        exact ⟨_, _, rfl, qualifier.valid, by simp [Name.word]⟩
    | numberAccess digits field =>
        exact ⟨_, _, rfl, digits.valid, by simp [Numeral.word]⟩
  cases expression with
  | operand atom => simpa [words] using hoperand atom []
  | operandThen atom op rest => exact hoperand atom (op.word :: rest.words)
  | group inner => exact ⟨_, _, rfl, hparen⟩
  | groupThen inner op rest => exact ⟨_, _, rfl, hparen⟩
  | conditional cmp left right yes no =>
      exact ⟨_, _, rfl, by decide, by simp [Word.keyword]⟩

theorem Result.exists_opening (result : Result Expression) :
    ∃ word rest, result.words Expression.words = word :: rest ∧
      Opening word := by
  cases result with
  | tuple first more => exact ⟨_, _, rfl, by decide, by simp⟩
  | single only => exact only.exists_opening

theorem Operand.any_head_paren (operand : Operand) (rest : List Word) :
    (operand.words ++ rest).head?.any (·.text == "(") = false := by
  cases operand with
  | number digits =>
      simp [words, Numeral.word, digits.text_ne "(" (by decide)]
  | bare name => simp [words, Name.word, name.text_ne "(" (by decide)]
  | access qualifier field =>
      simp [words, Name.word, qualifier.text_ne "(" (by decide)]
  | numberAccess digits field =>
      simp [words, Numeral.word, digits.text_ne "(" (by decide)]

end Grammar

namespace Parser

open Grammar

/-! ## From derivations to runs -/

theorem meets_binding
    (scope : Scope) (assignment : Assignment Expression) {rest : List Word}
    (hends : assignment.value.EndsBefore rest) :
    Meets (binding scope)
      (.keyword "val" :: assignment.name.word :: .mark "=" ::
        (assignment.value.words ++ rest))
      (assignment.outcome scope) rest := by
  have houtcome : assignment.outcome scope =
      (assignment.value.feed Sink.collecting [] >>= fun stack =>
        (stack.unwind scope).1 >>= fun fragment =>
          scope.bind assignment.name.text fragment) := by
    rw [← bind_assoc, Expression.collect_unwind]
    simp only [Assignment.outcome, bind_assoc, ok_bind]
  rw [houtcome]
  unfold binding
  apply (meets_expect _ _ _).then
  apply meets_expectKind _ rfl
  rintro ⟨text, kind, line⟩ htoken
  cases htoken
  apply (meets_expect _ _ _).then
  apply (meets_expression Sink.collecting assignment.value [] hends).bind
  intro stack _
  apply (meets_ofScope _ rest).bind
  intro fragment _
  apply (meets_log _ rest).then
  exact meets_ofScope _ rest

theorem meets_bindingsWithin
    (assignments : List (Assignment Expression)) (scope : Scope)
    {budget : Nat} (hbudget : assignments.length ≤ budget)
    {word : Word} {rest : List Word} (hopening : Opening word) :
    Meets (bindingsWithin budget scope)
      (assignmentsWords Expression.words assignments ++ word :: rest)
      (bindAll assignments scope) (word :: rest) := by
  induction assignments generalizing scope budget with
  | nil =>
      have hval : word.text ≠ "val" :=
        hopening.text_ne (by decide) (by decide) (by decide) (by decide)
      cases budget with
      | zero => exact meets_pure scope _
      | succ budget =>
          unfold bindingsWithin
          apply (meets_sees "val" _).then
          simpa [assignmentsWords, hval, bindAll] using
            meets_pure scope (word :: rest)
  | cons assignment assignments ih =>
      obtain ⟨budget, rfl⟩ : ∃ fewer, budget = fewer + 1 :=
        ⟨budget - 1, by simp at hbudget; omega⟩
      -- What stands behind the assignment and its semicolon.
      obtain ⟨next, more, hnext, hsemicolon, harithmetic, hdot⟩ :
          ∃ next more,
            assignmentsWords Expression.words assignments ++ word :: rest =
              next :: more ∧ next.text ≠ ";" ∧ next.arithmetic? = none ∧
              next.text ≠ "." := by
        cases assignments with
        | nil =>
            exact ⟨word, rest, rfl,
              hopening.text_ne (by decide) (by decide) (by decide) (by decide),
              hopening.arithmetic?_eq_none,
              hopening.text_ne (by decide) (by decide) (by decide) (by decide)⟩
        | cons second assignments =>
            exact ⟨.keyword "val", _, rfl, by decide, by rfl, by decide⟩
      have hrest : ∀ scope, Meets (bindingsWithin budget scope) (next :: more)
          (bindAll assignments scope) (word :: rest) := by
        intro scope
        rw [← hnext]
        exact ih scope (by simpa using hbudget)
      have hwords :
          assignmentsWords Expression.words (assignment :: assignments) ++
              word :: rest =
            .keyword "val" :: assignment.name.word :: .mark "=" ::
              (assignment.value.words ++
                ((if assignment.semicolon then [.mark ";"] else []) ++
                  next :: more)) := by
        simp only [assignmentsWords, List.flatMap_cons, Assignment.words,
          List.cons_append, List.append_assoc, ← hnext]
      rw [hwords]
      unfold bindingsWithin
      apply (meets_sees "val" _).then
      apply Meets.bind
      · apply meets_binding scope assignment
        cases assignment.semicolon with
        | true =>
            exact assignment.value.endsBefore_cons _ _ (by rfl) (by decide)
        | false =>
            exact assignment.value.endsBefore_cons _ _ harithmetic hdot
      intro scope _
      apply (meets_sees ";" _).then
      cases assignment.semicolon with
      | true => exact (meets_advance _).then (hrest scope)
      | false => simpa [hsemicolon] using hrest scope

/-- The draft with the further elements of a tuple. -/
def extend (scope : Scope) : List Expression → Draft → Draft
  | [], draft => draft
  | element :: more, draft =>
      extend scope more (draft.finish.write (element.text scope false))

theorem finish_extend
    (scope : Scope) (more : List Expression) {draft : Draft}
    (hflag : draft.afterOperator = false) :
    (extend scope more draft).finish =
      ⟨⟨"", draft.projection.columns ++ draft.projection.current ::
        more.map (Expression.text scope false)⟩, false⟩ := by
  induction more generalizing draft with
  | nil => simp [extend, Draft.finish, Projection.finish, hflag]
  | cons element more ih =>
      rw [extend, ih rfl]
      simp [Draft.finish, Draft.write, Projection.finish, Projection.push]

theorem arity_extend
    (scope : Scope) (more : List Expression) (draft : Draft) :
    (extend scope more draft).projection.arity =
      draft.projection.arity + more.length := by
  induction more generalizing draft with
  | nil => rfl
  | cons element more ih =>
      rw [extend, ih]
      simp [Draft.finish, Draft.write, Projection.finish, Projection.push,
        Projection.arity]
      omega

theorem meets_elementsWithin
    (scope : Scope) (more : List Expression) {draft : Draft}
    (hflag : draft.afterOperator = false) {budget : Nat}
    (hbudget : more.length ≤ budget) (rest : List Word) :
    Meets (elementsWithin scope budget draft)
      (moreWords Expression.words more ++ .mark ")" :: rest)
      (checkElements scope more >>= fun _ => .ok (extend scope more draft))
      (.mark ")" :: rest) := by
  induction more generalizing draft budget with
  | nil =>
      cases budget with
      | zero => exact meets_pure draft _
      | succ budget =>
          unfold elementsWithin
          apply (meets_sees "," _).then
          exact meets_pure draft _
  | cons element more ih =>
      obtain ⟨budget, rfl⟩ : ∃ fewer, budget = fewer + 1 :=
        ⟨budget - 1, by simp at hbudget; omega⟩
      have hends : element.EndsBefore
          (moreWords Expression.words more ++ .mark ")" :: rest) := by
        cases more with
        | nil => exact element.endsBefore_cons _ _ (by rfl) (by decide)
        | cons second more =>
            exact element.endsBefore_cons _ _ (by rfl) (by decide)
      have hwords :
          moreWords Expression.words (element :: more) ++ .mark ")" :: rest =
            .mark "," :: (element.words ++
              (moreWords Expression.words more ++ .mark ")" :: rest)) := by
        simp [moreWords]
      have hcheck : checkElements scope (element :: more) =
          element.check scope >>= fun _ => checkElements scope more :=
        rfl
      rw [hwords, hcheck, bind_assoc]
      unfold elementsWithin
      apply (meets_sees "," _).then
      apply (meets_advance _).then
      have helement :=
        meets_expression (Sink.direct scope) element draft.finish hends
      rw [Expression.feed_direct] at helement
      have hdraft : draft.finish.afterOperator = false := hflag
      rw [hdraft] at helement
      exact helement.checked (ih rfl (by simpa using hbudget))

/-- What a result does behind its closing parenthesis. -/
def closed (scope : Scope) (draft : Draft) : Parser Draft := do
  let joined := (← currentArithmetic).isSome
  if draft.projection.arity = 0 && joined then
    let draft ← chainTail (Sink.direct scope) draft.parenthesize
    return draft.finish
  else return draft.finish

theorem meets_parenthesized
    (scope : Scope) (first : Expression) (more : List Expression)
    {rest last : List Word} {outcome : Except ScopeError Draft}
    (hclosed : Meets
      (closed scope
        (extend scope more (Draft.empty.write (first.text scope false))))
      rest outcome last) :
    Meets (result scope)
      (.mark "(" :: (first.words ++
        (moreWords Expression.words more ++ .mark ")" :: rest)))
      (checkElements scope (first :: more) >>= fun _ => outcome) last := by
  have hends : first.EndsBefore
      (moreWords Expression.words more ++ .mark ")" :: rest) := by
    cases more with
    | nil => exact first.endsBefore_cons _ _ (by rfl) (by decide)
    | cons second more => exact first.endsBefore_cons _ _ (by rfl) (by decide)
  have hfirst := meets_expression (Sink.direct scope) first .empty hends
  rw [Expression.feed_direct] at hfirst
  have hcheck : checkElements scope (first :: more) =
      first.check scope >>= fun _ => checkElements scope more :=
    rfl
  rw [hcheck, bind_assoc]
  unfold result
  apply (meets_sees "(" _).then
  apply (meets_advance _).then
  apply hfirst.checked
  apply meets_remaining
  intro budget hbudget
  have hmore : more.length ≤ budget := by
    have hlength : more.length ≤ (moreWords Expression.words more).length :=
      length_le_flatMap _ (by simp) more
    rw [List.length_append] at hbudget
    omega
  apply (meets_elementsWithin scope more rfl hmore rest).checked
  exact (meets_expect _ _ _).then hclosed

theorem meets_result_tuple
    (scope : Scope) (first : Expression) (more : List Expression)
    {rest : List Word} (hends : more = [] → startsArithmetic rest = false) :
    Meets (result scope)
      (.mark "(" :: (first.words ++
        (moreWords Expression.words more ++ .mark ")" :: rest)))
      (checkElements scope (first :: more) >>= fun _ =>
        .ok ⟨⟨"", (first :: more).map (Expression.text scope false)⟩, false⟩)
      rest := by
  apply meets_parenthesized
  unfold closed
  apply (meets_currentArithmetic _).then
  rw [if_neg, finish_extend scope more rfl]
  · exact meets_pure _ rest
  · rw [arity_extend]
    cases more with
    | nil =>
        have hnone : rest.head?.bind Word.arithmetic? = none := by
          simpa [startsArithmetic] using hends rfl
        simp [hnone]
    | cons second more => simp

/-- A group with an operator behind it is the first primary of a chain. -/
theorem meets_result_chain
    (scope : Scope) (inner : Expression) (op : Arithmetic)
    (chain : Expression) {rest : List Word} (hends : chain.EndsBefore rest) :
    Meets (result scope)
      (.mark "(" :: (inner.words ++
        .mark ")" :: op.word :: (chain.words ++ rest)))
      (checkElements scope [.groupThen inner op chain] >>= fun _ =>
        .ok ⟨⟨"", [(Expression.groupThen inner op chain).text scope false]⟩,
          false⟩)
      rest := by
  have hchain := meets_chainTail (Sink.direct scope) chain op
    (Draft.empty.write (inner.text scope false)).parenthesize hends
  rw [Expression.feed_direct] at hchain
  have hcheck : checkElements scope [.groupThen inner op chain] =
      checkElements scope [inner] >>= fun _ => chain.check scope := by
    simp [checkElements, Expression.check_groupThen]
  rw [hcheck, bind_assoc]
  apply meets_parenthesized scope inner []
  unfold closed
  apply (meets_currentArithmetic _).then
  rw [if_pos (by simp [extend, Draft.empty, Draft.write, Projection.empty,
    Projection.push, Projection.arity])]
  have hdraft : (((Sink.direct scope).entry (.operator (.arithmetic op))
      (Draft.empty.write (inner.text scope false)).parenthesize).write
        (chain.text scope true)).finish =
      ⟨⟨"", [(Expression.groupThen inner op chain).text scope false]⟩,
        false⟩ := by
    simp [Sink.direct, Draft.empty, Draft.write, Draft.parenthesize,
      Draft.finish, Projection.empty, Projection.push,
      Projection.parenthesize, Projection.finish, Entry.verbatim,
      Operator.symbol, Expression.text, String.append_assoc]
  rw [← hdraft]
  exact hchain.checked (meets_pure _ rest)

theorem meets_result_expression
    (scope : Scope) (only : Expression) {rest : List Word}
    (hends : only.EndsBefore rest)
    (hparen : (only.words ++ rest).head?.any (·.text == "(") = false) :
    Meets (result scope) (only.words ++ rest)
      (checkElements scope [only] >>= fun _ =>
        .ok ⟨⟨"", [only.text scope false]⟩, false⟩) rest := by
  have honly := meets_expression (Sink.direct scope) only .empty hends
  rw [Expression.feed_direct] at honly
  have hcheck : checkElements scope [only] = only.check scope := by
    simp [checkElements]
  rw [hcheck]
  unfold result
  apply (meets_sees "(" _).then
  rw [hparen]
  have hdraft : (Draft.empty.write (only.text scope false)).finish =
      ⟨⟨"", [only.text scope false]⟩, false⟩ := by
    simp [Draft.empty, Draft.write, Draft.finish, Projection.empty,
      Projection.push, Projection.finish]
  rw [← hdraft]
  exact honly.checked (meets_pure _ rest)

theorem meets_result
    (scope : Scope) (tuple : Result Expression) {rest : List Word}
    (hends : tuple.EndsBefore rest) :
    Meets (result scope) (tuple.words Expression.words ++ rest)
      (checkElements scope tuple.elements >>= fun _ =>
        .ok ⟨⟨"", tuple.columns scope⟩, false⟩) rest := by
  cases tuple with
  | tuple first more =>
      have hmore : more = [] → startsArithmetic rest = false := by
        rintro rfl
        exact hends
      have hwords : (Result.tuple first more).words Expression.words ++ rest =
          .mark "(" :: (first.words ++
            (moreWords Expression.words more ++ .mark ")" :: rest)) := by
        simp [Result.words]
      rw [hwords]
      exact meets_result_tuple scope first more hmore
  | single only =>
      cases only with
      | operand atom =>
          exact meets_result_expression scope _ hends (atom.any_head_paren rest)
      | operandThen atom op chain =>
          apply meets_result_expression scope _ hends
          rw [Expression.words, List.append_assoc]
          exact atom.any_head_paren _
      | group inner =>
          have hwords :
              (Result.single (.group inner)).words Expression.words ++ rest =
                .mark "(" :: (inner.words ++
                  (moreWords Expression.words [] ++ .mark ")" :: rest)) := by
            simp [Result.words, Expression.words, moreWords]
          rw [hwords]
          exact meets_result_tuple scope inner [] (fun _ => hends.arithmetic)
      | groupThen inner op chain =>
          have hwords : (Result.single (.groupThen inner op chain)).words
                Expression.words ++ rest =
              .mark "(" :: (inner.words ++
                .mark ")" :: op.word :: (chain.words ++ rest)) := by
            simp [Result.words, Expression.words]
          rw [hwords]
          exact meets_result_chain scope inner op chain
            ⟨hends.arithmetic, hends.dot⟩
      | conditional cmp left right yes no =>
          exact meets_result_expression scope _ hends rfl

theorem meets_bodyParts
    (scope : Scope) (source : Body Expression) {rest : List Word}
    (hends : source.EndsBefore rest) :
    Meets (bodyParts scope) (source.words Expression.words ++ rest)
      (bindAll source.assignments scope >>= fun scope =>
        checkElements scope source.elements >>= fun _ =>
          .ok (scope, ⟨⟨"", source.result.columns scope⟩, false⟩))
      rest := by
  unfold bodyParts
  cases source with
  | block assignments tuple =>
      obtain ⟨word, more, hhead, hopening⟩ := tuple.exists_opening
      have hresult : ∀ scope : Scope, Meets (result scope)
          (word :: (more ++ .mark "\x7d" :: rest))
          (checkElements scope tuple.elements >>= fun _ =>
            .ok ⟨⟨"", tuple.columns scope⟩, false⟩)
          (.mark "\x7d" :: rest) := by
        intro scope
        rw [← List.cons_append, ← hhead]
        exact meets_result scope tuple
          (tuple.endsBefore_cons _ _ (by rfl) (by decide))
      have hwords :
          (Body.block assignments tuple).words Expression.words ++ rest =
            .mark "\x7b" :: (assignmentsWords Expression.words assignments ++
              word :: (more ++ .mark "\x7d" :: rest)) := by
        simp [Body.words, hhead]
      rw [hwords]
      apply (meets_sees "\x7b" _).then
      apply (meets_advance _).then
      apply meets_remaining
      intro budget hbudget
      have hassignments : assignments.length ≤ budget := by
        have hlength : assignments.length ≤
            (assignmentsWords Expression.words assignments).length :=
          length_le_flatMap _ (by simp [Assignment.words]) assignments
        rw [List.tail_cons, List.length_append] at hbudget
        omega
      apply (meets_bindingsWithin assignments scope hassignments hopening).bind
      intro scope _
      apply (hresult scope).checked
      apply (meets_expect _ _ _).then
      exact meets_pure _ rest
  | plain tuple =>
      obtain ⟨word, more, hhead, hopening⟩ := tuple.exists_opening
      have hbrace : word.text ≠ "\x7b" :=
        hopening.text_ne (by decide) (by decide) (by decide) (by decide)
      have hresult := meets_result scope tuple hends
      rw [hhead, List.cons_append] at hresult
      rw [Body.words, hhead, List.cons_append]
      apply (meets_sees "\x7b" _).then
      simp only [List.head?_cons, Option.any_some, beq_iff_eq, hbrace,
        if_false]
      exact hresult.checked (meets_pure _ rest)

/-- The run behind a body ends as the body does by itself. -/
theorem meets_body
    (parameter : String) (source : Body Expression) {rest : List Word}
    (hends : source.EndsBefore rest) :
    Meets (body parameter) (source.words Expression.words ++ rest)
      (source.outcome parameter) rest := by
  have houtcome : source.outcome parameter =
      (bindAll source.assignments (.ofParameter parameter) >>= fun scope =>
        checkElements scope source.elements >>= fun _ =>
          .ok (scope, ⟨⟨"", source.result.columns scope⟩, false⟩)) >>=
        fun (parts : Scope × Draft) =>
          .ok ⟨parts.1, parts.2.projection.columns⟩ := by
    simp only [Body.outcome, bind_assoc, ok_bind]
  rw [houtcome]
  unfold body
  apply (meets_bodyParts (.ofParameter parameter) source hends).bind
  intro parts _
  apply (meets_log _ rest).then
  exact meets_pure _ rest

/-! ## From runs to derivations -/

section Success

variable {cursor after : Cursor} {words : List Word}

theorem binding_eq_ok
    {scope extended : Scope} (hreads : cursor.Reads words)
    (hlexical : ∀ word ∈ words, word.Lexical)
    (h : binding scope cursor = .ok extended after) :
    ∃ (name : Name) (value : Expression) (rest : List Word),
      words = .keyword "val" :: name.word :: .mark "=" ::
        (value.words ++ rest) ∧ after.Reads rest := by
  unfold binding at h
  obtain ⟨_, atName, hval, h⟩ := bind_eq_ok h
  obtain ⟨rest, rfl, hatName, hlexical⟩ :=
    expect_eq_ok .reserved hreads hlexical (by decide) hval
  obtain ⟨token, atEqual, hname, h⟩ := bind_eq_ok h
  obtain ⟨rest, rfl, hvalid, hatEqual, hlexical⟩ :=
    expectKind_eq_ok hatName hlexical hname
  obtain ⟨_, atValue, hequal, h⟩ := bind_eq_ok h
  obtain ⟨rest, rfl, hatValue, hlexical⟩ :=
    expect_eq_ok .symbol hatEqual hlexical (by decide) hequal
  obtain ⟨stack, atEnd, hvalue, h⟩ := bind_eq_ok h
  obtain ⟨value, rest, rfl, hatEnd, -⟩ :=
    expression_eq_ok hatValue hlexical hvalue
  obtain ⟨fragment, unwound, hunwind, h⟩ := bind_eq_ok h
  obtain ⟨-, hunwound⟩ := (meets_ofScope _ rest).of_ok hatEnd hunwind
  obtain ⟨_, logged, hlog, h⟩ := bind_eq_ok h
  obtain ⟨-, hlogged⟩ := (meets_log _ rest).of_ok hunwound hlog
  obtain ⟨-, hafter⟩ := (meets_ofScope _ rest).of_ok hlogged h
  refine ⟨⟨token.text, hvalid⟩, value, rest, ?_, hafter⟩
  simp [Name.word, Word.keyword, Word.mark]

theorem bindingsWithin_eq_ok
    {budget : Nat} {scope extended : Scope} (hreads : cursor.Reads words)
    (hlexical : ∀ word ∈ words, word.Lexical)
    (h : bindingsWithin budget scope cursor = .ok extended after) :
    ∃ assignments rest,
      words = assignmentsWords Expression.words assignments ++ rest ∧
        after.Reads rest := by
  induction budget generalizing scope cursor words with
  | zero =>
      obtain ⟨-, hafter⟩ := (meets_pure scope words).of_ok hreads h
      exact ⟨[], words, rfl, hafter⟩
  | succ budget ih =>
      unfold bindingsWithin at h
      obtain ⟨_, here, hval, h⟩ := bind_eq_ok h
      obtain ⟨hseen, hhere⟩ := (meets_sees "val" words).of_ok hreads hval
      cases hseen
      split at h
      next =>
        obtain ⟨scope, behind, hbinding, h⟩ := bind_eq_ok h
        obtain ⟨name, value, rest, rfl, hbehind⟩ :=
          binding_eq_ok hhere hlexical hbinding
        replace hlexical : ∀ word ∈ rest, word.Lexical := fun word hword =>
          hlexical word (by simp [hword])
        obtain ⟨_, here', hsemicolon, hrest⟩ := bind_eq_ok h
        obtain ⟨hseen, hhere'⟩ :=
          (meets_sees ";" rest).of_ok hbehind hsemicolon
        cases hseen
        split at hrest
        next hhead =>
          obtain ⟨_, next, hadvance, hrest⟩ := bind_eq_ok hrest
          obtain ⟨rest, rfl, hmore⟩ :=
            exists_of_sees .symbol hlexical (by decide) hhead
          obtain ⟨-, hnext⟩ := (meets_advance _).of_ok hhere' hadvance
          obtain ⟨assignments, rest, hwords, hafter⟩ := ih hnext hmore hrest
          refine ⟨⟨name, value, true⟩ :: assignments, rest, ?_, hafter⟩
          rw [List.tail_cons] at hwords
          simp [assignmentsWords, Assignment.words, Word.mark, hwords]
        next =>
          obtain ⟨assignments, rest, rfl, hafter⟩ := ih hhere' hlexical hrest
          refine ⟨⟨name, value, false⟩ :: assignments, rest, ?_, hafter⟩
          simp [assignmentsWords, Assignment.words]
      next =>
        obtain ⟨-, hafter⟩ := (meets_pure scope words).of_ok hhere h
        exact ⟨[], words, rfl, hafter⟩

theorem expression_direct_eq_ok
    {scope : Scope} {draft written : Draft} (hreads : cursor.Reads words)
    (hlexical : ∀ word ∈ words, word.Lexical)
    (h : expression (Sink.direct scope) draft cursor = .ok written after) :
    ∃ derived rest, words = Expression.words derived ++ rest ∧
      after.Reads rest ∧ derived.EndsBefore rest ∧
        written = draft.write (derived.text scope draft.afterOperator) := by
  obtain ⟨derived, rest, rfl, hafter, hends⟩ :=
    expression_eq_ok hreads hlexical h
  refine ⟨derived, rest, rfl, hafter, hends, ?_⟩
  obtain ⟨hfeed, -⟩ :=
    (meets_expression (Sink.direct scope) derived draft hends).of_ok hreads h
  rw [Expression.feed_direct] at hfeed
  cases hcheck : derived.check scope with
  | error error =>
      rw [hcheck] at hfeed
      cases hfeed
  | ok _ =>
      rw [hcheck] at hfeed
      cases hfeed
      rfl

theorem elementsWithin_eq_ok
    {scope : Scope} {budget : Nat} {draft written : Draft}
    (hreads : cursor.Reads words) (hlexical : ∀ word ∈ words, word.Lexical)
    (h : elementsWithin scope budget draft cursor = .ok written after) :
    ∃ more rest, words = moreWords Expression.words more ++ rest ∧
      after.Reads rest ∧
        written.projection.arity = draft.projection.arity + more.length := by
  induction budget generalizing draft cursor words with
  | zero =>
      cases h
      exact ⟨[], words, rfl, hreads, rfl⟩
  | succ budget ih =>
      unfold elementsWithin at h
      obtain ⟨_, here, hcomma, h⟩ := bind_eq_ok h
      obtain ⟨hseen, hhere⟩ := (meets_sees "," words).of_ok hreads hcomma
      cases hseen
      split at h
      next hhead =>
        obtain ⟨rest, rfl, hrest⟩ :=
          exists_of_sees .symbol hlexical (by decide) hhead
        obtain ⟨_, next, hadvance, h⟩ := bind_eq_ok h
        obtain ⟨-, hnext⟩ := (meets_advance _).of_ok hhere hadvance
        obtain ⟨drafted, behind, helement, h⟩ := bind_eq_ok h
        obtain ⟨element, rest, hwords, hbehind, -, rfl⟩ :=
          expression_direct_eq_ok hnext hrest helement
        rw [List.tail_cons] at hwords
        subst hwords
        obtain ⟨more, rest, rfl, hafter, harity⟩ := ih hbehind
          (fun word hword => hrest word (List.mem_append_right _ hword)) h
        refine ⟨element :: more, rest, ?_, hafter, ?_⟩
        · simp [moreWords, Word.mark]
        · rw [harity, List.length_cons]
          simp [Draft.write, Draft.finish, Projection.push,
            Projection.finish, Projection.arity]
          omega
      next =>
        cases h
        exact ⟨[], words, rfl, hhere, rfl⟩

theorem closed_eq_ok
    {scope : Scope} {draft written : Draft} (first : Expression)
    {more : List Expression} {rest : List Word} (hreads : cursor.Reads rest)
    (hlexical : ∀ word ∈ rest, word.Lexical)
    (harity : draft.projection.arity = more.length)
    (h : closed scope draft cursor = .ok written after) :
    ∃ tuple rest',
      (Result.tuple first more).words Expression.words ++ rest =
        Result.words Expression.words tuple ++ rest' ∧
      after.Reads rest' ∧ tuple.EndsBefore rest' := by
  unfold closed at h
  obtain ⟨_, here, hop, h⟩ := bind_eq_ok h
  obtain ⟨hseen, hhere⟩ := (meets_currentArithmetic rest).of_ok hreads hop
  cases hseen
  dsimp only at h
  rw [harity] at h
  split at h
  next hjoined =>
    obtain rfl : more = [] := by
      simp at hjoined
      exact hjoined.1
    obtain ⟨_, behind, hchain, h⟩ := bind_eq_ok h
    obtain ⟨whole, rest', hwords, hbehind, hends⟩ :=
      chainTail_eq_ok hhere hlexical first hchain
    cases h
    refine ⟨.single whole, rest', ?_, hbehind, hends⟩
    simpa [Result.words, Expression.words, moreWords] using hwords
  next hjoined =>
    cases h
    refine ⟨.tuple first more, rest, rfl, hhere, ?_⟩
    cases more with
    | nil => simpa [Result.EndsBefore, startsArithmetic] using hjoined
    | cons second more => trivial

theorem result_eq_ok
    {scope : Scope} {written : Draft} (hreads : cursor.Reads words)
    (hlexical : ∀ word ∈ words, word.Lexical)
    (h : result scope cursor = .ok written after) :
    ∃ tuple rest, words = Result.words Expression.words tuple ++ rest ∧
      after.Reads rest ∧ tuple.EndsBefore rest := by
  unfold result at h
  obtain ⟨_, here, hparen, h⟩ := bind_eq_ok h
  obtain ⟨hseen, hhere⟩ := (meets_sees "(" words).of_ok hreads hparen
  cases hseen
  split at h
  next hhead =>
    obtain ⟨rest, rfl, hrest⟩ :=
      exists_of_sees .symbol hlexical (by decide) hhead
    obtain ⟨_, inside, hadvance, h⟩ := bind_eq_ok h
    obtain ⟨-, hinside⟩ := (meets_advance _).of_ok hhere hadvance
    obtain ⟨_, behind, hfirst, h⟩ := bind_eq_ok h
    obtain ⟨first, rest, hwords, hbehind, -, rfl⟩ :=
      expression_direct_eq_ok hinside hrest hfirst
    rw [List.tail_cons] at hwords
    subst hwords
    replace hrest := fun word hword =>
      hrest word (List.mem_append_right _ hword)
    obtain ⟨budget, same, hremaining, helements⟩ := bind_eq_ok h
    obtain ⟨-, rfl⟩ := remaining_eq_ok hbehind hremaining
    obtain ⟨draft, atClose, hmore, h⟩ := bind_eq_ok helements
    obtain ⟨more, rest, rfl, hatClose, harity⟩ :=
      elementsWithin_eq_ok hbehind hrest hmore
    replace hrest := fun word hword =>
      hrest word (List.mem_append_right _ hword)
    obtain ⟨_, outside, hclose, hclosed⟩ := bind_eq_ok h
    obtain ⟨rest, rfl, houtside, hlast⟩ :=
      expect_eq_ok .symbol hatClose hrest (by decide) hclose
    obtain ⟨tuple, rest', hwords, hafter, hends⟩ :=
      closed_eq_ok first houtside hlast (harity.trans (Nat.zero_add _)) hclosed
    refine ⟨tuple, rest', ?_, hafter, hends⟩
    rw [← hwords]
    simp [Result.words, Word.mark]
  next =>
    obtain ⟨_, behind, honly, h⟩ := bind_eq_ok h
    obtain ⟨only, rest, rfl, hbehind, hends⟩ :=
      expression_eq_ok hhere hlexical honly
    cases h
    exact ⟨.single only, rest, rfl, hbehind, hends⟩

theorem bodyParts_eq_ok
    {scope : Scope} {parts : Scope × Draft} (hreads : cursor.Reads words)
    (hlexical : ∀ word ∈ words, word.Lexical)
    (h : bodyParts scope cursor = .ok parts after) :
    ∃ source rest, words = Body.words Expression.words source ++ rest ∧
      after.Reads rest ∧ source.EndsBefore rest := by
  unfold bodyParts at h
  obtain ⟨_, here, hbrace, h⟩ := bind_eq_ok h
  obtain ⟨hseen, hhere⟩ := (meets_sees "\x7b" words).of_ok hreads hbrace
  cases hseen
  split at h
  next hhead =>
    obtain ⟨rest, rfl, hrest⟩ :=
      exists_of_sees .symbol hlexical (by decide) hhead
    obtain ⟨_, inside, hadvance, h⟩ := bind_eq_ok h
    obtain ⟨-, hinside⟩ := (meets_advance _).of_ok hhere hadvance
    obtain ⟨budget, same, hremaining, hbindings⟩ := bind_eq_ok h
    obtain ⟨-, rfl⟩ := remaining_eq_ok hinside hremaining
    obtain ⟨extended, atResult, hassignments, h⟩ := bind_eq_ok hbindings
    obtain ⟨assignments, rest, hwords, hatResult⟩ :=
      bindingsWithin_eq_ok hinside hrest hassignments
    rw [List.tail_cons] at hwords
    subst hwords
    replace hrest := fun word hword =>
      hrest word (List.mem_append_right _ hword)
    obtain ⟨draft, atClose, hresult, h⟩ := bind_eq_ok h
    obtain ⟨tuple, rest, rfl, hatClose, -⟩ :=
      result_eq_ok hatResult hrest hresult
    replace hrest := fun word hword =>
      hrest word (List.mem_append_right _ hword)
    obtain ⟨_, behind, hclose, h⟩ := bind_eq_ok h
    obtain ⟨rest, rfl, hbehind, -⟩ :=
      expect_eq_ok .symbol hatClose hrest (by decide) hclose
    cases h
    refine ⟨.block assignments tuple, rest, ?_, hbehind, trivial⟩
    simp [Body.words, Word.mark]
  next =>
    obtain ⟨draft, behind, hresult, h⟩ := bind_eq_ok h
    obtain ⟨tuple, rest, rfl, hbehind, hends⟩ :=
      result_eq_ok hhere hlexical hresult
    cases h
    exact ⟨.plain tuple, rest, rfl, hbehind, hends⟩

/-- Every body that was read has a derivation. -/
theorem body_eq_ok
    {parameter : String} {stage : Stage} (hreads : cursor.Reads words)
    (hlexical : ∀ word ∈ words, word.Lexical)
    (h : body parameter cursor = .ok stage after) :
    ∃ source rest, words = Body.words Expression.words source ++ rest ∧
      after.Reads rest ∧ source.EndsBefore rest := by
  unfold body at h
  obtain ⟨parts, behind, hparts, h⟩ := bind_eq_ok h
  obtain ⟨source, rest, hwords, hbehind, hends⟩ :=
    bodyParts_eq_ok hreads hlexical hparts
  obtain ⟨_, logged, hlog, h⟩ := bind_eq_ok h
  obtain ⟨-, hlogged⟩ := (meets_log _ rest).of_ok hbehind hlog
  cases h
  exact ⟨source, rest, hwords, hlogged, hends⟩

end Success

end Parser

end SelectChain

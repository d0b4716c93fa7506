import SelectChain.Proofs.LockstepRuns
import Mathlib.Tactic

/-!
# The grammar in lockstep

Every production stays in lockstep, for every pairing and whatever the budgets
are that cover the words in common.  `lockstep_pipeline` is the statement for the
whole grammar, and `Pairing.Follows.run` the one for runs from the start.
-/

namespace SelectChain

open SelectChain.Parser

namespace Pairing

variable {pairing : Pairing} {words : Nat}

/-! ## Expressions -/

section Expressions

variable {σ : Type} (sink : Sink σ)

theorem SameToken.lockstep_fieldAccess
    {qualifier qualifier' field field' : Token}
    (hqualifier : pairing.SameToken qualifier qualifier')
    (hfield : pairing.SameToken field field') (acc : σ) :
    pairing.Lockstep words words Eq (fieldAccess sink qualifier field acc)
      (fieldAccess sink qualifier' field' acc) := by
  have htext : qualifier.text = qualifier'.text :=
    congrArg Word.text hqualifier.word
  have hkind : qualifier.kind = qualifier'.kind :=
    congrArg Word.kind hqualifier.word
  have hfieldText : field.text = field'.text := congrArg Word.text hfield.word
  have hfieldKind : field.kind = field'.kind := congrArg Word.kind hfield.word
  unfold fieldAccess
  rw [htext, hkind, hfieldText, hfieldKind]
  split
  · exact lockstep_ofScope _
  · split
    · exact lockstep_ofScope _
    · exact lockstep_ofScope _
    · exact hfield.lockstep_refuse Eq .fieldName

theorem lockstep_operand (acc : σ) :
    pairing.Lockstep words (words - 1) Eq (operand sink acc)
      (operand sink acc) := by
  unfold operand
  apply (lockstep_take .expression).then_token
  intro token token' htoken
  have htext : token.text = token'.text := congrArg Word.text htoken.word
  have hkind : token.kind = token'.kind := congrArg Word.kind htoken.word
  apply (lockstep_sees ".").then
  intro dot
  cases dot with
  | true =>
      apply lockstep_advance.relaxed.then
      intro _
      apply (lockstep_take .fieldName).relaxed.then_token
      intro field field' hfield
      exact htoken.lockstep_fieldAccess sink hfield acc
  | false =>
      simp only [Bool.false_eq_true, if_false]
      rw [htext, hkind]
      split
      · exact lockstep_pure rfl
      · exact lockstep_currentArithmetic.then fun op => lockstep_ofScope _

section Inner

variable {inner inner' : σ → Parser σ}
  (hinner : ∀ acc,
    pairing.Lockstep (words - 1) (words - 1) Eq (inner acc) (inner' acc))

include hinner

theorem lockstep_group (acc : σ) :
    pairing.Lockstep words (words - 1) Eq (group sink inner acc)
      (group sink inner' acc) := by
  unfold group
  apply lockstep_advance.then
  intro _
  apply (hinner _).then
  intro acc
  apply (lockstep_expect ")").relaxed.then
  intro _
  exact lockstep_pure rfl

theorem lockstep_conditional (acc : σ) :
    pairing.Lockstep words (words - 1) Eq (conditional sink inner acc)
      (conditional sink inner' acc) := by
  have hexpect : ∀ text, pairing.Lockstep (words - 1) (words - 1) Eq
      (expect text) (expect text) := fun text =>
    (lockstep_expect text).relaxed
  unfold conditional
  apply (lockstep_expect "if").then
  intro _
  apply (hexpect "(").then
  intro _
  apply (hinner _).then
  intro acc
  apply lockstep_currentComparison.then
  intro found
  cases found with
  | none => exact lockstep_unexpected Eq .comparison
  | some op =>
      apply lockstep_advance.relaxed.then
      intro _
      apply (hinner _).then
      intro acc
      apply (hexpect ")").then
      intro _
      apply (hinner _).then
      intro acc
      apply (hexpect "else").then
      intro _
      apply (hinner _).then
      intro acc
      exact lockstep_pure rfl

theorem lockstep_primary (acc : σ) :
    pairing.Lockstep words (words - 1) Eq (primary sink inner acc)
      (primary sink inner' acc) := by
  unfold primary
  apply (lockstep_seesKind .identifier).then
  intro identifier
  apply (lockstep_seesKind .number).then
  intro number
  split
  · exact lockstep_operand sink acc
  · apply (lockstep_sees "(").then
    intro paren
    split
    · exact lockstep_group sink hinner acc
    · apply (lockstep_sees "if").then
      intro keyword
      split
      · exact lockstep_conditional sink hinner acc
      · exact lockstep_unexpected Eq .expression

end Inner

/-! At the end of the input nothing is seen, so an expression is missing there
whatever its budget is, and every loop ends. -/

section AtEnd

variable {cursor : Cursor} (h : cursor.current = none)

include h

theorem sees_of_current_eq_none (text : String) :
    sees text cursor = .ok false cursor := by
  change EStateM.Result.ok (cursor.current.any (·.text == text)) cursor = _
  rw [h]
  rfl

theorem currentArithmetic_of_current_eq_none :
    currentArithmetic cursor = .ok none cursor := by
  rw [currentArithmetic_apply, h]
  rfl

theorem primary_of_current_eq_none (inner : σ → Parser σ) (acc : σ) :
    primary sink inner acc cursor = unexpected .expression cursor := by
  have hkind : ∀ kind, seesKind kind cursor = .ok false cursor := by
    intro kind
    rw [seesKind_apply, h]
    rfl
  unfold primary
  rw [bind_ok (hkind _), bind_ok (hkind _)]
  simp only [Bool.or_self, Bool.false_eq_true, if_false]
  rw [bind_ok (sees_of_current_eq_none h _)]
  simp only [Bool.false_eq_true, if_false]
  rw [bind_ok (sees_of_current_eq_none h _)]
  rfl

theorem unexpected_of_current_eq_none {α : Type} (expected : Expectation) :
    (unexpected expected : Parser α) cursor =
      .error (.grammar ⟨expected, none, cursor.line⟩) cursor := by
  unfold unexpected
  rw [bind_ok (get_apply cursor), h]
  rfl

end AtEnd

theorem spentAtEnd_operatorTail (next : σ → Parser σ) :
    SpentAtEnd (operatorTail sink next) := by
  intro links acc cursor hend
  cases links with
  | zero => rfl
  | succ links =>
      unfold operatorTail
      rw [bind_ok (currentArithmetic_of_current_eq_none hend)]

theorem spentAtEnd_expressionWithin : SpentAtEnd (expressionWithin sink) := by
  intro budget acc cursor hend
  cases budget with
  | zero => rfl
  | succ budget =>
      unfold expressionWithin
      rw [unexpected_of_current_eq_none hend, bind_error]
      rw [primary_of_current_eq_none sink hend,
        unexpected_of_current_eq_none hend]

theorem lockstep_operatorTail
    {next next' : σ → Parser σ} {bound : Nat}
    (hnext : ∀ words acc, words ≤ bound →
      pairing.Lockstep words (words - 1) Eq (next acc) (next' acc))
    {links links' : Nat} (acc : σ) (hbound : words ≤ bound)
    (hlinks : words ≤ links) (hlinks' : words ≤ links') :
    pairing.Lockstep words words Eq (operatorTail sink next links acc)
      (operatorTail sink next' links' acc) := by
  apply lockstep_within id (spentAtEnd_operatorTail sink next)
    (spentAtEnd_operatorTail sink next') _ _ acc hbound hlinks hlinks'
  · intro acc
    exact lockstep_pure rfl
  · intro links' ih words links acc hwords hle hle'
    unfold operatorTail
    apply lockstep_currentArithmetic.then
    intro found
    cases found with
    | none => exact lockstep_pure rfl
    | some op =>
        -- The operator and the operand behind it are one word each at least.
        apply lockstep_advance.then
        intro _
        apply (hnext (words - 1) _ (by omega)).then
        intro acc
        apply (ih (words - 1 - 1) links acc (by omega) (by omega)
          (by omega)).mono (Nat.le_refl _)
        simp only [id_eq]
        omega

theorem lockstep_expressionWithin
    {budget budget' : Nat} (acc : σ) (hbudget : words ≤ budget)
    (hbudget' : words ≤ budget') :
    pairing.Lockstep words (words - 1) Eq (expressionWithin sink budget acc)
      (expressionWithin sink budget' acc) := by
  have hend := spentAtEnd_expressionWithin sink
  apply lockstep_within (· - 1) hend hend _ _ acc (Nat.le_refl words)
    hbudget hbudget'
  · intro acc
    exact lockstep_unexpected Eq .expression
  · intro budget' ih words budget acc hwords hle hle'
    have hprimary : ∀ fewer acc, fewer ≤ words →
        pairing.Lockstep fewer (fewer - 1) Eq
          (primary sink (expressionWithin sink budget) acc)
          (primary sink (expressionWithin sink budget') acc) := by
      intro fewer acc hfewer
      apply lockstep_primary
      intro acc
      exact (ih (fewer - 1) budget acc (by omega) (by omega) (by omega)).relaxed
    unfold expressionWithin
    apply (hprimary words acc (Nat.le_refl _)).then
    intro acc
    exact lockstep_operatorTail sink hprimary acc (Nat.sub_le _ 1) (by omega)
      (by omega)

theorem lockstep_expression (acc : σ) :
    pairing.Lockstep words (words - 1) Eq (expression sink acc)
      (expression sink acc) := by
  unfold expression
  apply lockstep_remaining
  intro fewer budget budget' hfewer hbudget hbudget'
  exact (lockstep_expressionWithin sink acc hbudget hbudget').mono
    (Nat.le_refl _) (Nat.sub_le_sub_right hfewer 1)

theorem lockstep_chainTail (acc : σ) :
    pairing.Lockstep words words Eq (chainTail sink acc)
      (chainTail sink acc) := by
  unfold chainTail
  apply lockstep_remaining
  intro fewer budget budget' hfewer hbudget hbudget'
  have hprimary : ∀ least acc, least ≤ fewer →
      pairing.Lockstep least (least - 1) Eq
        (primary sink (expressionWithin sink budget) acc)
        (primary sink (expressionWithin sink budget') acc) := by
    intro least acc hleast
    apply lockstep_primary
    intro acc
    exact (lockstep_expressionWithin sink acc (by omega) (by omega)).relaxed
  exact (lockstep_operatorTail sink hprimary acc (Nat.le_refl _) hbudget
    hbudget').mono (Nat.le_refl _) hfewer

end Expressions

/-! ## Bodies -/

theorem lockstep_binding (scope : Scope) :
    pairing.Lockstep words (words - 1) Eq (binding scope) (binding scope) := by
  unfold binding
  apply (lockstep_expect "val").then
  intro _
  apply (lockstep_expectKind .identifier .bindingName).relaxed.then_token
  intro name name' hname
  have htext : name.text = name'.text := congrArg Word.text hname.word
  rw [htext]
  apply (lockstep_expect "=").relaxed.then
  intro _
  apply (lockstep_expression Sink.collecting []).relaxed.then
  intro stack
  apply (lockstep_ofScope _).then
  intro fragment
  apply (lockstep_log _).then
  intro _
  exact lockstep_ofScope _

theorem spentAtEnd_bindingsWithin : SpentAtEnd bindingsWithin := by
  intro budget scope cursor hend
  cases budget with
  | zero => rfl
  | succ budget =>
      unfold bindingsWithin
      rw [bind_ok (sees_of_current_eq_none hend _)]
      rfl

theorem lockstep_bindingsWithin
    {budget budget' : Nat} (scope : Scope) (hbudget : words ≤ budget)
    (hbudget' : words ≤ budget') :
    pairing.Lockstep words words Eq (bindingsWithin budget scope)
      (bindingsWithin budget' scope) := by
  have hend := spentAtEnd_bindingsWithin
  apply lockstep_within id hend hend _ _ scope (Nat.le_refl words)
    hbudget hbudget'
  · intro scope
    exact lockstep_pure rfl
  · intro budget' ih words budget scope hwords hle hle'
    have hrest : ∀ scope, pairing.Lockstep (words - 1) words Eq
        (bindingsWithin budget scope) (bindingsWithin budget' scope) := by
      intro scope
      exact (ih (words - 1) budget scope (by omega) (by omega)
        (by omega)).mono (Nat.le_refl _) (Nat.sub_le _ 1)
    unfold bindingsWithin
    apply (lockstep_sees "val").then
    intro seen
    cases seen with
    | false => exact lockstep_pure rfl
    | true =>
        apply (lockstep_binding scope).then
        intro scope
        apply (lockstep_sees ";").then
        intro semicolon
        cases semicolon with
        | false => exact hrest scope
        | true =>
            apply lockstep_advance.relaxed.then
            intro _
            exact hrest scope

theorem spentAtEnd_elementsWithin (scope : Scope) :
    SpentAtEnd (elementsWithin scope) := by
  intro budget draft cursor hend
  cases budget with
  | zero => rfl
  | succ budget =>
      unfold elementsWithin
      rw [bind_ok (sees_of_current_eq_none hend _)]
      rfl

theorem lockstep_elementsWithin
    (scope : Scope) {budget budget' : Nat} (draft : Draft)
    (hbudget : words ≤ budget) (hbudget' : words ≤ budget') :
    pairing.Lockstep words words Eq (elementsWithin scope budget draft)
      (elementsWithin scope budget' draft) := by
  have hend := spentAtEnd_elementsWithin scope
  apply lockstep_within id hend hend _ _ draft (Nat.le_refl words)
    hbudget hbudget'
  · intro draft
    exact lockstep_pure rfl
  · intro budget' ih words budget draft hwords hle hle'
    unfold elementsWithin
    apply (lockstep_sees ",").then
    intro seen
    cases seen with
    | false => exact lockstep_pure rfl
    | true =>
        apply lockstep_advance.then
        intro _
        apply (lockstep_expression (Sink.direct scope) _).then
        intro draft
        apply (ih (words - 1 - 1) budget draft (by omega) (by omega)
          (by omega)).mono (Nat.le_refl _)
        simp only [id_eq]
        omega

theorem lockstep_result (scope : Scope) :
    pairing.Lockstep words (words - 1) Eq (result scope) (result scope) := by
  unfold result
  apply (lockstep_sees "(").then
  intro paren
  cases paren with
  | false =>
      apply (lockstep_expression (Sink.direct scope) _).then
      intro draft
      exact lockstep_pure rfl
  | true =>
      apply lockstep_advance.then
      intro _
      apply (lockstep_expression (Sink.direct scope) _).relaxed.then
      intro draft
      apply lockstep_remaining
      intro fewer budget budget' hfewer hbudget hbudget'
      apply ((lockstep_elementsWithin scope draft hbudget hbudget').mono
        (Nat.le_refl _) hfewer).then
      intro draft
      apply (lockstep_expect ")").relaxed.then
      intro _
      apply lockstep_currentArithmetic.then
      intro found
      dsimp only
      split
      · apply (lockstep_chainTail (Sink.direct scope) _).then
        intro draft
        exact lockstep_pure rfl
      · exact lockstep_pure rfl

theorem lockstep_bodyParts (scope : Scope) :
    pairing.Lockstep words (words - 1) Eq (bodyParts scope)
      (bodyParts scope) := by
  unfold bodyParts
  apply (lockstep_sees "\x7b").then
  intro brace
  cases brace with
  | false =>
      apply (lockstep_result scope).then
      intro draft
      exact lockstep_pure rfl
  | true =>
      apply lockstep_advance.then
      intro _
      apply lockstep_remaining
      intro fewer budget budget' hfewer hbudget hbudget'
      apply ((lockstep_bindingsWithin scope hbudget hbudget').mono
        (Nat.le_refl _) hfewer).then
      intro scope
      apply (lockstep_result scope).relaxed.then
      intro draft
      apply (lockstep_expect "\x7d").relaxed.then
      intro _
      exact lockstep_pure rfl

theorem lockstep_body (parameter : String) :
    pairing.Lockstep words (words - 1) Eq (body parameter)
      (body parameter) := by
  unfold body
  apply (lockstep_bodyParts _).then
  intro parts
  apply (lockstep_log _).then
  intro _
  exact lockstep_pure rfl

/-! ## Pipelines -/

theorem lockstep_transformation :
    pairing.Lockstep words (words - 1) Eq transformation transformation := by
  have hexpect : ∀ text, pairing.Lockstep (words - 1) (words - 1) Eq
      (expect text) (expect text) := fun text =>
    (lockstep_expect text).relaxed
  unfold transformation
  apply (lockstep_expect "map").then
  intro _
  apply (hexpect "(").then
  intro _
  apply (lockstep_expectKind .identifier .parameter).relaxed.then_token
  intro parameter parameter' hparameter
  have htext : parameter.text = parameter'.text :=
    congrArg Word.text hparameter.word
  rw [htext]
  apply (hexpect "=>").then
  intro _
  apply (lockstep_body _).relaxed.then
  intro stage
  apply (hexpect ")").then
  intro _
  exact lockstep_pure rfl

theorem spentAtEnd_stagesWithin : SpentAtEnd stagesWithin := by
  intro budget done cursor hend
  cases budget with
  | zero => rfl
  | succ budget =>
      unfold stagesWithin
      rw [unexpected_of_current_eq_none hend, bind_error]
      unfold expect
      rw [bind_ok (sees_of_current_eq_none hend _)]
      exact unexpected_of_current_eq_none hend _

theorem lockstep_stagesWithin
    {budget budget' : Nat} (done : List Stage) (hbudget : words ≤ budget)
    (hbudget' : words ≤ budget') :
    pairing.Lockstep words words Eq (stagesWithin budget done)
      (stagesWithin budget' done) := by
  have hend := spentAtEnd_stagesWithin
  apply lockstep_within id hend hend _ _ done (Nat.le_refl words)
    hbudget hbudget'
  · intro done
    exact lockstep_unexpected Eq (.word ".")
  · intro budget' ih words budget done hwords hle hle'
    unfold stagesWithin
    apply (lockstep_expect ".").then
    intro _
    apply (lockstep_sees "collect").then
    intro collect
    cases collect with
    | true => exact (lockstep_pure rfl).mono (Nat.le_refl _) (Nat.sub_le _ 1)
    | false =>
        apply lockstep_transformation.then
        intro stage
        apply (ih (words - 1 - 1) budget _ (by omega) (by omega)
          (by omega)).mono (Nat.le_refl _)
        simp only [id_eq]
        omega

theorem lockstep_end (chain : Chain) :
    pairing.Lockstep words words Eq
      (get >>= fun cursor : Cursor =>
        if cursor.current.isSome = true then unexpected .endOfInput
        else log (.lowered chain.stages.length) >>= fun _ => pure chain)
      (get >>= fun cursor : Cursor =>
        if cursor.current.isSome = true then unexpected .endOfInput
        else log (.lowered chain.stages.length) >>= fun _ => pure chain) := by
  have hbranch : ∀ more : Bool, pairing.Lockstep words words Eq
      (if more = true then unexpected .endOfInput
        else log (.lowered chain.stages.length) >>= fun _ => pure chain)
      (if more = true then unexpected .endOfInput
        else log (.lowered chain.stages.length) >>= fun _ => pure chain) := by
    intro more
    cases more with
    | true => exact lockstep_unexpected Eq .endOfInput
    | false =>
        apply (lockstep_log _).then
        intro _
        exact lockstep_pure rfl
  constructor
  · intro fewer left right hfewer hbeside
    rw [bind_ok (get_apply left), bind_ok (get_apply right)]
    have hsome : left.current.isSome = right.current.isSome := by
      have hword := congrArg Option.isSome hbeside.word_eq
      rwa [Option.isSome_map, Option.isSome_map] at hword
    rw [hsome]
    exact (hbranch _).matched hfewer hbeside
  · intro cursor hbeyond
    rw [bind_ok (get_apply cursor)]
    exact (hbranch _).keeps cursor hbeyond

theorem lockstep_pipeline :
    pairing.Lockstep words words Eq pipeline pipeline := by
  have hexpect : ∀ text, pairing.Lockstep words words Eq
      (expect text) (expect text) := fun text =>
    (lockstep_expect text).relaxed
  have hnumber : ∀ expected, pairing.Lockstep words words pairing.SameToken
      (expectKind .number expected) (expectKind .number expected) :=
    fun expected => (lockstep_expectKind .number expected).relaxed
  unfold pipeline
  apply (hexpect "sc").then
  intro _
  apply (hexpect ".").then
  intro _
  apply (hexpect "range").then
  intro _
  apply (hexpect "(").then
  intro _
  apply (hnumber .rangeStart).then_token
  intro start start' hstart
  have hstartText : start.text = start'.text := congrArg Word.text hstart.word
  apply (hexpect ",").then
  intro _
  apply (hnumber .rangeEnd).then_token
  intro stop stop' hstop
  have hstopText : stop.text = stop'.text := congrArg Word.text hstop.word
  apply (hexpect ")").then
  intro _
  apply lockstep_remaining
  intro fewer budget budget' hfewer hbudget hbudget'
  apply ((lockstep_stagesWithin [] hbudget hbudget').mono (Nat.le_refl _)
    hfewer).then
  intro stages
  apply (hexpect "collect").then
  intro _
  apply (hexpect "(").then
  intro _
  apply (hexpect ")").then
  intro _
  rw [hstartText, hstopText]
  exact lockstep_end ⟨start'.text, stop'.text, stages⟩

/-- Runs from the start over items with the same words. -/
theorem Follows.run
    {left right : List Item}
    (h : pairing.Follows words (grammarItems left) (grammarItems right)) :
    pairing.Matched Eq words
      ((Parser.advance >>= fun _ => pipeline) (.ofItems left))
      ((Parser.advance >>= fun _ => pipeline) (.ofItems right)) := by
  have hstart : pairing.Matched Eq words (Parser.advance (.ofItems left))
      (Parser.advance (.ofItems right)) :=
    Follows.advance h (pairing.sameLine_refl 1)
  have hpipeline : pairing.Lockstep words words Eq pipeline pipeline :=
    lockstep_pipeline
  exact hstart.bind (fun _ _ _ => hpipeline) fun _ => hpipeline.keeps

/-- The outcomes of two lowerings in lockstep. -/
theorem Follows.outcome
    {left right : List Item}
    (h : pairing.Follows words (grammarItems left) (grammarItems right)) :
    (∃ chain, (Lowering.run left).outcome = .ok chain ∧
        (Lowering.run right).outcome = .ok chain) ∨
      (∃ fault fault', pairing.SameFault fault fault' ∧
        (Lowering.run left).outcome = .error fault ∧
        (Lowering.run right).outcome = .error fault') ∨
      ∃ error, pairing.Stops error ∧
        (Lowering.run left).outcome = .error (.lexical error) := by
  have hmatched := h.run
  unfold Lowering.run
  generalize (Parser.advance >>= fun _ => pipeline) (.ofItems left) = result
    at hmatched
  generalize (Parser.advance >>= fun _ => pipeline) (.ofItems right) = result'
    at hmatched
  cases hmatched with
  | ok _ hvalue _ =>
      left
      exact ⟨_, rfl, by rw [hvalue]⟩
  | fault hfault =>
      right; left
      exact ⟨_, _, hfault, rfl, rfl⟩
  | stopped hstops _ =>
      right; right
      exact ⟨_, hstops, rfl⟩

end Pairing

end SelectChain

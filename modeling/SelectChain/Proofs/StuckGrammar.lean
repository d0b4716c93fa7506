import SelectChain.Proofs.Acceptance
import SelectChain.Proofs.StuckRuns
import Mathlib.Tactic

/-!
# Where the grammar gets stuck

Every production gets stuck only in front of a token that it cannot go on with,
behind words that it could have gone on from: each lemma shows this for the
prospect of all phrases of its production.  `sticks_pipeline` is the statement
for the whole grammar.  The words of phrases that were read before come from the
derivations of successful runs; phrases that were not reached are filled in by
the simplest ones.
-/

namespace SelectChain

open Grammar

namespace Grammar

instance : Inhabited Name :=
  ⟨⟨"x", by decide⟩⟩

instance : Inhabited Numeral :=
  ⟨⟨"0", by decide⟩⟩

instance : Inhabited Expression :=
  ⟨.operand (.number default)⟩

instance : Inhabited Transformation :=
  ⟨⟨default, .plain (.single default)⟩⟩

end Grammar

namespace Parser

variable {last : Nat} {prospect : Prospect} {tokens : List Token}

/-! ## Expressions -/

section Expressions

variable {σ : Type} (sink : Sink σ)

theorem fieldAccess_eq_error
    {sink : Sink σ} {qualifier field : Token} {acc : σ} {cursor after : Cursor}
    {error : GrammarError}
    (h : fieldAccess sink qualifier field acc cursor =
      .error (.grammar error) after) :
    field.kind ≠ .identifier ∧
      error = ⟨.fieldName, some field.text, field.line⟩ := by
  unfold fieldAccess at h
  split at h
  next => cases h
  next =>
    cases hkind : field.kind with
    | identifier =>
        rw [hkind] at h
        cases hfield : sink.field qualifier.text field.text acc <;>
          rw [hfield] at h <;> cases h
    | number =>
        rw [hkind] at h
        cases h
    | _ =>
        rw [hkind] at h
        cases h
        exact ⟨by simp, rfl⟩

/-- The dot of a field access and what follows it.  The field is refused only
when it has been taken. -/
theorem sticks_field
    {qualifier dot : Token} (hdot : dot.word = .mark ".")
    (hopen : prospect.Open [.mark "."]) (acc : σ) :
    Sticks last prospect (dot :: tokens) (advance >>= fun _ =>
      take .fieldName >>= fun field =>
        fieldAccess sink qualifier field acc) := by
  cases tokens with
  | nil =>
      apply Sticks.after_advance
      rw [hdot]
      intro cursor after error hfaces hrun
      rcases bind_eq_error hrun with hrun | ⟨field, middle, hok, -⟩
      · exact sticks_take .fieldName hopen hfaces hrun
      · obtain ⟨rest, hwords, -⟩ := take_eq_ok hfaces.reads hok
        cases hwords
  | cons field left =>
      intro cursor after error hfaces hrun
      obtain ⟨atField, hadvance, hatField⟩ := hfaces.exists_advance
      obtain ⟨behind, htake, -⟩ := hatField.exists_take .fieldName
      rw [bind_ok hadvance, bind_ok htake] at hrun
      obtain ⟨hkind, rfl⟩ := fieldAccess_eq_error hrun
      rw [← hdot] at hopen
      exact .field (List.nil_append _).symm hopen hdot hkind ⟨rfl, rfl⟩

theorem exists_qualified
    {token : Token} (hlexical : token.word.Lexical)
    (hkind : token.kind = .identifier ∨ token.kind = .number) :
    ∃ atom : Operand, [token.word, .mark "."] <+: atom.words := by
  rcases hkind with hkind | hkind
  · refine ⟨.access ⟨token.text, hkind ▸ hlexical⟩ default, [Name.word default],
      ?_⟩
    simp [Operand.words, Name.word, Token.word, hkind]
  · refine ⟨.numberAccess ⟨token.text, hkind ▸ hlexical⟩ default,
      [Name.word default], ?_⟩
    simp [Operand.words, Numeral.word, Token.word, hkind]

theorem sticks_operand
    {token : Token} (hopen : ∀ atom : Operand, prospect.Open atom.words)
    (hlexical : token.word.Lexical)
    (hkind : token.kind = .identifier ∨ token.kind = .number) (acc : σ) :
    Sticks last prospect (token :: tokens) (operand sink acc) := by
  unfold operand
  apply Sticks.after_take
  apply Sticks.after_sees .symbol (by decide)
  · rintro dot rest rfl hdot
    obtain ⟨atom, hqualified⟩ := exists_qualified hlexical hkind
    have hqualifiedOpen : (prospect.behind [token.word]).Open [.mark "."] :=
      prospect.of_isPrefix (hopen atom) hqualified
    exact sticks_field sink hdot hqualifiedOpen acc
  · simp only [Bool.false_eq_true, if_false]
    split
    · exact sticks_pure _
    · apply Sticks.after_lookup _ currentArithmetic_apply
      · exact sticks_ofScope _
      · intro _ _ _ _ _
        exact sticks_ofScope _

/-- A link behind what was read before, unless that is a conditional. -/
theorem Leads.exists_words
    {expression : Expression} {op : Arithmetic} {rest : List Word}
    (h : Leads expression (op.word :: rest)) (chain : Expression) :
    ∃ whole : Expression,
      whole.words = expression.words ++ op.word :: chain.words := by
  cases h with
  | @operand atom _ _ =>
      exact ⟨.operandThen atom op chain, by simp [Expression.words]⟩
  | @group inner _ =>
      exact ⟨.groupThen inner op chain, by simp [Expression.words]⟩
  | conditional hno =>
      have harithmetic := hno.arithmetic
      rw [startsArithmetic_op] at harithmetic
      cases harithmetic

section Within

variable {budget : Nat}
  (hinner : ∀ (prospect : Prospect) (tokens : List Token) (acc : σ),
    (∀ expression : Expression, prospect.Open expression.words) →
    tokens.length ≤ budget →
    Sticks last prospect tokens (expressionWithin sink budget acc))

include hinner

theorem Sticks.after_expressionWithin
    {β : Type} {next : σ → Parser β} {acc : σ}
    (hopen : ∀ expression : Expression, prospect.Open expression.words)
    (hbudget : tokens.length ≤ budget)
    (hnext : ∀ (value : σ) (expression : Expression) (left : List Token),
      left.length < tokens.length →
      Sticks last (prospect.behind expression.words) left (next value)) :
    Sticks last prospect tokens
      (expressionWithin sink budget acc >>= next) := by
  have hproceeds : Proceeds (expressionWithin sink budget acc) :=
    proceeds_of_lockstep fun _ => ⟨_, Pairing.lockstep_expressionWithin sink acc
      (Nat.zero_le _) (Nat.zero_le _)⟩
  apply Sticks.bind hproceeds (hinner prospect tokens acc hopen hbudget)
  intro cursor after value hfaces hrun
  obtain ⟨expression, rest, hwords, hreads, -⟩ :=
    expressionWithin_derives sink budget hfaces.reads hfaces.lexical_words
      (by simpa using hbudget) hrun
  refine ⟨expression.words, rest, hwords, hreads, ?_⟩
  rintro left rfl
  exact hnext value expression left
    (length_lt_of_words hwords expression.words_length_pos)

theorem sticks_group
    {token : Token} (hword : token.word = .mark "(")
    (hopen : ∀ inner : Expression, prospect.Open (Expression.group inner).words)
    (hbudget : tokens.length ≤ budget) (acc : σ) :
    Sticks last prospect (token :: tokens)
      (group sink (expressionWithin sink budget) acc) := by
  unfold group
  apply Sticks.after_advance
  rw [hword]
  apply Sticks.after_expressionWithin sink hinner _ hbudget
  · intro value inner left _
    apply Sticks.after_expect .symbol (by decide)
    · exact prospect.of_isPrefix (hopen inner) (by simp [Expression.words])
    · intro left _
      exact sticks_pure _
  · intro inner
    exact prospect.of_isPrefix (hopen inner) (by simp [Expression.words])

theorem sticks_conditional
    (hopen : ∀ cmp left right yes no,
      prospect.Open (Expression.conditional cmp left right yes no).words)
    (hbudget : tokens.length ≤ budget + 1) (acc : σ) :
    Sticks last prospect tokens
      (conditional sink (expressionWithin sink budget) acc) := by
  unfold conditional
  apply Sticks.after_expect .reserved (by decide)
  · exact prospect.of_isPrefix (hopen .equal default default default default)
      (by simp)
  intro atOpen hatOpen
  apply Sticks.after_expect .symbol (by decide)
  · exact prospect.of_isPrefix (hopen .equal default default default default)
      (by simp [Expression.words, Word.keyword])
  intro atLeft hatLeft
  apply Sticks.after_expressionWithin sink hinner
  · intro left
    exact prospect.of_isPrefix (hopen .equal left default default default)
      (by simp [Expression.words, Word.keyword, Word.mark])
  · omega
  intro _ left atComparison hatComparison
  apply Sticks.after_lookup _ currentComparison_apply
  · apply sticks_unexpected
    exact prospect.of_isPrefix (hopen .equal left default default default)
      (by simp [Expression.words, Word.keyword, Word.mark])
  rintro token atRight cmp rfl hcmp
  simp only [List.length_cons] at hatComparison
  apply Sticks.after_advance
  rw [Word.eq_of_comparison? hcmp]
  apply Sticks.after_expressionWithin sink hinner
  · intro right
    exact prospect.of_isPrefix (hopen cmp left right default default)
      (by simp [Expression.words, Word.keyword, Word.mark])
  · omega
  intro _ right atClose hatClose
  apply Sticks.after_expect .symbol (by decide)
  · exact prospect.of_isPrefix (hopen cmp left right default default)
      (by simp [Expression.words, Word.keyword, Word.mark])
  intro atYes hatYes
  apply Sticks.after_expressionWithin sink hinner
  · intro yes
    exact prospect.of_isPrefix (hopen cmp left right yes default)
      (by simp [Expression.words, Word.keyword, Word.mark])
  · omega
  intro _ yes atElse hatElse
  apply Sticks.after_expect .reserved (by decide)
  · exact prospect.of_isPrefix (hopen cmp left right yes default)
      (by simp [Expression.words, Word.keyword, Word.mark])
  intro atNo hatNo
  apply Sticks.after_expressionWithin sink hinner
  · intro no
    exact prospect.of_isPrefix (hopen cmp left right yes no)
      (by simp [Expression.words, Word.keyword, Word.mark])
  · omega
  intro _ _ _ _
  exact sticks_pure _

theorem sticks_primary
    (hopen : ∀ expression : Expression, prospect.Open expression.words)
    (hbudget : tokens.length ≤ budget + 1) (acc : σ) :
    Sticks last prospect tokens
      (primary sink (expressionWithin sink budget) acc) := by
  have hnil : prospect.Open [] :=
    prospect.of_isPrefix (hopen default) List.nil_prefix
  apply Sticks.of_lexical
  intro hlexical
  unfold primary
  apply Sticks.after_look (fun word => word.any (·.kind == .identifier))
  · intro cursor
    rw [Option.any_map]
    rfl
  apply Sticks.after_look (fun word => word.any (·.kind == .number))
  · intro cursor
    rw [Option.any_map]
    rfl
  split
  next hkind =>
    cases tokens with
    | nil => simp at hkind
    | cons token tokens =>
        have hkind' : token.kind = .identifier ∨ token.kind = .number := by
          simpa [Token.word] using hkind
        exact sticks_operand sink (fun atom => hopen (.operand atom))
          (hlexical token (.head _)) hkind' acc
  next =>
    apply Sticks.after_sees .symbol (by decide)
    · rintro token rest rfl hword
      exact sticks_group sink hinner hword (fun inner => hopen (.group inner))
        (by simpa using hbudget) acc
    · apply Sticks.after_sees .reserved (by decide)
      · intro _ _ _ _
        exact sticks_conditional sink hinner
          (fun cmp left right yes no => hopen (.conditional cmp left right yes no))
          hbudget acc
      · exact sticks_unexpected .expression hnil

theorem Sticks.after_primary
    {β : Type} {next : σ → Parser β} {acc : σ}
    (hopen : ∀ expression : Expression, prospect.Open expression.words)
    (hbudget : tokens.length ≤ budget + 1)
    (hnext : ∀ (value : σ) (head : Expression) (left : List Token),
      Leads head (left.map Token.word) → left.length < tokens.length →
      Sticks last (prospect.behind head.words) left (next value)) :
    Sticks last prospect tokens
      (primary sink (expressionWithin sink budget) acc >>= next) := by
  have hproceeds : Proceeds (primary sink (expressionWithin sink budget) acc) :=
    proceeds_of_lockstep fun _ => ⟨_, Pairing.lockstep_primary sink
      (fun _ => Pairing.lockstep_expressionWithin sink _ (Nat.zero_le _)
        (Nat.zero_le _)) acc⟩
  apply Sticks.bind hproceeds (sticks_primary sink hinner hopen hbudget acc)
  intro cursor after value hfaces hrun
  obtain ⟨head, rest, hwords, hreads, hhead⟩ :=
    primary_derives sink (expressionWithin_derives sink budget) hfaces.reads
      hfaces.lexical_words (by simpa using hbudget) hrun
  refine ⟨head.words, rest, hwords, hreads, ?_⟩
  rintro left rfl
  exact hnext value head left hhead
    (length_lt_of_words hwords head.words_length_pos)

theorem sticks_operatorTail
    {expression : Expression}
    (hopen : ∀ whole : Expression, prospect.Open whole.words)
    (hleads : Leads expression (tokens.map Token.word))
    (hbudget : tokens.length ≤ budget + 1) (links : Nat) (acc : σ) :
    Sticks last (prospect.behind expression.words) tokens
      (operatorTail sink (primary sink (expressionWithin sink budget)) links
        acc) := by
  induction links generalizing prospect tokens expression acc with
  | zero => exact sticks_pure _
  | succ links ih =>
      unfold operatorTail
      apply Sticks.after_lookup _ currentArithmetic_apply
      · exact sticks_pure _
      rintro token rest op rfl hop
      have hword := Word.eq_of_arithmetic? hop
      rw [List.map_cons, hword] at hleads
      have hlink : ∀ chain : Expression,
          ((prospect.behind expression.words).behind [op.word]).Open
            chain.words := by
        intro chain
        obtain ⟨whole, hwhole⟩ := hleads.exists_words chain
        have hall := hopen whole
        rw [hwhole] at hall
        exact hall
      -- What was read up to the operator is now in front of a shorter chain.
      apply Sticks.after_advance
      rw [hword]
      simp only [List.length_cons] at hbudget
      apply Sticks.after_primary sink hinner hlink (by omega)
      intro value head left hhead hleft
      exact ih hlink hhead (by omega) value

end Within

theorem sticks_expressionWithin
    (hopen : ∀ expression : Expression, prospect.Open expression.words)
    {budget : Nat} (hbudget : tokens.length ≤ budget) (acc : σ) :
    Sticks last prospect tokens (expressionWithin sink budget acc) := by
  induction budget generalizing prospect tokens acc with
  | zero =>
      exact sticks_unexpected .expression
        (prospect.of_isPrefix (hopen default) List.nil_prefix)
  | succ budget ih =>
      have hinner : ∀ (prospect : Prospect) (tokens : List Token) (acc : σ),
          (∀ expression : Expression, prospect.Open expression.words) →
          tokens.length ≤ budget →
          Sticks last prospect tokens (expressionWithin sink budget acc) :=
        fun _ _ acc hopen hbudget => ih hopen hbudget acc
      unfold expressionWithin
      apply Sticks.after_primary sink hinner hopen hbudget
      intro value head left hhead hleft
      exact sticks_operatorTail sink hinner hopen hhead (by omega) budget value

theorem sticks_expression
    (hopen : ∀ expression : Expression, prospect.Open expression.words)
    (acc : σ) : Sticks last prospect tokens (expression sink acc) := by
  unfold expression
  apply Sticks.after_remaining
  intro budget hbudget
  exact sticks_expressionWithin sink hopen hbudget acc

theorem Sticks.after_expression
    {β : Type} {next : σ → Parser β} {acc : σ}
    (hopen : ∀ expression : Expression, prospect.Open expression.words)
    (hnext : ∀ (value : σ) (expression : Expression) (left : List Token),
      Sticks last (prospect.behind expression.words) left (next value)) :
    Sticks last prospect tokens (expression sink acc >>= next) := by
  apply Sticks.bind
    (proceeds_of_lockstep fun _ => ⟨_, Pairing.lockstep_expression sink acc⟩)
    (sticks_expression sink hopen acc)
  intro cursor after value hfaces hrun
  obtain ⟨expression, rest, hwords, hreads, -⟩ :=
    expression_eq_ok hfaces.reads hfaces.lexical_words hrun
  exact ⟨expression.words, rest, hwords, hreads, fun left _ =>
    hnext value expression left⟩

theorem sticks_chainTail
    (hopen : ∀ expression : Expression, prospect.Open expression.words)
    (inner : Expression) (acc : σ) :
    Sticks last (prospect.behind (Expression.group inner).words) tokens
      (chainTail sink acc) := by
  unfold chainTail
  apply Sticks.after_remaining
  intro budget hbudget
  exact sticks_operatorTail sink
    (fun _ _ acc hopen hbudget => sticks_expressionWithin sink hopen hbudget acc)
    hopen .group (Nat.le_succ_of_le hbudget) budget acc

end Expressions

/-! ## Bodies -/

theorem sticks_binding
    (hopen : ∀ (name : Name) (value : Expression), prospect.Open
      (.keyword "val" :: name.word :: .mark "=" :: value.words))
    (scope : Scope) : Sticks last prospect tokens (binding scope) := by
  unfold binding
  apply Sticks.after_expect .reserved (by decide)
  · exact prospect.of_isPrefix (hopen default default) (by simp)
  intro _ _
  apply Sticks.after_expectKind
  · exact prospect.of_isPrefix (hopen default default) (by simp [Word.keyword])
  intro token _ hname
  apply Sticks.after_expect .symbol (by decide)
  · exact prospect.of_isPrefix (hopen ⟨token.text, hname⟩ default)
      (by simp [Word.keyword, Name.word])
  intro _ _
  apply Sticks.after_expression _ (hopen ⟨token.text, hname⟩)
  intro stack value _
  apply Sticks.after_ofScope
  intro fragment
  apply Sticks.after_log
  exact sticks_ofScope _

theorem sticks_bindingsWithin
    (hopen : ∀ assignments : List (Assignment Expression),
      prospect.Open (assignmentsWords Expression.words assignments))
    (budget : Nat) (scope : Scope) :
    Sticks last prospect tokens (bindingsWithin budget scope) := by
  induction budget generalizing prospect tokens scope with
  | zero => exact sticks_pure _
  | succ budget ih =>
      unfold bindingsWithin
      apply Sticks.after_sees .reserved (by decide)
      · intro _ _ _ _
        have hbinding : ∀ (name : Name) (value : Expression), prospect.Open
            (.keyword "val" :: name.word :: .mark "=" :: value.words) := by
          intro name value
          simpa [assignmentsWords, Assignment.words] using
            hopen [⟨name, value, false⟩]
        apply Sticks.bind
          (proceeds_of_lockstep fun _ => ⟨_, Pairing.lockstep_binding scope⟩)
          (sticks_binding hbinding scope)
        intro cursor after extended hfaces hrun
        obtain ⟨name, value, rest, hwords, hreads⟩ :=
          binding_eq_ok hfaces.reads hfaces.lexical_words hrun
        refine ⟨.keyword "val" :: name.word :: .mark "=" :: value.words, rest,
          by simpa using hwords, hreads, ?_⟩
        rintro left -
        -- Only the next word tells which assignment this has been: the one with
        -- a semicolon, or the one without.
        apply Sticks.after_sees .symbol (by decide)
        · rintro token rest rfl hword
          apply Sticks.after_advance
          rw [hword]
          apply ih
          intro assignments
          have hall := hopen (⟨name, value, true⟩ :: assignments)
          simpa [assignmentsWords, Assignment.words, Word.mark, Prospect.behind]
            using hall
        · apply ih
          intro assignments
          have hall := hopen (⟨name, value, false⟩ :: assignments)
          simpa [assignmentsWords, Assignment.words, Prospect.behind]
            using hall
      · exact sticks_pure _

theorem sticks_elementsWithin
    (hopen : ∀ more : List Expression,
      prospect.Open (moreWords Expression.words more))
    (scope : Scope) (budget : Nat) (draft : Draft) :
    Sticks last prospect tokens (elementsWithin scope budget draft) := by
  induction budget generalizing prospect tokens draft with
  | zero => exact sticks_pure _
  | succ budget ih =>
      unfold elementsWithin
      apply Sticks.after_sees .symbol (by decide)
      · rintro token rest rfl hword
        apply Sticks.after_advance
        rw [hword]
        apply Sticks.after_expression
        · intro element
          simpa [moreWords, Word.mark, Prospect.behind] using hopen [element]
        intro draft element left
        apply ih
        intro more
        simpa [moreWords, Word.mark, Prospect.behind] using
          hopen (element :: more)
      · exact sticks_pure _

theorem sticks_closed
    {scope : Scope} {draft : Draft} (first : Expression)
    {more : List Expression}
    (hopen : ∀ only : Expression, prospect.Open only.words)
    (harity : draft.projection.arity = more.length) :
    Sticks last
      (prospect.behind ((Result.tuple first more).words Expression.words))
      tokens (closed scope draft) := by
  unfold closed
  apply Sticks.after_lookup _ currentArithmetic_apply
  · simp only [Option.isSome_none, Bool.and_false, Bool.false_eq_true, if_false]
    exact sticks_pure _
  intro _ _ op _ _
  dsimp only
  split
  next hjoined =>
    -- A lone element with an operator behind it was a group after all.
    obtain rfl : more = [] := by simpa [harity] using hjoined
    have hgroup : (Result.tuple first []).words Expression.words =
        (Expression.group first).words := by
      simp [Result.words, Expression.words, moreWords]
    rw [hgroup]
    exact (sticks_chainTail _ hopen first _).before_pure _
  next => exact sticks_pure _

theorem sticks_result
    (hopen : ∀ tuple : Result Expression,
      prospect.Open (tuple.words Expression.words))
    (scope : Scope) : Sticks last prospect tokens (result scope) := by
  have hsingle : ∀ only : Expression, prospect.Open only.words :=
    fun only => hopen (.single only)
  unfold result
  apply Sticks.after_sees .symbol (by decide)
  · rintro token rest rfl hword
    apply Sticks.after_advance
    rw [hword]
    apply Sticks.bind
      (proceeds_of_lockstep fun _ => ⟨_, Pairing.lockstep_expression _ _⟩)
    · apply sticks_expression
      intro first
      exact prospect.of_isPrefix (hopen (.tuple first []))
        (by simp [Result.words, Word.mark])
    intro cursor after draft hfaces hrun
    obtain ⟨first, rest, hwords, hreads, -, rfl⟩ :=
      expression_direct_eq_ok hfaces.reads hfaces.lexical_words hrun
    refine ⟨first.words, rest, hwords, hreads, ?_⟩
    rintro left -
    apply Sticks.after_remaining
    intro budget _
    apply Sticks.bind
      (proceeds_of_lockstep fun _ => ⟨_, Pairing.lockstep_elementsWithin scope _
        (Nat.zero_le _) (Nat.zero_le _)⟩)
    · apply sticks_elementsWithin
      intro more
      exact prospect.of_isPrefix (hopen (.tuple first more))
        (by simp [Result.words, Word.mark])
    intro cursor after draft hfaces hrun
    obtain ⟨more, rest, hwords, hreads, harity⟩ :=
      elementsWithin_eq_ok hfaces.reads hfaces.lexical_words hrun
    refine ⟨moreWords Expression.words more, rest, hwords, hreads, ?_⟩
    rintro left -
    apply Sticks.after_expect .symbol (by decide)
    · exact prospect.of_isPrefix (hopen (.tuple first more))
        (by simp [Result.words, Word.mark])
    intro left _
    have hclosed : Sticks last (prospect.behind
        ((Result.tuple first more).words Expression.words)) left
          (closed scope draft) :=
      sticks_closed first hsingle (harity.trans (Nat.zero_add _))
    have hwords : (Result.tuple first more).words Expression.words =
        [⟨"(", .symbol⟩] ++ first.words ++ moreWords Expression.words more ++
          [⟨")", .symbol⟩] := by
      simp [Result.words, Word.mark]
    rw [hwords] at hclosed
    simp only [Prospect.behind_behind]
    exact hclosed
  · apply Sticks.after_expression _ hsingle
    intro _ _ _
    exact sticks_pure _

theorem sticks_bodyParts
    (hopen : ∀ source : Body Expression,
      prospect.Open (source.words Expression.words))
    (scope : Scope) : Sticks last prospect tokens (bodyParts scope) := by
  unfold bodyParts
  apply Sticks.after_sees .symbol (by decide)
  · rintro token rest rfl hword
    apply Sticks.after_advance
    rw [hword]
    apply Sticks.after_remaining
    intro budget _
    apply Sticks.bind
      (proceeds_of_lockstep fun _ => ⟨_, Pairing.lockstep_bindingsWithin scope
        (Nat.zero_le _) (Nat.zero_le _)⟩)
    · apply sticks_bindingsWithin
      intro assignments
      exact prospect.of_isPrefix
        (hopen (.block assignments (.single default)))
        (by simp [Body.words, Word.mark])
    intro cursor after scope hfaces hrun
    obtain ⟨assignments, rest, hwords, hreads⟩ :=
      bindingsWithin_eq_ok hfaces.reads hfaces.lexical_words hrun
    refine ⟨assignmentsWords Expression.words assignments, rest, hwords, hreads,
      ?_⟩
    rintro left -
    apply Sticks.bind
      (proceeds_of_lockstep fun _ => ⟨_, Pairing.lockstep_result scope⟩)
    · apply sticks_result
      intro tuple
      exact prospect.of_isPrefix (hopen (.block assignments tuple))
        (by simp [Body.words, Word.mark])
    intro cursor after draft hfaces hrun
    obtain ⟨tuple, rest, hwords, hreads, -⟩ :=
      result_eq_ok hfaces.reads hfaces.lexical_words hrun
    refine ⟨tuple.words Expression.words, rest, hwords, hreads, ?_⟩
    rintro left -
    apply Sticks.after_expect .symbol (by decide)
    · exact prospect.of_isPrefix (hopen (.block assignments tuple))
        (by simp [Body.words, Word.mark])
    intro _ _
    exact sticks_pure _
  · exact (sticks_result (fun tuple => hopen (.plain tuple)) scope).before_pure _

theorem sticks_body
    (hopen : ∀ source : Body Expression,
      prospect.Open (source.words Expression.words))
    (parameter : String) : Sticks last prospect tokens (body parameter) := by
  intro cursor after error hfaces hrun
  unfold body at hrun
  rcases bind_eq_error hrun with hrun | ⟨_, _, -, hrun⟩
  · exact sticks_bodyParts hopen _ hfaces hrun
  · cases hrun

/-! ## Pipelines -/

theorem sticks_transformation
    (hopen : ∀ transformation : Transformation,
      prospect.Open transformation.words) :
    Sticks last (prospect.behind [.mark "."]) tokens transformation := by
  unfold transformation
  apply Sticks.after_expect .identifier (by decide)
  · exact prospect.of_isPrefix (hopen default) (by simp [Transformation.words])
  intro _ _
  apply Sticks.after_expect .symbol (by decide)
  · exact prospect.of_isPrefix (hopen default)
      (by simp [Transformation.words, Word.call])
  intro _ _
  apply Sticks.after_expectKind
  · exact prospect.of_isPrefix (hopen default)
      (by simp [Transformation.words, Word.call, Word.mark])
  intro token _ hname
  have hparameter : ∀ source : Body Expression,
      prospect.Open (Transformation.mk ⟨token.text, hname⟩ source).words :=
    fun source => hopen _
  apply Sticks.after_expect .symbol (by decide)
  · exact prospect.of_isPrefix (hparameter (.plain (.single default)))
      (by simp [Transformation.words, Word.call, Word.mark, Name.word])
  intro _ _
  apply Sticks.bind
    (proceeds_of_lockstep fun _ => ⟨_, Pairing.lockstep_body _⟩)
  · apply sticks_body
    intro source
    exact prospect.of_isPrefix (hparameter source)
      (by simp [Transformation.words, Word.call, Word.mark, Name.word])
  intro cursor after stage hfaces hrun
  obtain ⟨source, rest, hwords, hreads, -⟩ :=
    body_eq_ok hfaces.reads hfaces.lexical_words hrun
  refine ⟨source.words Expression.words, rest, hwords, hreads, ?_⟩
  rintro left -
  apply Sticks.after_expect .symbol (by decide)
  · exact prospect.of_isPrefix (hparameter source)
      (by simp [Transformation.words, Word.call, Word.mark, Name.word])
  intro _ _
  exact sticks_pure _

theorem sticks_stagesWithin
    (hopen : ∀ transformations : List Transformation,
      prospect.Open (transformations.flatMap Transformation.words))
    (budget : Nat) (done : List Stage) :
    Sticks last prospect tokens (stagesWithin budget done) := by
  induction budget generalizing prospect tokens done with
  | zero => exact sticks_unexpected _ (hopen [])
  | succ budget ih =>
      have hsingle : ∀ transformation : Transformation,
          prospect.Open transformation.words := by
        intro transformation
        simpa using hopen [transformation]
      unfold stagesWithin
      apply Sticks.after_expect .symbol (by decide) (hopen [])
      intro left _
      apply Sticks.after_sees .identifier (by decide)
      · intro _ _ _ _
        exact sticks_pure _
      apply Sticks.bind
        (proceeds_of_lockstep fun _ => ⟨_, Pairing.lockstep_transformation⟩)
        (sticks_transformation hsingle)
      intro cursor after stage hfaces hrun
      obtain ⟨source, rest, hwords, hreads⟩ :=
        transformation_eq_ok hfaces.reads hfaces.lexical_words hrun
      -- The dot was taken before it was known what follows.
      have hsource : source.words = .mark "." :: source.words.tail := rfl
      rw [hsource, List.cons_append, List.cons.injEq] at hwords
      refine ⟨source.words.tail, rest, hwords.2, hreads, ?_⟩
      rintro left -
      apply ih
      intro transformations
      have hall := hopen (source :: transformations)
      rw [List.flatMap_cons, hsource] at hall
      exact hall

theorem sticks_end
    (hopen : prospect.Open []) (chain : Chain) :
    Sticks last prospect tokens (get >>= fun cursor : Cursor =>
      if cursor.current.isSome = true then unexpected .endOfInput
      else log (.lowered chain.stages.length) >>= fun _ => pure chain) := by
  intro cursor after error hfaces hrun
  rw [bind_ok (get_apply cursor)] at hrun
  split at hrun
  · exact sticks_unexpected .endOfInput hopen hfaces hrun
  · cases hrun

/-- Wherever the grammar gets stuck, it is behind words that some program
starts with. -/
theorem sticks_pipeline
    (hopen : ∀ program : Program, prospect.Open program.words) :
    Sticks last prospect tokens pipeline := by
  have hempty : prospect.Open (Program.mk default default []).words := hopen _
  unfold pipeline
  apply Sticks.after_expect .identifier (by decide)
  · exact prospect.of_isPrefix hempty (by simp)
  intro _ _
  apply Sticks.after_expect .symbol (by decide)
  · exact prospect.of_isPrefix hempty (by simp [Program.words, Word.call])
  intro _ _
  apply Sticks.after_expect .identifier (by decide)
  · exact prospect.of_isPrefix hempty
      (by simp [Program.words, Word.call, Word.mark])
  intro _ _
  apply Sticks.after_expect .symbol (by decide)
  · exact prospect.of_isPrefix hempty
      (by simp [Program.words, Word.call, Word.mark])
  intro _ _
  apply Sticks.after_expectKind
  · exact prospect.of_isPrefix hempty
      (by simp [Program.words, Word.call, Word.mark])
  intro start _ hstart
  apply Sticks.after_expect .symbol (by decide)
  · exact prospect.of_isPrefix (hopen ⟨⟨start.text, hstart⟩, default, []⟩)
      (by simp [Program.words, Word.call, Word.mark, Numeral.word])
  intro _ _
  apply Sticks.after_expectKind
  · exact prospect.of_isPrefix (hopen ⟨⟨start.text, hstart⟩, default, []⟩)
      (by simp [Program.words, Word.call, Word.mark, Numeral.word])
  intro stop _ hstop
  have hranged : ∀ transformations : List Transformation, prospect.Open
      (Program.mk ⟨start.text, hstart⟩ ⟨stop.text, hstop⟩
        transformations).words := fun _ => hopen _
  apply Sticks.after_expect .symbol (by decide)
  · exact prospect.of_isPrefix (hranged [])
      (by simp [Program.words, Word.call, Word.mark, Numeral.word])
  intro _ _
  apply Sticks.after_remaining
  intro budget _
  apply Sticks.bind
    (proceeds_of_lockstep fun _ => ⟨_, Pairing.lockstep_stagesWithin []
      (Nat.zero_le _) (Nat.zero_le _)⟩)
  · apply sticks_stagesWithin
    intro transformations
    exact prospect.of_isPrefix (hranged transformations)
      (by simp [Program.words, Word.call, Word.mark, Numeral.word])
  intro cursor after stages hfaces hrun
  obtain ⟨transformations, rest, hwords, hreads⟩ :=
    stagesWithin_eq_ok hfaces.reads hfaces.lexical_words hrun
  refine ⟨transformations.flatMap Transformation.words ++ [.mark "."], rest,
    by simpa using hwords, hreads, ?_⟩
  rintro left -
  apply Sticks.after_expect .identifier (by decide)
  · exact prospect.of_isPrefix (hranged transformations)
      (by simp [Program.words, Word.call, Word.mark, Numeral.word])
  intro _ _
  apply Sticks.after_expect .symbol (by decide)
  · exact prospect.of_isPrefix (hranged transformations)
      (by simp [Program.words, Word.call, Word.mark, Numeral.word])
  intro _ _
  apply Sticks.after_expect .symbol (by decide)
  · exact prospect.of_isPrefix (hranged transformations)
      (by simp [Program.words, Word.call, Word.mark, Numeral.word])
  intro _ _
  apply sticks_end _ ⟨start.text, stop.text, stages⟩
  exact prospect.of_isPrefix (hranged transformations)
    (by simp [Program.words, Word.call, Word.mark, Numeral.word])

end Parser

end SelectChain

import SelectChain.Proofs.CursorReading
import Mathlib.Tactic

/-!
# Reading expressions

The productions for expressions agree with the grammar in both directions, for
every sink.  `meets_expression` follows a derivation: the run feeds its pieces to
the sink, in order, and stops behind it.  `expression_eq_ok` inverts a run: what
was taken has a derivation.  Neither needs to know what the sink does.
-/

namespace SelectChain

namespace Grammar

variable {σ : Type}

/-- The pieces of an operand, given to a sink; `joined` says whether an
arithmetic operator follows. -/
def Operand.feed (sink : Sink σ) (joined : Bool) :
    Operand → σ → Except ScopeError σ
  | .number digits, acc => .ok (sink.entry (.number digits.text) acc)
  | .bare name, acc => sink.name name.text joined acc
  | .access qualifier field, acc => sink.field qualifier.text field.text acc
  | .numberAccess digits field, _ =>
      .error (.numericField (digits.text ++ "." ++ field.text))

/-- The pieces of an expression, given to a sink from left to right. -/
def Expression.feed (sink : Sink σ) : Expression → σ → Except ScopeError σ
  | .operand atom, acc => atom.feed sink false acc
  | .operandThen atom op rest, acc => do
      let acc ← atom.feed sink true acc
      rest.feed sink (sink.entry (.operator (.arithmetic op)) acc)
  | .group inner, acc => do
      let acc ← inner.feed sink (sink.entry .opening acc)
      .ok (sink.entry .closing acc)
  | .groupThen inner op rest, acc => do
      let acc ← inner.feed sink (sink.entry .opening acc)
      rest.feed sink
        (sink.entry (.operator (.arithmetic op)) (sink.entry .closing acc))
  | .conditional cmp left right yes no, acc => do
      let acc ← left.feed sink (sink.entry .ifOpen acc)
      let acc ← right.feed sink (sink.entry (.operator (.comparison cmp)) acc)
      let acc ← yes.feed sink (sink.entry .thenMark acc)
      let acc ← no.feed sink (sink.entry .elseMark acc)
      .ok (sink.entry .ifClose acc)

/-- Whether a dot right behind the operand would be read with it. -/
def Operand.takesDot : Operand → Bool
  | .number _ | .bare _ => true
  | .access _ _ | .numberAccess _ _ => false

def Expression.takesDot : Expression → Bool
  | .operand atom => atom.takesDot
  | .operandThen _ _ rest => rest.takesDot
  | .group _ => false
  | .groupThen _ _ rest => rest.takesDot
  | .conditional _ _ _ _ no => no.takesDot

def startsArithmetic (words : List Word) : Bool :=
  (words.head?.bind Word.arithmetic?).isSome

def startsDot (words : List Word) : Bool :=
  words.head?.any (·.text == ".")

/-- The expression ends in front of `rest`: nothing there continues it. -/
structure Expression.EndsBefore (expression : Expression) (rest : List Word) :
    Prop where
  arithmetic : startsArithmetic rest = false
  dot : expression.takesDot = true → startsDot rest = false

theorem Expression.endsBefore_cons
    (expression : Expression) (word : Word) (rest : List Word)
    (harithmetic : word.arithmetic? = none) (hdot : word.text ≠ ".") :
    expression.EndsBefore (word :: rest) := by
  refine ⟨?_, fun _ => ?_⟩
  · simp [startsArithmetic, harithmetic]
  · simp [startsDot, hdot]

theorem Expression.endsBefore_nil (expression : Expression) :
    expression.EndsBefore [] :=
  ⟨rfl, fun _ => rfl⟩

theorem Operand.words_length_pos (operand : Operand) :
    0 < operand.words.length := by
  cases operand <;> simp [words]

theorem Expression.words_length_pos (expression : Expression) :
    0 < expression.words.length := by
  cases expression with
  | operand atom => exact atom.words_length_pos
  | operandThen atom op rest => simp [words]
  | group inner => simp [words]
  | groupThen inner op rest => simp [words]
  | conditional cmp left right yes no => simp [words]

theorem Operand.exists_head (operand : Operand) :
    ∃ word rest, operand.words = word :: rest ∧
      (word.kind = .identifier ∨ word.kind = .number) := by
  cases operand with
  | number digits => exact ⟨_, _, rfl, Or.inr rfl⟩
  | bare name => exact ⟨_, _, rfl, Or.inl rfl⟩
  | access qualifier field => exact ⟨_, _, rfl, Or.inl rfl⟩
  | numberAccess digits field => exact ⟨_, _, rfl, Or.inr rfl⟩

theorem startsDot_op (op : Arithmetic) (rest : List Word) :
    startsDot (op.word :: rest) = false := by
  cases op <;> rfl

theorem startsArithmetic_op (op : Arithmetic) (rest : List Word) :
    startsArithmetic (op.word :: rest) = true := by
  simp [startsArithmetic]

theorem comparison_arithmetic? (cmp : Comparison) :
    cmp.word.arithmetic? = none := by
  cases cmp <;> rfl

theorem comparison_ne_dot (cmp : Comparison) : cmp.word.text ≠ "." := by
  cases cmp <;> decide

end Grammar

namespace Parser

open Grammar

variable {σ : Type} (sink : Sink σ)

/-! ## From derivations to runs -/

theorem meets_operand
    (atom : Operand) (acc : σ) (rest : List Word)
    (hdot : atom.takesDot = true → startsDot rest = false) :
    Meets (operand sink acc) (atom.words ++ rest)
      (atom.feed sink (startsArithmetic rest) acc) rest := by
  unfold operand
  cases atom with
  | number digits =>
      apply meets_take
      rintro ⟨text, kind, line⟩ htoken
      cases htoken
      apply (meets_sees "." rest).then
      rw [show rest.head?.any (·.text == ".") = false from hdot rfl]
      exact meets_pure _ rest
  | bare name =>
      apply meets_take
      rintro ⟨text, kind, line⟩ htoken
      cases htoken
      apply (meets_sees "." rest).then
      rw [show rest.head?.any (·.text == ".") = false from hdot rfl]
      apply (meets_currentArithmetic rest).then
      exact meets_ofScope _ rest
  | access qualifier field =>
      apply meets_take
      rintro ⟨text, kind, line⟩ htoken
      cases htoken
      apply (meets_sees "." _).then
      apply (meets_advance _).then
      apply meets_take
      rintro ⟨text', kind', line'⟩ htoken
      cases htoken
      exact meets_ofScope _ rest
  | numberAccess digits field =>
      apply meets_take
      rintro ⟨text, kind, line⟩ htoken
      cases htoken
      apply (meets_sees "." _).then
      apply (meets_advance _).then
      apply meets_take
      rintro ⟨text', kind', line'⟩ htoken
      cases htoken
      unfold fieldAccess
      rw [if_pos rfl]
      exact meets_ofScope _ rest

theorem meets_primary_operand
    (inner : σ → Parser σ) (atom : Operand) (acc : σ) (rest : List Word)
    (hdot : atom.takesDot = true → startsDot rest = false) :
    Meets (primary sink inner acc) (atom.words ++ rest)
      (atom.feed sink (startsArithmetic rest) acc) rest := by
  have hoperand := meets_operand sink atom acc rest hdot
  obtain ⟨word, more, hwords, hkind⟩ := atom.exists_head
  rw [hwords, List.cons_append] at hoperand ⊢
  unfold primary
  apply (meets_seesKind .identifier _).then
  apply (meets_seesKind .number _).then
  rcases hkind with hkind | hkind
  · simpa [hkind] using hoperand
  · simpa [hkind] using hoperand

theorem meets_primary_group
    (inner : σ → Parser σ) (acc : σ) {words rest : List Word}
    {outcome : Except ScopeError σ}
    (hinner : Meets (inner (sink.entry .opening acc))
      (words ++ .mark ")" :: rest) outcome (.mark ")" :: rest)) :
    Meets (primary sink inner acc)
      (.mark "(" :: (words ++ .mark ")" :: rest))
      (outcome >>= fun acc => .ok (sink.entry .closing acc)) rest := by
  unfold primary
  apply (meets_seesKind .identifier _).then
  apply (meets_seesKind .number _).then
  apply (meets_sees "(" _).then
  apply (meets_advance _).then
  apply hinner.bind
  intro acc _
  apply (meets_expect _ _ _).then
  exact meets_pure _ rest

theorem meets_primary_conditional
    (inner : σ → Parser σ) (acc : σ) (cmp : Comparison)
    {left right yes no : Expression} (rest : List Word)
    (hleft : ∀ acc rest, left.EndsBefore rest →
      Meets (inner acc) (left.words ++ rest) (left.feed sink acc) rest)
    (hright : ∀ acc rest, right.EndsBefore rest →
      Meets (inner acc) (right.words ++ rest) (right.feed sink acc) rest)
    (hyes : ∀ acc rest, yes.EndsBefore rest →
      Meets (inner acc) (yes.words ++ rest) (yes.feed sink acc) rest)
    (hno : ∀ acc rest, no.EndsBefore rest →
      Meets (inner acc) (no.words ++ rest) (no.feed sink acc) rest)
    (hends : no.EndsBefore rest) :
    Meets (primary sink inner acc)
      ((Expression.conditional cmp left right yes no).words ++ rest)
      ((Expression.conditional cmp left right yes no).feed sink acc)
      rest := by
  simp only [Expression.words, List.cons_append, List.append_assoc]
  unfold primary
  apply (meets_seesKind .identifier _).then
  apply (meets_seesKind .number _).then
  apply (meets_sees "(" _).then
  apply (meets_sees "if" _).then
  apply (meets_expect _ _ _).then
  apply (meets_expect _ _ _).then
  apply Meets.bind
  · apply hleft
    exact left.endsBefore_cons _ _ (comparison_arithmetic? cmp)
      (comparison_ne_dot cmp)
  intro acc _
  apply (meets_currentComparison _).then
  simp only [List.head?_cons, Option.bind_some, Word.comparison?_word]
  apply (meets_advance _).then
  apply Meets.bind
  · apply hright
    exact right.endsBefore_cons _ _ (by rfl) (by decide)
  intro acc _
  apply (meets_expect _ _ _).then
  apply Meets.bind
  · apply hyes
    exact yes.endsBefore_cons _ _ (by rfl) (by decide)
  intro acc _
  apply (meets_expect _ _ _).then
  apply Meets.bind
  · exact hno _ _ hends
  intro acc _
  exact meets_pure _ rest

theorem meets_operatorTail_done
    (next : σ → Parser σ) (budget : Nat) (acc : σ) {rest : List Word}
    (h : startsArithmetic rest = false) :
    Meets (operatorTail sink next budget acc) rest (.ok acc) rest := by
  cases budget with
  | zero => exact meets_pure acc rest
  | succ budget =>
      unfold operatorTail
      apply (meets_currentArithmetic rest).then
      have hnone : rest.head?.bind Word.arithmetic? = none := by
        simpa [startsArithmetic] using h
      rw [hnone]
      exact meets_pure acc rest

theorem meets_operatorTail_link
    {next : σ → Parser σ} {budget : Nat} {acc : σ} {op : Arithmetic}
    {words rest : List Word} {outcome : Except ScopeError σ}
    (h : Meets
      (next (sink.entry (.operator (.arithmetic op)) acc) >>=
        operatorTail sink next budget)
      words outcome rest) :
    Meets (operatorTail sink next (budget + 1) acc) (op.word :: words)
      outcome rest := by
  unfold operatorTail
  apply (meets_currentArithmetic _).then
  simp only [List.head?_cons, Option.bind_some, Word.arithmetic?_word]
  exact (meets_advance (op.word :: words)).then h

/-- An expression is read as a chain: a primary, and the links behind it.  The
budgets of nested expressions and of links shrink apart from each other. -/
def ReadsChain (expression : Expression) : Prop :=
  ∀ (depth links : Nat) (acc : σ) (rest : List Word),
    expression.words.length ≤ depth + 1 →
    expression.words.length ≤ links + 1 → expression.EndsBefore rest →
    Meets
      (primary sink (expressionWithin sink depth) acc >>=
        operatorTail sink (primary sink (expressionWithin sink depth)) links)
      (expression.words ++ rest) (expression.feed sink acc) rest

theorem ReadsChain.meets_expressionWithin
    {sink : Sink σ} {expression : Expression}
    (h : ReadsChain sink expression) (budget : Nat)
    (hbudget : expression.words.length ≤ budget) (acc : σ)
    (rest : List Word) (hends : expression.EndsBefore rest) :
    Meets (expressionWithin sink budget acc) (expression.words ++ rest)
      (expression.feed sink acc) rest := by
  have hpos := expression.words_length_pos
  cases budget with
  | zero => omega
  | succ smaller => exact h smaller smaller acc rest hbudget hbudget hends

theorem ReadsChain.meets_link
    {sink : Sink σ} {chain : Expression} (h : ReadsChain sink chain)
    (depth links : Nat) (hdepth : chain.words.length ≤ depth + 1)
    (hlinks : chain.words.length + 1 ≤ links) (acc : σ) (op : Arithmetic)
    (rest : List Word) (hends : chain.EndsBefore rest) :
    Meets
      (operatorTail sink (primary sink (expressionWithin sink depth)) links
        acc)
      (op.word :: (chain.words ++ rest))
      (chain.feed sink (sink.entry (.operator (.arithmetic op)) acc))
      rest := by
  obtain ⟨fewer, rfl⟩ : ∃ fewer, links = fewer + 1 := ⟨links - 1, by omega⟩
  apply meets_operatorTail_link
  exact h depth fewer _ rest hdepth (by omega) hends

theorem readsChain (expression : Expression) :
    ReadsChain sink expression := by
  induction expression with
  | operand atom =>
      intro depth links acc rest _ _ hends
      have hprimary := meets_primary_operand sink
        (expressionWithin sink depth) atom acc rest hends.dot
      rw [hends.arithmetic] at hprimary
      exact hprimary.bind_self fun acc =>
        meets_operatorTail_done sink _ links acc hends.arithmetic
  | operandThen atom op chain ih =>
      intro depth links acc rest hdepth hlinks hends
      simp only [Expression.words, List.append_assoc, List.cons_append,
        List.length_append, List.length_cons] at hdepth hlinks ⊢
      have hatom := atom.words_length_pos
      have hprimary := meets_primary_operand sink
        (expressionWithin sink depth) atom acc
        (op.word :: (chain.words ++ rest)) (fun _ => startsDot_op op _)
      rw [startsArithmetic_op] at hprimary
      apply hprimary.bind
      intro acc _
      exact ih.meets_link depth links (by omega) (by omega) acc op rest
        ⟨hends.arithmetic, hends.dot⟩
  | group inner ih =>
      intro depth links acc rest hdepth _ hends
      simp only [Expression.words, List.append_assoc, List.cons_append,
        List.nil_append, List.length_append, List.length_cons,
        List.length_nil] at hdepth ⊢
      have hinner := ih.meets_expressionWithin depth (by omega)
        (sink.entry .opening acc) _
        (inner.endsBefore_cons (.mark ")") rest (by rfl) (by decide))
      exact (meets_primary_group sink _ acc hinner).bind_self fun acc =>
        meets_operatorTail_done sink _ links acc hends.arithmetic
  | groupThen inner op chain ihInner ihChain =>
      intro depth links acc rest hdepth hlinks hends
      simp only [Expression.words, List.append_assoc, List.cons_append,
        List.length_append, List.length_cons] at hdepth hlinks ⊢
      have hinner := ihInner.meets_expressionWithin depth (by omega)
        (sink.entry .opening acc) _
        (inner.endsBefore_cons (.mark ")") (op.word :: (chain.words ++ rest))
          (by rfl) (by decide))
      have hboth :=
        (meets_primary_group sink _ acc hinner).bind fun acc _ =>
          ihChain.meets_link depth links (by omega) (by omega) acc op rest
            ⟨hends.arithmetic, hends.dot⟩
      rw [bind_assoc] at hboth
      exact hboth
  | conditional cmp left right yes no ihLeft ihRight ihYes ihNo =>
      intro depth links acc rest hdepth _ hends
      have hwords : left.words.length + right.words.length +
          yes.words.length + no.words.length ≤ depth := by
        simp only [Expression.words, List.length_append, List.length_cons]
          at hdepth
        omega
      have hprimary := meets_primary_conditional sink
        (expressionWithin sink depth) acc cmp rest
        (ihLeft.meets_expressionWithin depth (by omega))
        (ihRight.meets_expressionWithin depth (by omega))
        (ihYes.meets_expressionWithin depth (by omega))
        (ihNo.meets_expressionWithin depth (by omega))
        ⟨hends.arithmetic, hends.dot⟩
      exact hprimary.bind_self fun acc =>
        meets_operatorTail_done sink _ links acc hends.arithmetic

/-- The run behind a derivation feeds its pieces to the sink. -/
theorem meets_expression
    (expression : Expression) (acc : σ) {rest : List Word}
    (hends : expression.EndsBefore rest) :
    Meets (Parser.expression sink acc) (expression.words ++ rest)
      (expression.feed sink acc) rest := by
  unfold Parser.expression
  apply meets_remaining
  intro budget hbudget
  rw [List.length_append] at hbudget
  exact (readsChain sink expression).meets_expressionWithin budget
    (by omega) acc rest hends

/-- The links behind a group that was read before. -/
theorem meets_chainTail
    (chain : Expression) (op : Arithmetic) (acc : σ) {rest : List Word}
    (hends : chain.EndsBefore rest) :
    Meets (chainTail sink acc) (op.word :: (chain.words ++ rest))
      (chain.feed sink (sink.entry (.operator (.arithmetic op)) acc))
      rest := by
  unfold chainTail
  apply meets_remaining
  intro budget hbudget
  rw [List.length_cons, List.length_append] at hbudget
  exact (readsChain sink chain).meets_link budget budget (by omega)
    (by omega) acc op rest hends

/-! ## From runs to derivations -/

section Success

variable {sink : Sink σ} {acc value : σ} {cursor after : Cursor}
  {words : List Word}

theorem fieldAccess_eq_ok
    {qualifier field : Token}
    (h : fieldAccess sink qualifier field acc cursor = .ok value after) :
    qualifier.kind ≠ .number ∧ field.kind = .identifier ∧ after = cursor := by
  unfold fieldAccess at h
  split at h
  next => cases h
  next hnumber =>
    cases hfield : field.kind
    case identifier =>
      refine ⟨hnumber, rfl, ?_⟩
      rw [hfield] at h
      cases hfed : sink.field qualifier.text field.text acc with
      | error error =>
          simp only [hfed] at h
          cases h
      | ok fed =>
          simp only [hfed] at h
          cases h
          rfl
    all_goals
      rw [hfield] at h
      cases h

theorem operand_eq_ok
    (hreads : cursor.Reads words) (hlexical : ∀ word ∈ words, word.Lexical)
    (hkind : words.head?.any (·.kind == .identifier) = true ∨
      words.head?.any (·.kind == .number) = true)
    (h : operand sink acc cursor = .ok value after) :
    ∃ atom rest, words = Operand.words atom ++ rest ∧ after.Reads rest ∧
      (atom.takesDot = true → startsDot rest = false) := by
  unfold operand at h
  obtain ⟨token, behind, htake, h⟩ := bind_eq_ok h
  obtain ⟨rest, rfl, hrest⟩ := take_eq_ok hreads htake
  have htoken : token.word.Lexical := hlexical _ (by simp)
  simp only [List.head?_cons, Option.any_some, beq_iff_eq] at hkind
  obtain ⟨seen, same, hsees, h⟩ := bind_eq_ok h
  obtain ⟨hseen, hsame⟩ := (meets_sees "." rest).of_ok hrest hsees
  cases hseen
  cases hdot : rest.head?.any (·.text == ".") with
  | true =>
      rw [hdot, if_pos rfl] at h
      obtain ⟨more, rfl, hmore⟩ := exists_of_sees .symbol
        (fun word hword => hlexical word (.tail _ hword)) (by decide) hdot
      obtain ⟨_, next, hadvance, h⟩ := bind_eq_ok h
      obtain ⟨-, hnext⟩ := (meets_advance _).of_ok hsame hadvance
      obtain ⟨field, last, hfield, h⟩ := bind_eq_ok h
      obtain ⟨rest', htail, hlast⟩ := take_eq_ok hnext hfield
      obtain ⟨hnumber, hname, rfl⟩ := fieldAccess_eq_ok h
      rw [List.tail_cons] at htail
      subst htail
      have hfieldLexical : field.word.Lexical := hmore _ (.head _)
      have hqualifier : token.kind = .identifier :=
        hkind.resolve_right hnumber
      refine ⟨.access ⟨token.text, ?_⟩ ⟨field.text, ?_⟩, rest', ?_, hlast,
        fun hno => by cases hno⟩
      · exact hqualifier ▸ htoken
      · exact hname ▸ hfieldLexical
      · simp [Operand.words, Name.word, Token.word, Word.mark, hqualifier,
          hname]
  | false =>
      rw [hdot] at h
      rcases hkind with hkind | hkind
      · have hne : token.kind ≠ .number := by
          rw [show token.kind = .identifier from hkind]
          decide
        simp only [Bool.false_eq_true, if_false, hne] at h
        obtain ⟨op, here, hop, h⟩ := bind_eq_ok h
        obtain ⟨-, hhere⟩ := (meets_currentArithmetic rest).of_ok hsame hop
        obtain ⟨-, hafter⟩ := (meets_ofScope _ rest).of_ok hhere h
        refine ⟨.bare ⟨token.text, ?_⟩, rest, ?_, hafter, fun _ => hdot⟩
        · exact hkind ▸ htoken
        · simp [Operand.words, Name.word, ← hkind, Token.word]
      · have heq : token.kind = .number := hkind
        simp only [Bool.false_eq_true, if_false, heq, if_true] at h
        obtain ⟨-, hafter⟩ := (meets_pure _ rest).of_ok hsame h
        refine ⟨.number ⟨token.text, ?_⟩, rest, ?_, hafter, fun _ => hdot⟩
        · exact hkind ▸ htoken
        · simp [Operand.words, Numeral.word, ← hkind, Token.word]

/-- What was read as a primary, in front of `rest`: a link may follow unless it
is a conditional. -/
inductive Leads : Expression → List Word → Prop
  | operand {atom : Operand} {rest : List Word}
      (hdot : atom.takesDot = true → startsDot rest = false) :
      Leads (.operand atom) rest
  | group {inner : Expression} {rest : List Word} :
      Leads (.group inner) rest
  | conditional {cmp : Comparison} {left right yes no : Expression}
      {rest : List Word} (hends : no.EndsBefore rest) :
      Leads (.conditional cmp left right yes no) rest

theorem Leads.endsBefore
    {expression : Expression} {rest : List Word} (h : Leads expression rest)
    (harithmetic : startsArithmetic rest = false) :
    expression.EndsBefore rest := by
  cases h with
  | operand hdot => exact ⟨harithmetic, hdot⟩
  | group => exact ⟨harithmetic, fun hno => by cases hno⟩
  | conditional hends => exact ⟨hends.arithmetic, hends.dot⟩

theorem Leads.exists_link
    {expression chain : Expression} {op : Arithmetic} {rest : List Word}
    (h : Leads expression (op.word :: (chain.words ++ rest)))
    (hends : chain.EndsBefore rest) :
    ∃ whole : Expression,
      expression.words ++ op.word :: (chain.words ++ rest) =
        whole.words ++ rest ∧ whole.EndsBefore rest := by
  cases h with
  | @operand atom _ _ =>
      refine ⟨.operandThen atom op chain, ?_, hends.arithmetic, hends.dot⟩
      simp [Expression.words]
  | @group inner _ =>
      refine ⟨.groupThen inner op chain, ?_, hends.arithmetic, hends.dot⟩
      simp [Expression.words]
  | conditional hno =>
      have harithmetic := hno.arithmetic
      rw [startsArithmetic_op] at harithmetic
      cases harithmetic

/-- What was read within a budget has a derivation that ends where the reading
did. -/
def Derives (parser : σ → Parser σ) (budget : Nat)
    (Ends : Expression → List Word → Prop) : Prop :=
  ∀ ⦃acc value : σ⦄ ⦃cursor after : Cursor⦄ ⦃words : List Word⦄,
    cursor.Reads words → (∀ word ∈ words, word.Lexical) →
    words.length ≤ budget → parser acc cursor = .ok value after →
    ∃ expression rest, words = Expression.words expression ++ rest ∧
      after.Reads rest ∧ Ends expression rest

theorem group_eq_ok
    {inner : σ → Parser σ} {budget : Nat}
    (hinner : Derives inner budget Expression.EndsBefore) {rest : List Word}
    (hreads : cursor.Reads (.mark "(" :: rest))
    (hlexical : ∀ word ∈ rest, word.Lexical) (hlength : rest.length ≤ budget)
    (h : group sink inner acc cursor = .ok value after) :
    ∃ expression rest', Word.mark "(" :: rest =
      Expression.words expression ++ rest' ∧ after.Reads rest' ∧
        Leads expression rest' := by
  unfold group at h
  obtain ⟨_, next, hadvance, h⟩ := bind_eq_ok h
  obtain ⟨-, hnext⟩ := (meets_advance _).of_ok hreads hadvance
  obtain ⟨_, last, hrun, h⟩ := bind_eq_ok h
  obtain ⟨body, close, hwords, hlast, -⟩ :=
    hinner hnext hlexical hlength hrun
  simp only [List.tail_cons] at hwords
  subst hwords
  obtain ⟨_, end_, hclose, h⟩ := bind_eq_ok h
  obtain ⟨rest', rfl, hend, -⟩ :=
    expect_eq_ok .symbol hlast
      (fun word hword => hlexical word (by simp [hword])) (by decide) hclose
  obtain ⟨-, hafter⟩ := (meets_pure _ rest').of_ok hend h
  refine ⟨.group body, rest', ?_, hafter, .group⟩
  simp [Expression.words, Word.mark]

theorem conditional_eq_ok
    {inner : σ → Parser σ} {budget : Nat}
    (hinner : Derives inner budget Expression.EndsBefore)
    (hreads : cursor.Reads words) (hlexical : ∀ word ∈ words, word.Lexical)
    (hlength : words.length ≤ budget + 1)
    (h : conditional sink inner acc cursor = .ok value after) :
    ∃ expression rest, words = Expression.words expression ++ rest ∧
      after.Reads rest ∧ Leads expression rest := by
  unfold conditional at h
  obtain ⟨_, here, hif, h⟩ := bind_eq_ok h
  obtain ⟨rest, rfl, hhere, hlexical⟩ :=
    expect_eq_ok .reserved hreads hlexical (by decide) hif
  obtain ⟨_, inside, hopen, h⟩ := bind_eq_ok h
  obtain ⟨rest, rfl, hinside, hlexical⟩ :=
    expect_eq_ok .symbol hhere hlexical (by decide) hopen
  simp only [List.length_cons] at hlength
  obtain ⟨_, atComparison, hleft, h⟩ := bind_eq_ok h
  obtain ⟨left, rest, rfl, hatComparison, -⟩ :=
    hinner hinside hlexical (by omega) hleft
  replace hlexical := fun word hword =>
    hlexical word (List.mem_append_right _ hword)
  simp only [List.length_append] at hlength
  obtain ⟨found, same, hfound, h⟩ := bind_eq_ok h
  obtain ⟨hcomparison, hsame⟩ :=
    (meets_currentComparison rest).of_ok hatComparison hfound
  cases hcomparison
  cases hcmp : rest.head?.bind Word.comparison? with
  | none =>
      rw [hcmp] at h
      exact absurd h (unexpected_ne_ok _ same after value)
  | some cmp =>
      rw [hcmp] at h
      cases rest with
      | nil => simp at hcmp
      | cons word rest =>
          have hword : word = cmp.word := Word.eq_of_comparison? hcmp
          subst hword
          replace hlexical := fun word hword => hlexical word (.tail _ hword)
          simp only [List.length_cons] at hlength
          obtain ⟨_, atRight, hadvance, h⟩ := bind_eq_ok h
          obtain ⟨-, hatRight⟩ := (meets_advance _).of_ok hsame hadvance
          obtain ⟨_, atClose, hright, h⟩ := bind_eq_ok h
          obtain ⟨right, rest, hwords, hatClose, -⟩ :=
            hinner hatRight hlexical (by simp; omega) hright
          simp only [List.tail_cons] at hwords
          subst hwords
          replace hlexical := fun word hword =>
            hlexical word (List.mem_append_right _ hword)
          simp only [List.length_append] at hlength
          obtain ⟨_, atYes, hclose, h⟩ := bind_eq_ok h
          obtain ⟨rest, rfl, hatYes, hlexical⟩ :=
            expect_eq_ok .symbol hatClose hlexical (by decide) hclose
          simp only [List.length_cons] at hlength
          obtain ⟨_, atElse, hyes, h⟩ := bind_eq_ok h
          obtain ⟨yes, rest, rfl, hatElse, -⟩ :=
            hinner hatYes hlexical (by omega) hyes
          replace hlexical := fun word hword =>
            hlexical word (List.mem_append_right _ hword)
          simp only [List.length_append] at hlength
          obtain ⟨_, atNo, helse, h⟩ := bind_eq_ok h
          obtain ⟨rest, rfl, hatNo, hlexical⟩ :=
            expect_eq_ok .reserved hatElse hlexical (by decide) helse
          simp only [List.length_cons] at hlength
          obtain ⟨_, atEnd, hno, h⟩ := bind_eq_ok h
          obtain ⟨no, rest, rfl, hatEnd, hends⟩ :=
            hinner hatNo hlexical (by omega) hno
          obtain ⟨-, hafter⟩ := (meets_pure _ rest).of_ok hatEnd h
          refine ⟨.conditional cmp left right yes no, rest, ?_, hafter,
            .conditional hends⟩
          simp [Expression.words, Word.mark, Word.keyword]

theorem primary_derives
    (sink : Sink σ) {inner : σ → Parser σ} {budget : Nat}
    (hinner : Derives inner budget Expression.EndsBefore) :
    Derives (primary sink inner) (budget + 1) Leads := by
  intro acc value cursor after words hreads hlexical hlength h
  unfold primary at h
  obtain ⟨_, here, hidentifier, hnumbers⟩ := bind_eq_ok h
  obtain ⟨hseen, hhere⟩ :=
    (meets_seesKind .identifier words).of_ok hreads hidentifier
  cases hseen
  obtain ⟨_, here', hnumber, hbranch⟩ := bind_eq_ok hnumbers
  obtain ⟨hseen, hhere'⟩ :=
    (meets_seesKind .number words).of_ok hhere hnumber
  cases hseen
  clear h hnumbers
  split at hbranch
  next hkind =>
    rw [Bool.or_eq_true] at hkind
    obtain ⟨atom, rest, hwords, hafter, hdot⟩ :=
      operand_eq_ok hhere' hlexical hkind hbranch
    exact ⟨.operand atom, rest, hwords, hafter, .operand hdot⟩
  next =>
    obtain ⟨_, here, hparen, hgroup⟩ := bind_eq_ok hbranch
    obtain ⟨hseen, hhere⟩ := (meets_sees "(" words).of_ok hhere' hparen
    cases hseen
    clear hbranch
    split at hgroup
    next hopen =>
      obtain ⟨rest, rfl, hrest⟩ :=
        exists_of_sees .symbol hlexical (by decide) hopen
      exact group_eq_ok hinner hhere hrest (by simpa using hlength) hgroup
    next =>
      obtain ⟨_, here', hif, hconditional⟩ := bind_eq_ok hgroup
      obtain ⟨hseen, hhere'⟩ := (meets_sees "if" words).of_ok hhere hif
      cases hseen
      split at hconditional
      next =>
        exact conditional_eq_ok hinner hhere' hlexical hlength hconditional
      next => exact absurd hconditional (unexpected_ne_ok _ here' after value)

theorem operatorTail_eq_ok
    {next : σ → Parser σ} {budget : Nat} (hnext : Derives next budget Leads)
    (links : Nat) {expression : Expression} (hleads : Leads expression words)
    (hreads : cursor.Reads words) (hlexical : ∀ word ∈ words, word.Lexical)
    (hbudget : words.length ≤ budget) (hlinks : words.length ≤ links)
    (h : operatorTail sink next links acc cursor = .ok value after) :
    ∃ whole rest, expression.words ++ words = Expression.words whole ++ rest ∧
      after.Reads rest ∧ whole.EndsBefore rest := by
  induction links generalizing expression words acc cursor with
  | zero =>
      obtain rfl : words = [] := by simpa using hlinks
      obtain ⟨-, hafter⟩ := (meets_pure acc []).of_ok hreads h
      exact ⟨expression, [], rfl, hafter, expression.endsBefore_nil⟩
  | succ links ih =>
      unfold operatorTail at h
      obtain ⟨_, here, hfound, h⟩ := bind_eq_ok h
      obtain ⟨hseen, hhere⟩ :=
        (meets_currentArithmetic words).of_ok hreads hfound
      cases hseen
      cases hop : words.head?.bind Word.arithmetic? with
      | none =>
          rw [hop] at h
          obtain ⟨-, hafter⟩ := (meets_pure acc words).of_ok hhere h
          refine ⟨expression, words, rfl, hafter, hleads.endsBefore ?_⟩
          simp [startsArithmetic, hop]
      | some op =>
          rw [hop] at h
          cases words with
          | nil => simp at hop
          | cons word rest =>
              have hword : word = op.word := Word.eq_of_arithmetic? hop
              subst hword
              replace hlexical := fun word hword =>
                hlexical word (.tail _ hword)
              simp only [List.length_cons] at hbudget hlinks
              obtain ⟨_, atNext, hadvance, h⟩ := bind_eq_ok h
              obtain ⟨-, hatNext⟩ := (meets_advance _).of_ok hhere hadvance
              obtain ⟨_, atTail, hrun, h⟩ := bind_eq_ok h
              obtain ⟨head, rest', hrest, hatTail, hhead⟩ :=
                hnext hatNext hlexical (by simp; omega) hrun
              simp only [List.tail_cons] at hrest
              subst hrest
              simp only [List.length_append] at hbudget hlinks
              obtain ⟨chain, rest, hchain, hafter, hends⟩ :=
                ih hhead hatTail
                  (fun word hword =>
                    hlexical word (List.mem_append_right _ hword))
                  (by omega) (by omega) h
              rw [hchain] at hleads ⊢
              obtain ⟨whole, hwhole, hwholeEnds⟩ := hleads.exists_link hends
              exact ⟨whole, rest, hwhole, hafter, hwholeEnds⟩

theorem expressionWithin_derives (sink : Sink σ) (budget : Nat) :
    Derives (expressionWithin sink budget) budget Expression.EndsBefore := by
  induction budget with
  | zero =>
      intro acc value cursor after words _ _ _ h
      exact absurd h (unexpected_ne_ok _ cursor after value)
  | succ budget ih =>
      intro acc value cursor after words hreads hlexical hlength h
      unfold expressionWithin at h
      obtain ⟨_, middle, hprimary, h⟩ := bind_eq_ok h
      have hnext := primary_derives sink ih
      obtain ⟨head, rest, hwords, hmiddle, hleads⟩ :=
        hnext hreads hlexical hlength hprimary
      subst hwords
      have hpos := head.words_length_pos
      simp only [List.length_append] at hlength
      exact operatorTail_eq_ok hnext budget hleads hmiddle
        (fun word hword => hlexical word (List.mem_append_right _ hword))
        (by omega) (by omega) h

/-- What an expression took has a derivation. -/
theorem expression_eq_ok
    (hreads : cursor.Reads words) (hlexical : ∀ word ∈ words, word.Lexical)
    (h : expression sink acc cursor = .ok value after) :
    ∃ derived rest, words = Expression.words derived ++ rest ∧
      after.Reads rest ∧ derived.EndsBefore rest :=
  expressionWithin_derives sink cursor.remaining hreads hlexical
    hreads.length_le_remaining h

/-- The links behind a group that was read before make one expression with
it. -/
theorem chainTail_eq_ok
    (hreads : cursor.Reads words) (hlexical : ∀ word ∈ words, word.Lexical)
    (inner : Expression) (h : chainTail sink acc cursor = .ok value after) :
    ∃ whole rest, (Expression.group inner).words ++ words =
      Expression.words whole ++ rest ∧ after.Reads rest ∧
        whole.EndsBefore rest :=
  operatorTail_eq_ok
    (primary_derives sink (expressionWithin_derives sink cursor.remaining))
    cursor.remaining .group hreads hlexical
    (Nat.le_succ_of_le hreads.length_le_remaining) hreads.length_le_remaining h

end Success

end Parser

end SelectChain

import SelectChain.Proofs.CursorReading
import Mathlib.Tactic

/-!
# Two ways to write an expression

An expression of a column is written as it is read, from left to right, and its
names are resolved from the operator in front of them and the one at the
lookahead.  The right-hand side of a binding is collected on a stack first and
resolved from the right, by what stands beside a name on the stack.

The two are one run seen twice.  A stack, together with the operator behind it,
determines the draft that the direct run has written by then, or that it has
failed: this is `Stack.draft?`.  `Tracks` says that running the grammar commutes
with it.  The rules for `Tracks` follow the grammar, and they hold of every
cursor, with unreadable runs ahead and whatever its tokens are.

The budget has to cover the items ahead, since a chain that is cut off in front of
an operator is written differently.  `Spends` counts what each production takes.
-/

namespace SelectChain

open SelectChain.Parser

/-! ## What is left ahead -/

namespace Parser

variable {α β : Type}

/-- A run that succeeds has at least `count` items less ahead than before. -/
def Spends (count : Nat) (parser : Parser α) : Prop :=
  ∀ cursor value after, parser cursor = .ok value after →
    after.remaining + count ≤ cursor.remaining

theorem Spends.mono
    {count fewer : Nat} {parser : Parser α} (h : Spends count parser)
    (hle : fewer ≤ count) : Spends fewer parser := by
  intro cursor value after hrun
  have hspent := h cursor value after hrun
  omega

theorem Spends.bind
    {first second : Nat} {parser : Parser α} {next : α → Parser β}
    (hfirst : Spends first parser) (hsecond : ∀ value, Spends second (next value)) :
    Spends (first + second) (parser >>= next) := by
  intro cursor value after hrun
  obtain ⟨middle, between, hparser, hnext⟩ := bind_eq_ok hrun
  have hspent := hfirst cursor middle between hparser
  have hspent' := hsecond middle between value after hnext
  omega

/-- What follows may spend nothing. -/
theorem Spends.then
    {count : Nat} {parser : Parser α} {next : α → Parser β}
    (hfirst : Spends count parser) (hsecond : ∀ value, Spends 0 (next value)) :
    Spends count (parser >>= next) :=
  hfirst.bind hsecond

theorem Spends.after
    {count : Nat} {parser : Parser α} {next : α → Parser β}
    (hfirst : Spends 0 parser) (hsecond : ∀ value, Spends count (next value)) :
    Spends count (parser >>= next) :=
  (hfirst.bind hsecond).mono (Nat.zero_add count).ge

theorem spends_pure (value : α) : Spends 0 (pure value) := by
  intro cursor _ after hrun
  cases hrun
  exact Nat.le_refl _

theorem spends_look (look : Cursor → α) {parser : Parser α}
    (h : ∀ cursor, parser cursor = .ok (look cursor) cursor) :
    Spends 0 parser := by
  intro cursor value after hrun
  rw [h] at hrun
  cases hrun
  exact Nat.le_refl _

theorem spends_sees (text : String) : Spends 0 (sees text) :=
  spends_look _ fun _ => rfl

theorem spends_currentArithmetic : Spends 0 currentArithmetic :=
  spends_look _ currentArithmetic_apply

theorem spends_unexpected (count : Nat) (expected : Expectation) :
    Spends count (unexpected expected : Parser α) := by
  intro cursor value after hrun
  exact absurd hrun (unexpected_ne_ok expected cursor after value)

theorem spends_ofScope (verdict : Except ScopeError α) :
    Spends 0 (ofScope verdict) := by
  cases verdict with
  | ok value => exact spends_pure value
  | error error =>
      intro cursor value after hrun
      cases hrun

end Parser

theorem Cursor.remaining_of_pull
    {cursor after : Cursor} {items : List Item}
    (h : cursor.pull items = .ok () after) : after.remaining ≤ items.length := by
  induction items generalizing cursor with
  | nil =>
      cases h
      exact Nat.le_refl _
  | cons item items ih =>
      cases item with
      | error error => cases h
      | ok token =>
          by_cases htrivia : token.isTrivia = true
          · simp only [pull, htrivia, if_true] at h
            exact (ih h).trans (Nat.le_succ _)
          · simp only [pull, htrivia, if_false, Bool.false_eq_true] at h
            cases h
            exact Nat.le_refl _

namespace Parser

theorem spends_advance : Spends 0 advance := by
  intro cursor _ after hrun
  have hle := Cursor.remaining_of_pull hrun
  exact hle.trans (Nat.le_add_right _ _)

theorem remaining_lt_of_advance
    {cursor after : Cursor} (hcurrent : cursor.current.isSome = true)
    (hrun : advance cursor = .ok () after) :
    after.remaining < cursor.remaining := by
  have hle := Cursor.remaining_of_pull hrun
  simp only [Cursor.remaining, hcurrent, if_true] at hle ⊢
  omega

theorem spends_take (expected : Expectation) : Spends 1 (take expected) := by
  intro cursor token after hrun
  unfold take at hrun
  rw [bind_ok (get_apply cursor)] at hrun
  cases hcurrent : cursor.current with
  | none =>
      rw [hcurrent] at hrun
      exact absurd hrun (unexpected_ne_ok expected cursor after token)
  | some found =>
      rw [hcurrent] at hrun
      obtain ⟨_, middle, hadvance, hpure⟩ := bind_eq_ok hrun
      cases hpure
      exact remaining_lt_of_advance (by rw [hcurrent]; rfl) hadvance

theorem current_of_sees {cursor : Cursor} {text : String}
    (h : cursor.current.any (·.text == text) = true) :
    cursor.current.isSome = true := by
  cases hcurrent : cursor.current with
  | none => simp [hcurrent] at h
  | some token => rfl

theorem spends_expect (text : String) : Spends 1 (expect text) := by
  intro cursor _ after hrun
  unfold expect at hrun
  have hsees : sees text cursor =
      .ok (cursor.current.any (·.text == text)) cursor := rfl
  rw [bind_ok hsees] at hrun
  split at hrun
  next hseen => exact remaining_lt_of_advance (current_of_sees hseen) hrun
  next => exact absurd hrun (unexpected_ne_ok _ cursor after ())

section Productions

variable {σ : Type} (sink : Sink σ)

theorem spends_fieldAccess (qualifier field : Token) (acc : σ) :
    Spends 0 (fieldAccess sink qualifier field acc) := by
  unfold fieldAccess
  split
  · exact spends_ofScope _
  · split
    · exact spends_ofScope _
    · exact spends_ofScope _
    · intro cursor value after hrun
      cases hrun

theorem spends_operand (acc : σ) : Spends 1 (operand sink acc) := by
  unfold operand
  apply (spends_take _).then
  intro token
  apply (spends_sees _).after
  intro dot
  split
  · apply spends_advance.then
    intro _
    apply Spends.mono _ (Nat.zero_le 1)
    apply (spends_take _).then
    intro field
    exact spends_fieldAccess sink token field acc
  · split
    · exact spends_pure _
    · exact spends_currentArithmetic.then fun _ => spends_ofScope _

variable {inner : σ → Parser σ} (hinner : ∀ acc, Spends 0 (inner acc))

include hinner

theorem spends_group (acc : σ) : Spends 1 (group sink inner acc) := by
  unfold group
  apply spends_advance.after
  intro _
  apply (hinner _).after
  intro acc
  exact (spends_expect _).then fun _ => spends_pure _

theorem spends_conditional (acc : σ) :
    Spends 1 (conditional sink inner acc) := by
  have hexpect : ∀ text, Spends 0 (expect text) := fun text =>
    (spends_expect text).mono (Nat.zero_le 1)
  unfold conditional
  apply (spends_expect _).then
  intro _
  apply (hexpect _).then
  intro _
  apply (hinner _).then
  intro acc
  apply (spends_look _ currentComparison_apply).then
  intro found
  cases found with
  | none => exact spends_unexpected 0 _
  | some op =>
      apply spends_advance.then
      intro _
      apply (hinner _).then
      intro acc
      apply (hexpect _).then
      intro _
      apply (hinner _).then
      intro acc
      apply (hexpect _).then
      intro _
      exact (hinner _).then fun _ => spends_pure _

theorem spends_primary (acc : σ) : Spends 1 (primary sink inner acc) := by
  unfold primary
  apply (spends_look _ (seesKind_apply _)).after
  intro identifier
  apply (spends_look _ (seesKind_apply _)).after
  intro number
  split
  · exact spends_operand sink acc
  · apply (spends_sees _).after
    intro paren
    split
    · exact spends_group sink hinner acc
    · apply (spends_sees _).after
      intro keyword
      split
      · exact spends_conditional sink hinner acc
      · exact spends_unexpected 1 _

end Productions

variable {σ : Type} (sink : Sink σ)

theorem spends_operatorTail
    {next : σ → Parser σ} (hnext : ∀ acc, Spends 0 (next acc)) (links : Nat)
    (acc : σ) : Spends 0 (operatorTail sink next links acc) := by
  induction links generalizing acc with
  | zero => exact spends_pure acc
  | succ links ih =>
      unfold operatorTail
      apply spends_currentArithmetic.then
      intro found
      cases found with
      | none => exact spends_pure acc
      | some op =>
          apply spends_advance.then
          intro _
          exact (hnext _).then ih

theorem spends_expressionWithin (budget : Nat) (acc : σ) :
    Spends 0 (expressionWithin sink budget acc) := by
  induction budget generalizing acc with
  | zero => exact spends_unexpected 0 _
  | succ budget ih =>
      have hnext : ∀ acc,
          Spends 0 (primary sink (expressionWithin sink budget) acc) :=
        fun acc => (spends_primary sink ih acc).mono (Nat.zero_le 1)
      unfold expressionWithin
      exact (hnext acc).then (spends_operatorTail sink hnext budget)

end Parser

/-! ## The draft behind a stack -/

theorem Projection.push_push (projection : Projection) (first second : String) :
    (projection.push first).push second = projection.push (first ++ second) := by
  simp [push, String.append_assoc]

theorem Entry.ne_dot_of_piece
    {scope : Scope} {entry : Entry}
    (h : ∀ left right, entry.piece scope left right = .ok entry.verbatim) :
    entry ≠ .dot := by
  rintro rfl
  exact absurd (h none none) (by simp [piece, verbatim])

namespace Stack

/-- The text of a stack in front of `right`, if all of its names resolve. -/
def text? (scope : Scope) (right : Option Entry) : Stack → Option String
  | [] => some ""
  | entry :: below =>
      (text? scope (some entry) below).bind fun done =>
        (entry.piece scope below.head? right).toOption.map (done ++ ·)

/-- Unwinding goes from the right and writes the same text. -/
theorem unwindOnto_text
    (scope : Scope) (right : Option Entry) (depth : Nat) (done : Fragment)
    (stack : Stack) :
    (unwindOnto scope right depth done stack).1.toOption.map Fragment.text =
      (stack.text? scope right).map (· ++ done.text) := by
  induction stack generalizing right depth done with
  | nil => simp [unwindOnto, text?, Except.toOption]
  | cons entry below ih =>
      rw [unwindOnto, text?]
      cases entry.piece scope below.head? right with
      | error error => simp [Except.toOption]
      | ok text =>
          simp only [ih]
          cases text? scope (some entry) below with
          | none => rfl
          | some before => simp [Except.toOption, String.append_assoc]

theorem unwind_ok_iff (scope : Scope) (stack : Stack) (text : String) :
    (∃ fragment, (stack.unwind scope).1 = .ok fragment ∧
        fragment.text = text) ↔
      stack.text? scope none = some text := by
  have htext : (stack.unwind scope).1.toOption.map Fragment.text =
      stack.text? scope none := by
    rw [unwind, unwindOnto_text]
    simp
  rw [← htext]
  cases (stack.unwind scope).1 with
  | error error => simp [Except.toOption]
  | ok fragment => simp [Except.toOption]

/-- All that counts to the right of a stack is whether an arithmetic operator
stands there, as long as it is no dot. -/
theorem text?_congr
    (scope : Scope) {right right' : Option Entry} (stack : Stack)
    (hright : right ≠ some .dot) (hright' : right' ≠ some .dot)
    (hjoins : Entry.joins right = Entry.joins right') :
    stack.text? scope right = stack.text? scope right' := by
  cases stack with
  | nil => rfl
  | cons entry below =>
      have hpiece : entry.piece scope below.head? right =
          entry.piece scope below.head? right' := by
        cases entry <;> simp [Entry.piece, hright, hright', hjoins]
      rw [text?, text?, hpiece]

/-- The draft that has been written on top of `base` when a stack has been
collected, in front of the operator `ahead`; there is none if a name has failed to
resolve. -/
def draft? (scope : Scope) (base : Projection) (ahead : Option Arithmetic)
    (stack : Stack) : Option Draft :=
  (stack.text? scope (ahead.map fun op => .operator (.arithmetic op))).map
    fun text => ⟨base.push text, Entry.joins stack.head?⟩

section Drafts

variable (scope : Scope) (base : Projection)

theorem text?_plain (stack : Stack) {entry : Entry} (hdot : entry ≠ .dot)
    {ahead : Option Arithmetic} (hahead : entry.isArithmetic = ahead.isSome) :
    stack.text? scope (some entry) =
      stack.text? scope (ahead.map fun op => .operator (.arithmetic op)) := by
  apply text?_congr
  · simpa using hdot
  · cases ahead <;> simp
  · cases ahead <;> exact hahead

/-- An entry that is copied as it is. -/
theorem draft?_entry
    {stack : Stack} {entry : Entry} {ahead : Option Arithmetic}
    (hpiece : ∀ left right, entry.piece scope left right = .ok entry.verbatim)
    (hahead : entry.isArithmetic = ahead.isSome)
    (behind : Option Arithmetic) :
    draft? scope base behind (entry :: stack) =
      (draft? scope base ahead stack).map
        ((Sink.direct scope).entry entry) := by
  have hdot := Entry.ne_dot_of_piece hpiece
  rw [draft?, draft?, text?, hpiece, text?_plain scope stack hdot hahead]
  cases stack.text? scope _ with
  | none => rfl
  | some text =>
      simp only [Except.toOption, Option.map_some, Option.bind_some,
        Sink.direct, Projection.push_push]
      rfl

theorem draft?_name
    {stack : Stack} (hstack : stack.head? ≠ some .dot) (name : String)
    (behind : Option Arithmetic) :
    draft? scope base behind (.identifier name :: stack) =
      (draft? scope base none stack).bind fun draft =>
        ((Sink.direct scope).name name behind.isSome draft).toOption := by
  have hbehind : (behind.map fun op => Entry.operator (.arithmetic op)) ≠
      some .dot := by
    cases behind <;> simp
  have hjoins : Entry.joins (behind.map fun op => .operator (.arithmetic op)) =
      behind.isSome := by
    cases behind <;> rfl
  have hplain : stack.text? scope (some (.identifier name)) =
      stack.text? scope none := text?_congr scope stack (by simp) (by simp) rfl
  rw [draft?, draft?, text?, hplain, Option.map_none]
  cases stack.text? scope none with
  | none => rfl
  | some text =>
      simp only [Entry.piece, hstack, hbehind, if_false, hjoins,
        Option.map_some, Option.bind_some, Sink.direct]
      cases scope.resolve name (Entry.joins stack.head? || behind.isSome) with
      | error error => rfl
      | ok piece =>
          simp only [Except.toOption, Option.map_some, ← Projection.push_push]
          rfl

theorem draft?_field
    {stack : Stack} (hstack : stack.head? ≠ some .dot)
    (qualifier field : String) (behind : Option Arithmetic) :
    draft? scope base behind
        (.identifier field :: .dot :: .identifier qualifier :: stack) =
      (draft? scope base none stack).bind fun draft =>
        ((Sink.direct scope).field qualifier field draft).toOption := by
  have hplain : stack.text? scope (some (.identifier qualifier)) =
      stack.text? scope none := text?_congr scope stack (by simp) (by simp) rfl
  rw [draft?, draft?, text?, text?, text?, hplain, Option.map_none]
  cases stack.text? scope none with
  | none => rfl
  | some text =>
      simp only [Entry.piece, hstack, if_false, List.head?_cons, if_true,
        Option.map_some, Option.bind_some, Sink.direct]
      cases scope.requireParameter qualifier with
      | error error => rfl
      | ok _ =>
          simp only [Except.map, Except.toOption, Option.map_some,
            Option.bind_some, String.append_empty, ← Projection.push_push]
          rfl

end Drafts

end Stack

/-! ## One run seen twice -/

namespace Parser

variable {α β : Type}

/-- The value and the cursor of a run that succeeded. -/
def settled : EStateM.Result Fault Cursor α → Option (α × Cursor)
  | .ok value cursor => some (value, cursor)
  | .error _ _ => none

theorem settled_bind (parser : Parser α) (next : α → Parser β)
    (cursor : Cursor) :
    settled ((parser >>= next) cursor) =
      (settled (parser cursor)).bind fun result =>
        settled (next result.1 result.2) := by
  cases hrun : parser cursor with
  | ok value after => rw [bind_ok hrun]; rfl
  | error fault after => rw [bind_error hrun]; rfl

theorem settled_eq_some_iff
    {result : EStateM.Result Fault Cursor α} {value : α} {after : Cursor} :
    settled result = some (value, after) ↔ result = .ok value after := by
  cases result <;> simp [settled]

theorem settled_ofScope (verdict : Except ScopeError α) (cursor : Cursor) :
    settled (ofScope verdict cursor) =
      verdict.toOption.map fun value => (value, cursor) := by
  cases verdict <;> rfl

theorem settled_unexpected (expected : Expectation) (cursor : Cursor) :
    settled ((unexpected expected : Parser α) cursor) = none := by
  cases hrun : (unexpected expected : Parser α) cursor with
  | ok value after =>
      exact absurd hrun (unexpected_ne_ok expected cursor after value)
  | error fault after => rfl

end Parser

def Cursor.arithmetic? (cursor : Cursor) : Option Arithmetic :=
  (cursor.current.map Token.word).bind Word.arithmetic?

section Tracking

variable (scope : Scope) (base : Projection)

/-- Writing on from the draft of a stack comes to the draft of the stack that is
collected, at the same cursor, and fails if the collecting fails or comes to a
stack without a draft. -/
def Tracks (before : Option Arithmetic) (after : Cursor → Option Arithmetic)
    (stack : Stack) (cursor : Cursor) (direct : Draft → Parser Draft)
    (collect : Parser Stack) : Prop :=
  ((stack.draft? scope base before).bind fun draft =>
      settled (direct draft cursor)) =
    (settled (collect cursor)).bind fun result =>
      (result.1.draft? scope base (after result.2)).map (·, result.2)

variable {scope base} {before : Option Arithmetic}
  {after : Cursor → Option Arithmetic} {stack : Stack} {cursor : Cursor}

theorem tracks_pure (h : after cursor = before) :
    Tracks scope base before after stack cursor pure (pure stack) := by
  have hpure : ∀ (γ : Type) (value : γ),
      settled ((pure value : Parser γ) cursor) = some (value, cursor) :=
    fun _ _ => rfl
  unfold Tracks
  simp only [hpure, Option.bind_some, h]
  cases stack.draft? scope base before <;> rfl

theorem tracks_fail
    {direct : Draft → Parser Draft} {collect : Parser Stack}
    (hdirect : ∀ draft, settled (direct draft cursor) = none)
    (hcollect : settled (collect cursor) = none) :
    Tracks scope base before after stack cursor direct collect := by
  unfold Tracks
  simp [hdirect, hcollect]

/-- A step of both runs that writes nothing. -/
theorem Tracks.common
    {α : Type} {parser : Parser α} {direct : α → Draft → Parser Draft}
    {collect : α → Parser Stack}
    (h : ∀ value middle, parser cursor = .ok value middle →
      Tracks scope base before after stack middle (direct value)
        (collect value)) :
    Tracks scope base before after stack cursor
      (fun draft => parser >>= fun value => direct value draft)
      (parser >>= collect) := by
  cases hrun : parser cursor with
  | ok value middle =>
      have hnext := h value middle hrun
      unfold Tracks at hnext ⊢
      simpa only [bind_ok hrun] using hnext
  | error fault middle =>
      apply tracks_fail
      · intro draft
        rw [bind_error hrun]
        rfl
      · rw [bind_error hrun]
        rfl

theorem Tracks.bind
    {between : Cursor → Option Arithmetic} {direct next : Draft → Parser Draft}
    {collect : Parser Stack} {collectNext : Stack → Parser Stack}
    (hfirst : Tracks scope base before between stack cursor direct collect)
    (hnext : ∀ later middle, collect cursor = .ok later middle →
      Tracks scope base (between middle) after later middle next
        (collectNext later)) :
    Tracks scope base before after stack cursor
      (fun draft => direct draft >>= next) (collect >>= collectNext) := by
  unfold Tracks at hfirst ⊢
  simp only [settled_bind]
  rw [← Option.bind_assoc, hfirst, Option.bind_assoc, Option.bind_assoc]
  cases hrun : collect cursor with
  | error fault middle => rfl
  | ok later middle =>
      have hlater := hnext later middle hrun
      unfold Tracks at hlater
      simpa [settled, Option.bind_map, Function.comp_def] using hlater

/-- An entry that is written on one side and pushed on the other. -/
theorem Tracks.entry
    {entry : Entry} {ahead : Option Arithmetic} {direct : Draft → Parser Draft}
    {collect : Parser Stack}
    (hpiece : ∀ left right, entry.piece scope left right = .ok entry.verbatim)
    (hahead : entry.isArithmetic = before.isSome)
    (h : Tracks scope base ahead after (entry :: stack) cursor direct collect) :
    Tracks scope base before after stack cursor
      (fun draft => direct ((Sink.direct scope).entry entry draft)) collect := by
  unfold Tracks at h ⊢
  rw [← h, Stack.draft?_entry scope base hpiece hahead, Option.bind_map]
  rfl

/-! ## The grammar, written and collected -/

/-- A name is judged at once on one side, and only pushed on the other. -/
theorem tracks_ofScope
    {later : Stack} {verdict : Draft → Except ScopeError Draft}
    (h : later.draft? scope base (after cursor) =
      (stack.draft? scope base before).bind fun draft =>
        (verdict draft).toOption) :
    Tracks scope base before after stack cursor
      (fun draft => ofScope (verdict draft)) (ofScope (.ok later)) := by
  unfold Tracks
  simp only [settled_ofScope, Except.toOption, Option.map_some,
    Option.bind_some, h, Option.map_bind]
  rfl

theorem tracks_fieldAccess (hstack : stack.head? ≠ some .dot)
    (qualifier field : Token) :
    Tracks scope base none Cursor.arithmetic? stack cursor
      (fieldAccess (Sink.direct scope) qualifier field)
      (fieldAccess Sink.collecting qualifier field stack) := by
  unfold fieldAccess
  by_cases hnumber : qualifier.kind = .number
  · simp only [hnumber, if_true]
    exact tracks_fail (fun _ => rfl) rfl
  · simp only [hnumber, if_false]
    cases field.kind with
    | number => exact tracks_fail (fun _ => rfl) rfl
    | identifier =>
        exact tracks_ofScope (Stack.draft?_field scope base hstack
          qualifier.text field.text cursor.arithmetic?)
    | _ => exact tracks_fail (fun _ => rfl) rfl

theorem tracks_operand (hstack : stack.head? ≠ some .dot) :
    Tracks scope base none Cursor.arithmetic? stack cursor
      (operand (Sink.direct scope)) (operand Sink.collecting stack) := by
  unfold operand
  apply Tracks.common
  intro token behind _
  apply Tracks.common
  intro dot here _
  cases dot with
  | true =>
      apply Tracks.common
      intro _ atField _
      apply Tracks.common
      intro field last _
      exact tracks_fieldAccess hstack token field
  | false =>
      simp only [Bool.false_eq_true, if_false]
      by_cases hnumber : token.kind = .number
      · simp only [hnumber, if_true]
        apply Tracks.entry (fun _ _ => rfl) rfl
        exact tracks_pure rfl
      · simp only [hnumber, if_false]
        apply Tracks.common
        intro ahead last hahead
        rw [currentArithmetic_apply] at hahead
        cases hahead
        exact tracks_ofScope (Stack.draft?_name scope base hstack token.text
          here.arithmetic?)

section Inner

variable {direct : Draft → Parser Draft} {collect : Stack → Parser Stack}
  {budget : Nat}
  (hinner : ∀ (stack : Stack) (cursor : Cursor), stack.head? ≠ some .dot →
    cursor.remaining ≤ budget →
    Tracks scope base none (fun _ => none) stack cursor direct (collect stack))
  (hspends : ∀ stack, Spends 0 (collect stack))

include hinner

/-- An expression behind an entry that is no operator of a chain. -/
theorem tracks_inner
    {entry : Entry} {next : Draft → Parser Draft}
    {collectNext : Stack → Parser Stack}
    (hpiece : ∀ left right, entry.piece scope left right = .ok entry.verbatim)
    (hplain : entry.isArithmetic = false)
    (hbudget : cursor.remaining ≤ budget)
    (hnext : ∀ later middle,
      collect (entry :: stack) cursor = .ok later middle →
      Tracks scope base none after later middle next (collectNext later)) :
    Tracks scope base none after stack cursor
      (fun draft => direct ((Sink.direct scope).entry entry draft) >>= next)
      (collect (Sink.collecting.entry entry stack) >>= collectNext) := by
  have hdot := Entry.ne_dot_of_piece hpiece
  have hcollect := hinner (entry :: stack) cursor (by simpa using hdot) hbudget
  exact (Tracks.entry hpiece (hplain.trans rfl) hcollect).bind hnext

theorem tracks_group
    (hcurrent : cursor.current.isSome = true)
    (hbudget : cursor.remaining ≤ budget + 1) :
    Tracks scope base none Cursor.arithmetic? stack cursor
      (group (Sink.direct scope) direct)
      (group Sink.collecting collect stack) := by
  unfold group
  apply Tracks.common
  intro _ inside hadvance
  have hless := remaining_lt_of_advance hcurrent hadvance
  apply tracks_inner hinner (fun _ _ => rfl) rfl (by omega)
  intro later atClose _
  apply Tracks.common
  intro _ last _
  apply Tracks.entry (fun _ _ => rfl) rfl
  exact tracks_pure rfl

include hspends

theorem tracks_conditional (hbudget : cursor.remaining ≤ budget + 1) :
    Tracks scope base none Cursor.arithmetic? stack cursor
      (conditional (Sink.direct scope) direct)
      (conditional Sink.collecting collect stack) := by
  unfold conditional
  apply Tracks.common
  intro _ atOpen hif
  have hif := spends_expect _ _ _ _ hif
  apply Tracks.common
  intro _ atLeft hopen
  have hopen := spends_expect _ _ _ _ hopen
  apply tracks_inner hinner (fun _ _ => rfl) rfl (by omega)
  intro left atComparison hleft
  have hleft := hspends _ _ _ _ hleft
  apply Tracks.common
  intro found here hfound
  rw [currentComparison_apply] at hfound
  cases hfound
  cases (atComparison.current.map Token.word).bind Word.comparison? with
  | none =>
      exact tracks_fail (fun _ => settled_unexpected _ _)
        (settled_unexpected _ _)
  | some op =>
      apply Tracks.common
      intro _ atRight hadvance
      have hadvance := spends_advance _ _ _ hadvance
      apply tracks_inner hinner (fun _ _ => rfl) rfl (by omega)
      intro right atClose hright
      have hright := hspends _ _ _ _ hright
      apply Tracks.common
      intro _ atYes hclose
      have hclose := spends_expect _ _ _ _ hclose
      apply tracks_inner hinner (fun _ _ => rfl) rfl (by omega)
      intro yes atElse hyes
      have hyes := hspends _ _ _ _ hyes
      apply Tracks.common
      intro _ atNo helse
      have helse := spends_expect _ _ _ _ helse
      apply tracks_inner hinner (fun _ _ => rfl) rfl (by omega)
      intro no last _
      apply Tracks.entry (fun _ _ => rfl) rfl
      exact tracks_pure rfl

theorem tracks_primary
    (hstack : stack.head? ≠ some .dot)
    (hbudget : cursor.remaining ≤ budget + 1) :
    Tracks scope base none Cursor.arithmetic? stack cursor
      (primary (Sink.direct scope) direct)
      (primary Sink.collecting collect stack) := by
  unfold primary
  apply Tracks.common
  intro identifier here hidentifier
  rw [seesKind_apply] at hidentifier
  cases hidentifier
  apply Tracks.common
  intro number here hnumber
  rw [seesKind_apply] at hnumber
  cases hnumber
  split
  · exact tracks_operand hstack
  · apply Tracks.common
    intro paren here hparen
    cases hparen
    split
    next hparen =>
      exact tracks_group hinner (current_of_sees hparen) hbudget
    next =>
      apply Tracks.common
      intro keyword here hkeyword
      cases hkeyword
      split
      · exact tracks_conditional hinner hspends hbudget
      · exact tracks_fail (fun _ => settled_unexpected _ _)
          (settled_unexpected _ _)

end Inner

theorem tracks_operatorTail
    {direct : Draft → Parser Draft} {collect : Stack → Parser Stack}
    {limit : Nat}
    (hnext : ∀ (stack : Stack) (cursor : Cursor), stack.head? ≠ some .dot →
      cursor.remaining ≤ limit →
      Tracks scope base none Cursor.arithmetic? stack cursor direct
        (collect stack))
    (hspends : ∀ stack, Spends 0 (collect stack)) {links : Nat}
    (hlinks : cursor.remaining ≤ links) (hlimit : links ≤ limit) :
    Tracks scope base cursor.arithmetic? (fun _ => none) stack cursor
      (operatorTail (Sink.direct scope) direct links)
      (operatorTail Sink.collecting collect links stack) := by
  induction links generalizing cursor stack with
  | zero =>
      -- The chain is not cut off: nothing is left, so no operator is next.
      have hcurrent : cursor.current = none := by
        cases hcurrent : cursor.current with
        | none => rfl
        | some token => simp [Cursor.remaining, hcurrent] at hlinks
      apply tracks_pure
      rw [Cursor.arithmetic?, hcurrent]
      rfl
  | succ links ih =>
      unfold operatorTail
      apply Tracks.common
      intro found here hfound
      rw [currentArithmetic_apply] at hfound
      cases hfound
      rw [Cursor.arithmetic?]
      cases harithmetic :
          (cursor.current.map Token.word).bind Word.arithmetic? with
      | none => exact tracks_pure rfl
      | some op =>
          have hcurrent : cursor.current.isSome = true := by
            cases hcurrent : cursor.current with
            | none => simp [hcurrent] at harithmetic
            | some token => rfl
          apply Tracks.common
          intro _ atNext hadvance
          have hless := remaining_lt_of_advance hcurrent hadvance
          have hprimary := hnext (.operator (.arithmetic op) :: stack) atNext
            (by simp) (by omega)
          -- The name in front of the operator was resolved with it in sight,
          -- which is how the stack will resolve it once the operator is pushed.
          apply Tracks.bind (Tracks.entry (fun _ _ => rfl) rfl hprimary)
          intro later atTail hlater
          have hspent := hspends _ _ _ _ hlater
          exact ih (by omega) (by omega)

theorem tracks_expressionWithin
    {budget : Nat} (hstack : stack.head? ≠ some .dot)
    (hbudget : cursor.remaining ≤ budget) :
    Tracks scope base none (fun _ => none) stack cursor
      (expressionWithin (Sink.direct scope) budget)
      (expressionWithin Sink.collecting budget stack) := by
  induction budget generalizing cursor stack with
  | zero =>
      exact tracks_fail (fun _ => settled_unexpected _ _)
        (settled_unexpected _ _)
  | succ budget ih =>
      have hinner := spends_expressionWithin Sink.collecting budget
      have hspends := spends_primary Sink.collecting hinner
      have hprimary : ∀ (stack : Stack) (cursor : Cursor),
          stack.head? ≠ some .dot → cursor.remaining ≤ budget + 1 →
          Tracks scope base none Cursor.arithmetic? stack cursor
            (primary (Sink.direct scope)
              (expressionWithin (Sink.direct scope) budget))
            (primary Sink.collecting
              (expressionWithin Sink.collecting budget) stack) :=
        fun _ _ => tracks_primary (fun _ _ => ih) hinner
      unfold expressionWithin
      apply Tracks.bind (hprimary stack cursor hstack hbudget)
      intro later atTail hlater
      have hspent := hspends _ _ _ _ hlater
      have hnone : ∀ stack, Spends 0 (primary Sink.collecting
          (expressionWithin Sink.collecting budget) stack) :=
        fun stack => (hspends stack).mono (Nat.zero_le 1)
      exact tracks_operatorTail hprimary hnone (by omega) (Nat.le_succ budget)

theorem tracks_expression (hstack : stack.head? ≠ some .dot) :
    Tracks scope base none (fun _ => none) stack cursor
      (expression (Sink.direct scope)) (expression Sink.collecting stack) := by
  unfold expression
  apply Tracks.common
  intro budget here hremaining
  cases hremaining
  exact tracks_expressionWithin hstack (Nat.le_refl _)

end Tracking

theorem settled_direct
    (scope : Scope) (projection : Projection) (cursor : Cursor) :
    settled (expression (Sink.direct scope) ⟨projection, false⟩ cursor) =
      (settled (expression Sink.collecting [] cursor)).bind fun result =>
        (result.1.draft? scope projection none).map (·, result.2) := by
  have hempty : Stack.draft? scope projection none [] =
      some ⟨projection, false⟩ := by
    simp [Stack.draft?, Stack.text?, Projection.push, Entry.joins]
  have htracks : Tracks scope projection none (fun _ => none) [] cursor
      (expression (Sink.direct scope)) (expression Sink.collecting []) :=
    tracks_expression (by simp)
  unfold Tracks at htracks
  rwa [hempty, Option.bind_some] at htracks

/-- The two emission modes agree: an expression is written behind the column text
at work as `text` if and only if it can be collected from an empty stack and the
stack unwinds to `text`, and both runs end at one cursor. -/
theorem emission_modes_agree
    (scope : Scope) (projection : Projection) (text : String)
    (cursor after : Cursor) :
    (∃ draft,
        expression (Sink.direct scope) ⟨projection, false⟩ cursor =
          .ok draft after ∧
        draft.projection.current = projection.current ++ text) ↔
      ∃ stack fragment,
        expression Sink.collecting [] cursor = .ok stack after ∧
        (stack.unwind scope).1 = .ok fragment ∧ fragment.text = text := by
  have hsettled := settled_direct scope projection cursor
  constructor
  · rintro ⟨draft, hrun, htext⟩
    rw [settled_eq_some_iff.mpr hrun, eq_comm, Option.bind_eq_some_iff] at hsettled
    obtain ⟨⟨stack, last⟩, hcollect, hdraft⟩ := hsettled
    obtain ⟨written, hwritten, hlast⟩ := Option.map_eq_some_iff.mp hdraft
    cases hlast
    obtain ⟨done, hdone, hdraft⟩ := Option.map_eq_some_iff.mp hwritten
    cases hdraft
    have hsame : done = text := String.append_right_inj _ |>.mp htext
    obtain ⟨fragment, hunwind, hfragment⟩ :=
      (Stack.unwind_ok_iff scope stack done).mpr hdone
    exact ⟨stack, fragment, settled_eq_some_iff.mp hcollect, hunwind,
      hfragment.trans hsame⟩
  · rintro ⟨stack, fragment, hcollect, hunwind, hfragment⟩
    have htext := (Stack.unwind_ok_iff scope stack text).mp
      ⟨fragment, hunwind, hfragment⟩
    rw [settled_eq_some_iff.mpr hcollect, Option.bind_some, Stack.draft?,
      Option.map_none, htext] at hsettled
    exact ⟨_, settled_eq_some_iff.mp hsettled, rfl⟩

end SelectChain

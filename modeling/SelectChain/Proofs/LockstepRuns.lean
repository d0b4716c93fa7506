import SelectChain.Proofs.CursorReading
import Mathlib.Tactic

/-!
# Runs in lockstep

Two runs of the grammar over different items do the same as long as the items
show the same words.  A `Pairing` says what the two runs may differ in: the lines
of their tokens, and an unreadable run at which the first of them stops while
the second goes on.  `Pairing.Lockstep` follows both runs at once and composes
along `>>=`.  It also keeps track of the second run when it is alone: whatever
every single move of a cursor preserves is preserved by the whole run.

The two runs have budgets of their own.  What counts is the number of words that
are known to be ahead of both of them: as long as both budgets cover that number,
neither run ends for lack of budget.
-/

namespace SelectChain

/-- Whether the grammar gets to see an item.  Unreadable runs are faults, not
trivia. -/
def Item.matters : Item → Bool
  | .ok token => !token.isTrivia
  | .error _ => true

def grammarItems (items : List Item) : List Item :=
  items.filter Item.matters

theorem grammarItems_map_ok (tokens : List Token) :
    grammarItems (tokens.map .ok) = (grammarTokens tokens).map .ok := by
  rw [grammarItems, List.filter_map]
  rfl

theorem grammarItems_append (items others : List Item) :
    grammarItems (items ++ others) =
      grammarItems items ++ grammarItems others :=
  List.filter_append _ _

@[simp] theorem grammarItems_error (error : ScanError) (items : List Item) :
    grammarItems (.error error :: items) =
      .error error :: grammarItems items :=
  List.filter_cons_of_pos rfl

theorem grammarItems_trivia
    {token : Token} (h : token.isTrivia = true) (items : List Item) :
    grammarItems (.ok token :: items) = grammarItems items :=
  List.filter_cons_of_neg (by simp [Item.matters, h])

theorem grammarItems_token
    {token : Token} (h : token.isTrivia = false) (items : List Item) :
    grammarItems (.ok token :: items) = .ok token :: grammarItems items :=
  List.filter_cons_of_pos (by simp [Item.matters, h])

/-! ## One move of a cursor -/

namespace Cursor

variable (cursor : Cursor) {items rest : List Item}

theorem pull_of_nil (h : grammarItems items = []) :
    ∃ after, cursor.pull items = .ok () after ∧ after.current = none ∧
      after.ahead = [] ∧ after.line = cursor.line := by
  induction items generalizing cursor with
  | nil => exact ⟨_, rfl, rfl, rfl, rfl⟩
  | cons item items ih =>
      cases item with
      | error error => simp at h
      | ok token =>
          cases htrivia : token.isTrivia with
          | false => simp [grammarItems_token htrivia] at h
          | true =>
              rw [grammarItems_trivia htrivia] at h
              obtain ⟨after, hpull, hafter⟩ :=
                ih (cursor.log (.scanned token)) h
              exact ⟨after, by simpa [pull, htrivia] using hpull, hafter⟩

theorem pull_of_token {token : Token}
    (h : grammarItems items = .ok token :: rest) :
    ∃ after, cursor.pull items = .ok () after ∧
      after.current = some token ∧ grammarItems after.ahead = rest ∧
      after.line = token.line := by
  induction items generalizing cursor with
  | nil => cases h
  | cons item items ih =>
      cases item with
      | error error =>
          rw [grammarItems_error] at h
          cases h
      | ok other =>
          cases htrivia : other.isTrivia with
          | false =>
              rw [grammarItems_token htrivia] at h
              cases h
              exact ⟨_, by simp only [pull, htrivia]; rfl, rfl, rfl, rfl⟩
          | true =>
              rw [grammarItems_trivia htrivia] at h
              obtain ⟨after, hpull, hafter⟩ :=
                ih (cursor.log (.scanned other)) h
              exact ⟨after, by simpa [pull, htrivia] using hpull, hafter⟩

theorem pull_of_error {error : ScanError}
    (h : grammarItems items = .error error :: rest) :
    ∃ after, cursor.pull items = .error (.lexical error) after := by
  induction items generalizing cursor with
  | nil => cases h
  | cons item items ih =>
      cases item with
      | error other =>
          rw [grammarItems_error] at h
          cases h
          exact ⟨_, rfl⟩
      | ok token =>
          cases htrivia : token.isTrivia with
          | false =>
              rw [grammarItems_token htrivia] at h
              cases h
          | true =>
              rw [grammarItems_trivia htrivia] at h
              obtain ⟨after, hpull⟩ := ih (cursor.log (.scanned token)) h
              exact ⟨after, by simpa [pull, htrivia] using hpull⟩

end Cursor

/-- The cursor that a run leaves behind, also at a fault. -/
def Parser.final {α : Type} : EStateM.Result Fault Cursor α → Cursor
  | .ok _ cursor => cursor
  | .error _ cursor => cursor

open SelectChain.Parser

/-- What two runs may differ in. -/
structure Pairing where
  SameLine : Nat → Nat → Prop
  sameLine_refl : ∀ line, SameLine line line
  /-- The unreadable runs at which the first run may stop. -/
  Stops : ScanError → Prop
  /-- Where the second run is from then on. -/
  Beyond : Cursor → Prop
  beyond_advance : ∀ cursor, Beyond cursor → Beyond (final (advance cursor))
  beyond_log : ∀ cursor event, Beyond cursor → Beyond (cursor.log event)

namespace Pairing

variable (pairing : Pairing)

structure SameToken (first second : Token) : Prop where
  word : first.word = second.word
  line : pairing.SameLine first.line second.line

theorem sameToken_refl (token : Token) : pairing.SameToken token token :=
  ⟨rfl, pairing.sameLine_refl token.line⟩

/-- Faults that differ at most in the line of a grammar error. -/
inductive SameFault : Fault → Fault → Prop
  | grammar {expected : Expectation} {found : Option String}
      {line line' : Nat} (hline : pairing.SameLine line line') :
      SameFault (.grammar ⟨expected, found, line⟩)
        (.grammar ⟨expected, found, line'⟩)
  | scope (error : ScopeError) : SameFault (.scope error) (.scope error)

/-- The items in front of both runs, with the number of words in common: both
lists end together, or the first has an unreadable run. -/
inductive Follows : Nat → List Item → List Item → Prop
  | done : Follows 0 [] []
  | token {words : Nat} {first second : Token} {left right : List Item}
      (hsame : pairing.SameToken first second)
      (hrest : Follows words left right) :
      Follows (words + 1) (.ok first :: left) (.ok second :: right)
  | stop {error : ScanError} {left right : List Item}
      (hstops : pairing.Stops error)
      (hbeyond : ∀ cursor : Cursor, grammarItems cursor.ahead = right →
        pairing.Beyond (final (advance cursor))) :
      Follows 0 (.error error :: left) right

/-- Two cursors that see the same, with the number of words in common from the
lookahead on. -/
inductive Beside : Nat → Cursor → Cursor → Prop
  | ended {left right : Cursor}
      (hleft : left.current = none) (hright : right.current = none)
      (hleftAhead : grammarItems left.ahead = [])
      (hrightAhead : grammarItems right.ahead = [])
      (hline : pairing.SameLine left.line right.line) :
      Beside 0 left right
  | facing {words : Nat} {left right : Cursor} {first second : Token}
      (hleft : left.current = some first)
      (hright : right.current = some second)
      (hsame : pairing.SameToken first second)
      (hahead : pairing.Follows words (grammarItems left.ahead)
        (grammarItems right.ahead))
      (hline : pairing.SameLine left.line right.line) :
      Beside (words + 1) left right

/-- The two outcomes of a step: both go on side by side with at most `words` in
common, both meet the same fault, or the first has stopped. -/
inductive Matched {α β : Type} (V : α → β → Prop) (words : Nat) :
    EStateM.Result Fault Cursor α → EStateM.Result Fault Cursor β → Prop
  | ok {ahead : Nat} {value : α} {value' : β} {left right : Cursor}
      (hle : ahead ≤ words) (hvalue : V value value')
      (hbeside : pairing.Beside ahead left right) :
      Matched V words (.ok value left) (.ok value' right)
  | fault {fault fault' : Fault} {left right : Cursor}
      (hfault : pairing.SameFault fault fault') :
      Matched V words (.error fault left) (.error fault' right)
  | stopped {error : ScanError} {left : Cursor}
      {result : EStateM.Result Fault Cursor β}
      (hstops : pairing.Stops error)
      (hbeyond : pairing.Beyond (final result)) :
      Matched V words (.error (.lexical error) left) result

/-- Two steps that stay in lockstep, from at most `before` words in common to at
most `after`. -/
structure Lockstep {α β : Type} (before after : Nat) (V : α → β → Prop)
    (parser : Parser α) (parser' : Parser β) : Prop where
  matched : ∀ {words : Nat} {left right : Cursor}, words ≤ before →
    pairing.Beside words left right →
    pairing.Matched V after (parser left) (parser' right)
  keeps : ∀ cursor, pairing.Beyond cursor →
    pairing.Beyond (final (parser' cursor))

variable {pairing} {α β γ δ : Type} {before middle after : Nat}

theorem Follows.le_length
    {words : Nat} {left right : List Item}
    (h : pairing.Follows words left right) :
    words ≤ left.length ∧ words ≤ right.length := by
  induction h with
  | done => exact ⟨Nat.le_refl 0, Nat.le_refl 0⟩
  | token _ _ ih =>
      rw [List.length_cons, List.length_cons]
      exact ⟨Nat.succ_le_succ ih.1, Nat.succ_le_succ ih.2⟩
  | stop _ _ => exact ⟨Nat.zero_le _, Nat.zero_le _⟩

theorem Beside.le_remaining
    {words : Nat} {left right : Cursor}
    (h : pairing.Beside words left right) :
    words ≤ left.remaining ∧ words ≤ right.remaining := by
  cases h with
  | ended => exact ⟨Nat.zero_le _, Nat.zero_le _⟩
  | facing hleft hright _ hahead _ =>
      obtain ⟨hfirst, hsecond⟩ := hahead.le_length
      have hfilter : (grammarItems left.ahead).length ≤ left.ahead.length :=
        List.length_filter_le _ _
      have hfilter' : (grammarItems right.ahead).length ≤ right.ahead.length :=
        List.length_filter_le _ _
      simp only [Cursor.remaining, hleft, hright, Option.isSome_some, if_true]
      omega

theorem Beside.word_eq
    {words : Nat} {left right : Cursor}
    (h : pairing.Beside words left right) :
    left.current.map Token.word = right.current.map Token.word := by
  cases h with
  | ended hleft hright => rw [hleft, hright]
  | facing hleft hright hsame =>
      rw [hleft, hright, Option.map_some, Option.map_some, hsame.word]

theorem Beside.current_eq_none
    {left right : Cursor} (h : pairing.Beside 0 left right) :
    left.current = none ∧ right.current = none := by
  cases h with
  | ended hleft hright => exact ⟨hleft, hright⟩

/-! ## Composition -/

theorem Matched.mono
    {V : α → β → Prop} {result : EStateM.Result Fault Cursor α}
    {result' : EStateM.Result Fault Cursor β}
    (h : pairing.Matched V middle result result') (hle : middle ≤ after) :
    pairing.Matched V after result result' := by
  cases h with
  | ok hwords hvalue hbeside => exact .ok (hwords.trans hle) hvalue hbeside
  | fault hfault => exact .fault hfault
  | stopped hstops hbeyond => exact .stopped hstops hbeyond

theorem Lockstep.mono
    {V : α → β → Prop} {parser : Parser α} {parser' : Parser β}
    {before' after' : Nat}
    (h : pairing.Lockstep before after V parser parser')
    (hbefore : before' ≤ before) (hafter : after ≤ after') :
    pairing.Lockstep before' after' V parser parser' where
  matched hwords hbeside :=
    (h.matched (hwords.trans hbefore) hbeside).mono hafter
  keeps := h.keeps

/-- That a step takes a word may be left out of account. -/
theorem Lockstep.relaxed
    {V : α → β → Prop} {parser : Parser α} {parser' : Parser β}
    (h : pairing.Lockstep before (before - 1) V parser parser') :
    pairing.Lockstep before before V parser parser' :=
  h.mono (Nat.le_refl _) (Nat.sub_le _ 1)

/-- What the second run keeps of its own carries over to the step after. -/
theorem beyond_bind
    {parser : Parser β} {next : β → Parser δ} {cursor : Cursor}
    (hnext : ∀ value cursor, pairing.Beyond cursor →
      pairing.Beyond (final (next value cursor)))
    (h : pairing.Beyond (final (parser cursor))) :
    pairing.Beyond (final ((parser >>= next) cursor)) := by
  cases hrun : parser cursor with
  | ok value after =>
      rw [hrun] at h
      rw [bind_ok hrun]
      exact hnext value after h
  | error fault after =>
      rw [hrun] at h
      rw [bind_error hrun]
      exact h

theorem Matched.bind
    {V : α → β → Prop} {W : γ → δ → Prop} {parser : Parser α}
    {parser' : Parser β} {next : α → Parser γ} {next' : β → Parser δ}
    {left right : Cursor}
    (h : pairing.Matched V middle (parser left) (parser' right))
    (hnext : ∀ value value', V value value' →
      pairing.Lockstep middle after W (next value) (next' value'))
    (hkeeps : ∀ value' cursor, pairing.Beyond cursor →
      pairing.Beyond (final (next' value' cursor))) :
    pairing.Matched W after ((parser >>= next) left)
      ((parser' >>= next') right) := by
  generalize hrun : parser left = result at h
  generalize hrun' : parser' right = result' at h
  cases h with
  | ok hle hvalue hbeside =>
      rw [bind_ok hrun, bind_ok hrun']
      exact (hnext _ _ hvalue).matched hle hbeside
  | fault hfault =>
      rw [bind_error hrun, bind_error hrun']
      exact .fault hfault
  | stopped hstops hbeyond =>
      rw [bind_error hrun]
      rw [← hrun'] at hbeyond
      exact .stopped hstops (beyond_bind hkeeps hbeyond)

theorem Lockstep.bind
    {V : α → β → Prop} {W : γ → δ → Prop} {parser : Parser α}
    {parser' : Parser β} {next : α → Parser γ} {next' : β → Parser δ}
    (hfirst : pairing.Lockstep before middle V parser parser')
    (hnext : ∀ value value', V value value' →
      pairing.Lockstep middle after W (next value) (next' value'))
    (hkeeps : ∀ value' cursor, pairing.Beyond cursor →
      pairing.Beyond (final (next' value' cursor))) :
    pairing.Lockstep before after W (parser >>= next)
      (parser' >>= next') where
  matched hwords hbeside :=
    (hfirst.matched hwords hbeside).bind hnext hkeeps
  keeps cursor hbeyond := beyond_bind hkeeps (hfirst.keeps cursor hbeyond)

/-- A step that gives both runs the same value. -/
theorem Lockstep.then
    {W : γ → δ → Prop} {parser parser' : Parser α} {next : α → Parser γ}
    {next' : α → Parser δ}
    (hfirst : pairing.Lockstep before middle Eq parser parser')
    (hnext : ∀ value,
      pairing.Lockstep middle after W (next value) (next' value)) :
    pairing.Lockstep before after W (parser >>= next)
      (parser' >>= next') := by
  apply hfirst.bind
  · rintro value _ rfl
    exact hnext value
  · intro value
    exact (hnext value).keeps

/-- A step that gives each run a token of its own. -/
theorem Lockstep.then_token
    {W : γ → δ → Prop} {parser parser' : Parser Token}
    {next : Token → Parser γ} {next' : Token → Parser δ}
    (hfirst :
      pairing.Lockstep before middle pairing.SameToken parser parser')
    (hnext : ∀ first second, pairing.SameToken first second →
      pairing.Lockstep middle after W (next first) (next' second)) :
    pairing.Lockstep before after W (parser >>= next)
      (parser' >>= next') := by
  apply hfirst.bind hnext
  intro token
  exact (hnext token token (pairing.sameToken_refl token)).keeps

/-! ## The steps of a cursor -/

theorem lockstep_pure {V : α → β → Prop} {value : α} {value' : β}
    (h : V value value') :
    pairing.Lockstep before before V (pure value) (pure value') where
  matched hwords hbeside := .ok hwords h hbeside
  keeps _ hbeyond := hbeyond

theorem lockstep_throw {V : α → β → Prop} {fault fault' : Fault}
    (h : pairing.SameFault fault fault') :
    pairing.Lockstep before after V (throw fault) (throw fault') where
  matched _ _ := .fault h
  keeps _ hbeyond := hbeyond

theorem lockstep_ofScope (outcome : Except ScopeError α) :
    pairing.Lockstep before before Eq (ofScope outcome) (ofScope outcome) := by
  cases outcome with
  | ok value => exact lockstep_pure rfl
  | error error => exact lockstep_throw (.scope error)

theorem lockstep_log (event : Event) :
    pairing.Lockstep before before Eq (log event) (log event) where
  matched hwords hbeside := by
    refine .ok hwords rfl ?_
    cases hbeside with
    | ended hleft hright hleftAhead hrightAhead hline =>
        exact .ended hleft hright hleftAhead hrightAhead hline
    | facing hleft hright hsame hahead hline =>
        exact .facing hleft hright hsame hahead hline
  keeps cursor hbeyond := pairing.beyond_log cursor event hbeyond

/-- Both cursors move to the next word, or the first meets its unreadable
run. -/
theorem Follows.advance
    {words : Nat} {left right : Cursor}
    (h : pairing.Follows words (grammarItems left.ahead)
      (grammarItems right.ahead))
    (hline : pairing.SameLine left.line right.line) :
    pairing.Matched Eq words (Parser.advance left)
      (Parser.advance right) := by
  generalize hleft : grammarItems left.ahead = leftItems at h
  generalize hright : grammarItems right.ahead = rightItems at h
  cases h with
  | done =>
      obtain ⟨left', hpull, hnone, hahead, hline₁⟩ := left.pull_of_nil hleft
      obtain ⟨right', hpull', hnone', hahead', hline₂⟩ :=
        right.pull_of_nil hright
      unfold Parser.advance
      rw [hpull, hpull']
      refine .ok (Nat.le_refl 0) rfl (.ended hnone hnone' ?_ ?_ ?_)
      · rw [hahead]
        rfl
      · rw [hahead']
        rfl
      · rw [hline₁, hline₂]
        exact hline
  | token hsame hrest =>
      obtain ⟨left', hpull, hcurrent, hahead, hline₁⟩ :=
        left.pull_of_token hleft
      obtain ⟨right', hpull', hcurrent', hahead', hline₂⟩ :=
        right.pull_of_token hright
      unfold Parser.advance
      rw [hpull, hpull']
      refine .ok (Nat.le_refl _) rfl (.facing hcurrent hcurrent' hsame ?_ ?_)
      · rw [hahead, hahead']
        exact hrest
      · rw [hline₁, hline₂]
        exact hsame.line
  | stop hstops hbeyond =>
      obtain ⟨left', hpull⟩ := left.pull_of_error hleft
      have hadvance : Parser.advance left = _ := hpull
      rw [hadvance]
      exact .stopped hstops (hbeyond right hright)

theorem lockstep_advance :
    pairing.Lockstep before (before - 1) Eq advance advance where
  matched hwords hbeside := by
    cases hbeside with
    | ended _ _ hleftAhead hrightAhead hline =>
        apply Matched.mono _ (Nat.zero_le _)
        apply Follows.advance _ hline
        rw [hleftAhead, hrightAhead]
        exact .done
    | facing _ _ _ hahead hline =>
        exact (hahead.advance hline).mono (by omega)
  keeps := pairing.beyond_advance

/-- A look at the word in front of the cursor. -/
theorem lockstep_look
    {parser : Parser α} (look : Option Word → α)
    (h : ∀ cursor : Cursor,
      parser cursor = .ok (look (cursor.current.map Token.word)) cursor) :
    pairing.Lockstep before before Eq parser parser where
  matched hwords hbeside := by
    rw [h, h]
    exact .ok hwords (congrArg look hbeside.word_eq) hbeside
  keeps cursor hbeyond := by
    rw [h]
    exact hbeyond

theorem lockstep_sees (text : String) :
    pairing.Lockstep before before Eq (sees text) (sees text) := by
  apply lockstep_look fun word => word.any (·.text == text)
  intro cursor
  rw [Option.any_map]
  rfl

theorem lockstep_seesKind (kind : Token.Kind) :
    pairing.Lockstep before before Eq (seesKind kind) (seesKind kind) := by
  apply lockstep_look fun word => word.any (·.kind == kind)
  intro cursor
  rw [Option.any_map]
  rfl

theorem lockstep_currentSymbol :
    pairing.Lockstep before before Eq currentSymbol currentSymbol := by
  apply lockstep_look fun word =>
    (word.filter (·.kind == .symbol)).map (·.text)
  intro cursor
  rw [Option.filter_map, Option.map_map]
  rfl

theorem lockstep_currentArithmetic :
    pairing.Lockstep before before Eq currentArithmetic currentArithmetic :=
  lockstep_currentSymbol.then fun _ => lockstep_pure rfl

theorem lockstep_currentComparison :
    pairing.Lockstep before before Eq currentComparison currentComparison :=
  lockstep_currentSymbol.then fun _ => lockstep_pure rfl

theorem SameToken.lockstep_refuse
    {first second : Token} (h : pairing.SameToken first second)
    (V : α → α → Prop) (expected : Expectation) :
    pairing.Lockstep before after V (refuse expected first)
      (refuse expected second) := by
  have htext : first.text = second.text := congrArg Word.text h.word
  unfold refuse
  rw [htext]
  exact lockstep_throw (.grammar h.line)

theorem lockstep_unexpected (V : α → α → Prop) (expected : Expectation) :
    pairing.Lockstep before after V (unexpected expected)
      (unexpected expected) where
  matched hwords hbeside := by
    unfold unexpected
    rw [bind_ok (get_apply _), bind_ok (get_apply _)]
    cases hbeside with
    | ended hleft hright _ _ hline =>
        rw [hleft, hright]
        exact .fault (.grammar hline)
    | facing hleft hright hsame hahead hline =>
        rw [hleft, hright]
        exact (hsame.lockstep_refuse V expected).matched hwords
          (.facing hleft hright hsame hahead hline)
  keeps cursor hbeyond := by
    unfold unexpected
    rw [bind_ok (get_apply _)]
    cases cursor.current <;> exact hbeyond

theorem lockstep_take (expected : Expectation) :
    pairing.Lockstep before (before - 1) pairing.SameToken (take expected)
      (take expected) := by
  have hmove : ∀ {first second : Token}, pairing.SameToken first second →
      pairing.Lockstep before (before - 1) pairing.SameToken
        (advance >>= fun _ => pure first)
        (advance >>= fun _ => pure second) := fun hsame =>
    lockstep_advance.then fun _ => lockstep_pure hsame
  have hunexpected : pairing.Lockstep before (before - 1) pairing.SameToken
      (unexpected expected) (unexpected expected) :=
    lockstep_unexpected _ expected
  constructor
  · intro words left right hwords hbeside
    unfold take
    rw [bind_ok (get_apply _), bind_ok (get_apply _)]
    cases hbeside with
    | ended hleft hright hleftAhead hrightAhead hline =>
        rw [hleft, hright]
        exact hunexpected.matched hwords
          (.ended hleft hright hleftAhead hrightAhead hline)
    | facing hleft hright hsame hahead hline =>
        rw [hleft, hright]
        exact (hmove hsame).matched hwords
          (.facing hleft hright hsame hahead hline)
  · intro cursor hbeyond
    unfold take
    rw [bind_ok (get_apply _)]
    cases cursor.current with
    | none => exact hunexpected.keeps cursor hbeyond
    | some token =>
        exact (hmove (pairing.sameToken_refl token)).keeps cursor hbeyond

theorem lockstep_expect (text : String) :
    pairing.Lockstep before (before - 1) Eq (expect text) (expect text) := by
  unfold expect
  apply (lockstep_sees text).then
  intro seen
  cases seen with
  | true => exact lockstep_advance
  | false => exact lockstep_unexpected _ _

theorem lockstep_expectKind (kind : Token.Kind) (expected : Expectation) :
    pairing.Lockstep before (before - 1) pairing.SameToken
      (expectKind kind expected) (expectKind kind expected) := by
  unfold expectKind
  apply (lockstep_seesKind kind).then
  intro seen
  cases seen with
  | true => exact lockstep_take expected
  | false => exact lockstep_unexpected _ _

/-! ## Budgets -/

/-- Each run asks for a budget of its own; both cover the words in common. -/
theorem lockstep_remaining
    {V : γ → δ → Prop} {next : Nat → Parser γ} {next' : Nat → Parser δ}
    (h : ∀ words budget budget', words ≤ before → words ≤ budget →
      words ≤ budget' →
      pairing.Lockstep words after V (next budget) (next' budget')) :
    pairing.Lockstep before after V (remaining >>= next)
      (remaining >>= next') where
  matched hwords hbeside := by
    have hrun : ∀ cursor : Cursor,
        remaining cursor = .ok cursor.remaining cursor := fun _ => rfl
    rw [bind_ok (hrun _), bind_ok (hrun _)]
    obtain ⟨hleft, hright⟩ := hbeside.le_remaining
    exact (h _ _ _ hwords hleft hright).matched (Nat.le_refl _) hbeside
  keeps cursor hbeyond := by
    have hrun : remaining cursor = .ok cursor.remaining cursor := rfl
    rw [bind_ok hrun]
    exact (h 0 0 cursor.remaining (Nat.zero_le _) (Nat.zero_le _)
      (Nat.zero_le _)).keeps cursor hbeyond

/-- At the end of the input, a run does what it does without any budget. -/
def SpentAtEnd {σ : Type} (run : Nat → σ → Parser γ) : Prop :=
  ∀ budget acc (cursor : Cursor), cursor.current = none →
    run budget acc cursor = run 0 acc cursor

/-- Recursion on a budget, with at most `bound` words in common.  A budget that
covers these words is spent only at the end of the input. -/
theorem lockstep_within
    {σ : Type} {V : γ → δ → Prop} {run : Nat → σ → Parser γ}
    {run' : Nat → σ → Parser δ} (left : Nat → Nat) {bound : Nat}
    (hend : SpentAtEnd run) (hend' : SpentAtEnd run')
    (hzero : ∀ acc,
      pairing.Lockstep 0 (left 0) V (run 0 acc) (run' 0 acc))
    (hstep : ∀ budget',
      (∀ words budget acc, words ≤ bound → words ≤ budget →
        words ≤ budget' →
        pairing.Lockstep words (left words) V (run budget acc)
          (run' budget' acc)) →
      ∀ words budget acc, words ≤ bound → words ≤ budget + 1 →
        words ≤ budget' + 1 →
        pairing.Lockstep words (left words) V (run (budget + 1) acc)
          (run' (budget' + 1) acc))
    {words budget budget' : Nat} (acc : σ) (hbound : words ≤ bound)
    (hbudget : words ≤ budget) (hbudget' : words ≤ budget') :
    pairing.Lockstep words (left words) V (run budget acc)
      (run' budget' acc) := by
  induction budget' generalizing words budget acc with
  | zero =>
      obtain rfl : words = 0 := Nat.le_zero.mp hbudget'
      refine ⟨?_, (hzero acc).keeps⟩
      intro words first second hwords hbeside
      obtain rfl : words = 0 := Nat.le_zero.mp hwords
      rw [hend budget acc first hbeside.current_eq_none.1]
      exact (hzero acc).matched hwords hbeside
  | succ budget' ih =>
      have hsucc := hstep budget' fun words budget acc hle hle' hle'' =>
        ih acc hle hle' hle''
      cases budget with
      | succ budget => exact hsucc words budget acc hbound hbudget hbudget'
      | zero =>
          obtain rfl : words = 0 := Nat.le_zero.mp hbudget
          refine ⟨?_, (hsucc 0 budget' acc (Nat.zero_le _) (Nat.zero_le _)
            (Nat.zero_le _)).keeps⟩
          intro words first second hwords hbeside
          obtain rfl : words = 0 := Nat.le_zero.mp hwords
          rw [hend' (budget' + 1) acc second hbeside.current_eq_none.2]
          exact (hzero acc).matched hwords hbeside

end Pairing

end SelectChain

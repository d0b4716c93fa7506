import SelectChain.Proofs.LockstepGrammar
import Mathlib.Tactic

/-!
# Where a run gets stuck

A grammar error is about the place that a run has come to.  `Cursor.Faces` is a
cursor in front of known tokens.  `Parser.Stuck` says what an error tells about
such tokens: some of them were taken, and the words of these could have been gone
on with; the error points at the next one, or at the end.  What could have been
gone on with is a `Prospect`.  `Parser.Sticks` is this for every error that a step
meets, and composes along `>>=`.

One error is found late: a field that is no name has been taken already when it is
refused.
-/

namespace SelectChain

open Grammar

theorem exists_tokens_of_grammarItems
    {items : List Item} {tokens : List Token}
    (h : grammarItems items = tokens.map .ok) :
    ∃ all : List Token, items = all.map .ok ∧ grammarTokens all = tokens := by
  induction items generalizing tokens with
  | nil =>
      obtain rfl : tokens = [] := by simpa [grammarItems] using h
      exact ⟨[], rfl, rfl⟩
  | cons item items ih =>
      cases item with
      | error error =>
          rw [grammarItems_error] at h
          cases tokens <;> cases h
      | ok token =>
          cases htrivia : token.isTrivia with
          | true =>
              rw [grammarItems_trivia htrivia] at h
              obtain ⟨all, rfl, rfl⟩ := ih h
              exact ⟨token :: all, rfl, by simp [grammarTokens, htrivia]⟩
          | false =>
              rw [grammarItems_token htrivia] at h
              cases tokens with
              | nil => cases h
              | cons first tokens =>
                  rw [List.map_cons, List.cons.injEq, Except.ok.injEq] at h
                  obtain ⟨rfl, hrest⟩ := h
                  obtain ⟨all, rfl, rfl⟩ := ih hrest
                  exact ⟨token :: all, rfl, by simp [grammarTokens, htrivia]⟩

/-! ## Cursors in front of known tokens -/

/-- The tokens from the lookahead on. -/
structure Cursor.Holds (cursor : Cursor) (tokens : List Token) : Prop where
  current : cursor.current = tokens.head?
  ahead : grammarItems cursor.ahead = tokens.tail.map .ok

/-- A cursor in front of tokens of an input that ends on line `last`. -/
structure Cursor.Faces (cursor : Cursor) (last : Nat) (tokens : List Token) :
    Prop extends cursor.Holds tokens where
  line : cursor.line = (tokens.head?.map Token.line).getD last
  ends : ∀ token, tokens.getLast? = some token → token.line = last
  lexical : ∀ token ∈ tokens, token.word.Lexical

namespace Cursor

variable {cursor after : Cursor} {last : Nat} {tokens others : List Token}

theorem Holds.unique (h : cursor.Holds tokens) (hothers : cursor.Holds others) :
    tokens = others := by
  have hhead : tokens.head? = others.head? := by
    rw [← h.current, hothers.current]
  have htail : tokens.tail = others.tail := by
    have hmap := h.ahead.symm.trans hothers.ahead
    exact List.map_injective_iff.mpr (fun _ _ => Except.ok.inj) hmap
  cases tokens with
  | nil =>
      cases others with
      | nil => rfl
      | cons other others => cases hhead
  | cons token tokens =>
      cases others with
      | nil => cases hhead
      | cons other others =>
          cases hhead
          cases htail
          rfl

theorem exists_advance
    (cursor : Cursor) (h : grammarItems cursor.ahead = tokens.map .ok) :
    ∃ after, Parser.advance cursor = .ok () after ∧ after.Holds tokens ∧
      after.line = (tokens.head?.map Token.line).getD cursor.line := by
  cases tokens with
  | nil =>
      obtain ⟨after, hpull, hcurrent, hahead, hline⟩ := cursor.pull_of_nil h
      refine ⟨after, hpull, ⟨hcurrent, ?_⟩, hline⟩
      rw [hahead]
      rfl
  | cons token tokens =>
      obtain ⟨after, hpull, hcurrent, hahead, hline⟩ := cursor.pull_of_token h
      exact ⟨after, hpull, ⟨hcurrent, hahead⟩, hline⟩

theorem Holds.log (h : cursor.Holds tokens) (event : Event) :
    (cursor.log event).Holds tokens :=
  ⟨h.current, h.ahead⟩

namespace Faces

theorem reads (h : cursor.Faces last tokens) :
    cursor.Reads (tokens.map Token.word) := by
  obtain ⟨all, hahead, hall⟩ := exists_tokens_of_grammarItems h.ahead
  refine ⟨?_, all, hahead, ?_⟩
  · rw [h.current, List.head?_map]
  · rw [grammarWords, hall, List.map_tail]

theorem lexical_words (h : cursor.Faces last tokens) :
    ∀ word ∈ tokens.map Token.word, word.Lexical := by
  intro word hword
  obtain ⟨token, hmem, rfl⟩ := List.mem_map.mp hword
  exact h.lexical token hmem

theorem length_le_remaining (h : cursor.Faces last tokens) :
    tokens.length ≤ cursor.remaining := by
  simpa using h.reads.length_le_remaining

theorem log (h : cursor.Faces last tokens) (event : Event) :
    (cursor.log event).Faces last tokens :=
  ⟨h.toHolds.log event, h.line, h.ends, h.lexical⟩

theorem exists_advance (h : cursor.Faces last tokens) :
    ∃ after, Parser.advance cursor = .ok () after ∧
      after.Faces last tokens.tail := by
  obtain ⟨after, hrun, hholds, hline⟩ := cursor.exists_advance h.ahead
  refine ⟨after, hrun, hholds, ?_, ?_, ?_⟩
  · rw [hline]
    cases tokens with
    | nil => simpa using h.line
    | cons token tokens =>
        cases tokens with
        -- Behind the last token, the cursor stays on the line of that token.
        | nil => simpa using h.line.trans (h.ends token rfl)
        | cons second tokens => rfl
  · intro token htoken
    apply h.ends
    cases tokens with
    | nil => cases htoken
    | cons first tokens =>
        cases tokens with
        | nil => cases htoken
        | cons second tokens => simpa using htoken
  · intro token hmem
    exact h.lexical token (List.mem_of_mem_tail hmem)

theorem exists_take
    {token : Token} (h : cursor.Faces last (token :: tokens))
    (expected : Expectation) :
    ∃ after, Parser.take expected cursor = .ok token after ∧
      after.Faces last tokens := by
  obtain ⟨after, hadvance, hafter⟩ := h.exists_advance
  refine ⟨after, ?_, hafter⟩
  unfold Parser.take
  rw [Parser.bind_ok (Parser.get_apply cursor), h.current, List.head?_cons]
  exact Parser.bind_ok hadvance

end Faces

end Cursor

/-- A run of tokens that another one ends with. -/
def Pairing.within (last : Nat) (tokens : List Token) : Pairing where
  SameLine := Eq
  sameLine_refl _ := rfl
  Stops _ := False
  Beyond cursor := ∃ rest, rest <:+ tokens ∧ cursor.Faces last rest
  beyond_advance cursor := by
    rintro ⟨rest, hsuffix, hfaces⟩
    obtain ⟨after, hrun, hafter⟩ := hfaces.exists_advance
    rw [hrun]
    exact ⟨rest.tail, (List.tail_suffix rest).trans hsuffix, hafter⟩
  beyond_log cursor event := by
    rintro ⟨rest, hsuffix, hfaces⟩
    exact ⟨rest, hsuffix, hfaces.log event⟩

namespace Parser

variable {α β : Type}

/-- A step that leaves a cursor in front of the last of the tokens that it was
in front of. -/
def Proceeds (parser : Parser α) : Prop :=
  ∀ ⦃cursor : Cursor⦄ ⦃last : Nat⦄ ⦃tokens : List Token⦄,
    cursor.Faces last tokens →
    ∃ rest, rest <:+ tokens ∧ (final (parser cursor)).Faces last rest

/-- Every step that runs in lockstep with itself proceeds. -/
theorem proceeds_of_lockstep
    {parser : Parser α}
    (h : ∀ pairing : Pairing, ∃ V, pairing.Lockstep 0 0 V parser parser) :
    Proceeds parser := by
  intro cursor last tokens hfaces
  -- There is no first run here; what the second one keeps is enough.
  obtain ⟨_, hlockstep⟩ := h (.within last tokens)
  exact hlockstep.keeps cursor ⟨tokens, List.suffix_rfl, hfaces⟩

/-- The tokens behind those that a step took, given the words it took. -/
theorem Proceeds.exists_taken
    {parser : Parser α} (hproceeds : Proceeds parser) {cursor after : Cursor}
    {last : Nat} {tokens : List Token} {value : α} {words rest : List Word}
    (hfaces : cursor.Faces last tokens) (hrun : parser cursor = .ok value after)
    (hwords : tokens.map Token.word = words ++ rest)
    (hreads : after.Reads rest) :
    ∃ taken left, tokens = taken ++ left ∧ taken.map Token.word = words ∧
      left.map Token.word = rest ∧ after.Faces last left := by
  obtain ⟨left, ⟨taken, rfl⟩, hafter⟩ := hproceeds hfaces
  rw [hrun] at hafter
  have hleft : left.map Token.word = rest := hafter.reads.unique hreads
  refine ⟨taken, left, rfl, ?_, hleft, hafter⟩
  rw [List.map_append, hleft] at hwords
  exact List.append_cancel_right hwords

end Parser

/-- What may have been read: with a list of words also all its beginnings. -/
@[ext]
structure Prospect where
  Open : List Word → Prop
  of_append : ∀ {words rest : List Word}, Open (words ++ rest) → Open words

namespace Prospect

variable (prospect : Prospect)

theorem of_isPrefix
    {words whole : List Word} (h : prospect.Open whole)
    (hbegins : words <+: whole) : prospect.Open words := by
  obtain ⟨rest, rfl⟩ := hbegins
  exact prospect.of_append h

/-- What may follow words that were read before. -/
def behind (words : List Word) : Prospect where
  Open rest := prospect.Open (words ++ rest)
  of_append {_ _} h := by
    rw [← List.append_assoc] at h
    exact prospect.of_append h

theorem behind_behind (words more : List Word) :
    (prospect.behind words).behind more = prospect.behind (words ++ more) := by
  ext rest
  simp only [behind, List.append_assoc]

end Prospect

/-- The error is about the first of these tokens, or about the end. -/
structure GrammarError.PointsAt (error : GrammarError) (last : Nat)
    (tokens : List Token) : Prop where
  found : error.found = tokens.head?.map Token.text
  line : error.line = (tokens.head?.map Token.line).getD last

namespace Parser

variable {α β : Type} {last : Nat} {prospect : Prospect} {tokens : List Token}

/-- An error at the next token behind those that were taken. -/
inductive Stuck (last : Nat) (prospect : Prospect) (tokens : List Token)
    (error : GrammarError) (after : Cursor) : Prop
  | facing {taken left : List Token} (htokens : tokens = taken ++ left)
      (hopen : prospect.Open (taken.map Token.word))
      (hpoints : error.PointsAt last left) (hfaces : after.Faces last left) :
      Stuck last prospect tokens error after
  | field {taken left : List Token} {dot field : Token}
      (htokens : tokens = taken ++ dot :: field :: left)
      (hopen : prospect.Open ((taken ++ [dot]).map Token.word))
      (hdot : dot.word = .mark ".") (hfield : field.kind ≠ .identifier)
      (hpoints : error.PointsAt last (field :: left)) :
      Stuck last prospect tokens error after

theorem Stuck.prepend
    {taken left : List Token} {error : GrammarError} {after : Cursor}
    (h : Stuck last (prospect.behind (taken.map Token.word)) left error after) :
    Stuck last prospect (taken ++ left) error after := by
  cases h with
  | @facing more left htokens hopen hpoints hfaces =>
      have hall : taken ++ (more ++ left) = (taken ++ more) ++ left :=
        (List.append_assoc _ _ _).symm
      refine .facing (htokens ▸ hall) ?_ hpoints hfaces
      rw [List.map_append]
      exact hopen
  | @field more left dot field htokens hopen hdot hfield hpoints =>
      have hall : taken ++ (more ++ dot :: field :: left) =
          (taken ++ more) ++ dot :: field :: left :=
        (List.append_assoc _ _ _).symm
      refine .field (htokens ▸ hall) ?_ hdot hfield hpoints
      rw [List.append_assoc, List.map_append]
      exact hopen

/-- Whatever grammar error a step meets in front of these tokens, it is
stuck. -/
def Sticks (last : Nat) (prospect : Prospect) (tokens : List Token)
    (parser : Parser α) : Prop :=
  ∀ ⦃cursor after : Cursor⦄ ⦃error : GrammarError⦄,
    cursor.Faces last tokens → parser cursor = .error (.grammar error) after →
    Stuck last prospect tokens error after

theorem Sticks.of_lexical
    {parser : Parser α}
    (h : (∀ token ∈ tokens, token.word.Lexical) →
      Sticks last prospect tokens parser) :
    Sticks last prospect tokens parser := by
  intro cursor after error hfaces hrun
  exact h hfaces.lexical hfaces hrun

theorem bind_eq_error
    {parser : Parser α} {next : α → Parser β} {cursor after : Cursor}
    {fault : Fault} (h : (parser >>= next) cursor = .error fault after) :
    parser cursor = .error fault after ∨
      ∃ value middle, parser cursor = .ok value middle ∧
        next value middle = .error fault after := by
  cases hrun : parser cursor with
  | ok value middle =>
      rw [bind_ok hrun] at h
      exact .inr ⟨value, middle, rfl, h⟩
  | error other middle =>
      rw [bind_error hrun] at h
      cases h
      exact .inl rfl

theorem length_lt_of_words
    {left : List Token} {words : List Word}
    (h : tokens.map Token.word = words ++ left.map Token.word)
    (hpos : 0 < words.length) : left.length < tokens.length := by
  have hlength := congrArg List.length h
  simp only [List.length_map, List.length_append] at hlength
  omega

/-- A step that took some words, and one that gets stuck behind them. -/
theorem Sticks.bind
    {parser : Parser α} {next : α → Parser β} (hproceeds : Proceeds parser)
    (hfirst : Sticks last prospect tokens parser)
    (hnext : ∀ ⦃cursor after : Cursor⦄ ⦃value : α⦄,
      cursor.Faces last tokens → parser cursor = .ok value after →
      ∃ words rest, tokens.map Token.word = words ++ rest ∧
        after.Reads rest ∧ ∀ left : List Token, left.map Token.word = rest →
          Sticks last (prospect.behind words) left (next value)) :
    Sticks last prospect tokens (parser >>= next) := by
  intro cursor after error hfaces hrun
  rcases bind_eq_error hrun with hrun | ⟨value, middle, hok, hrun⟩
  · exact hfirst hfaces hrun
  · obtain ⟨words, rest, hwords, hreads, hsticks⟩ := hnext hfaces hok
    obtain ⟨taken, left, rfl, rfl, hleft, hmiddle⟩ :=
      hproceeds.exists_taken hfaces hok hwords hreads
    exact (hsticks left hleft hmiddle hrun).prepend

/-! ## Steps that take nothing -/

theorem sticks_unexpected
    (expected : Expectation) (hopen : prospect.Open []) :
    Sticks last prospect tokens (unexpected expected : Parser α) := by
  intro cursor after error hfaces hrun
  unfold unexpected at hrun
  rw [bind_ok (get_apply cursor), hfaces.current] at hrun
  have hline := hfaces.line
  cases tokens with
  | nil =>
      cases hrun
      exact .facing (List.nil_append _).symm hopen ⟨rfl, hline⟩ hfaces
  | cons token tokens =>
      cases hrun
      exact .facing (List.nil_append _).symm hopen ⟨rfl, rfl⟩ hfaces

theorem sticks_pure (value : α) :
    Sticks last prospect tokens (pure value) := by
  intro cursor after error _ hrun
  cases hrun

theorem sticks_ofScope (outcome : Except ScopeError α) :
    Sticks last prospect tokens (ofScope outcome) := by
  intro cursor after error _ hrun
  cases outcome <;> cases hrun

theorem Sticks.before_pure
    {parser : Parser α} (h : Sticks last prospect tokens parser) (f : α → β) :
    Sticks last prospect tokens (parser >>= fun value => pure (f value)) := by
  intro cursor after error hfaces hrun
  rcases bind_eq_error hrun with hrun | ⟨_, _, -, hrun⟩
  · exact h hfaces hrun
  · cases hrun

section After

variable {next : α → Parser β}

theorem Sticks.after_ofScope
    {outcome : Except ScopeError α}
    (hnext : ∀ value, Sticks last prospect tokens (next value)) :
    Sticks last prospect tokens (ofScope outcome >>= next) := by
  intro cursor after error hfaces hrun
  cases outcome with
  | ok value => exact hnext value hfaces hrun
  | error error => cases hrun

theorem Sticks.after_log
    {next : Unit → Parser β} {event : Event}
    (hnext : Sticks last prospect tokens (next ())) :
    Sticks last prospect tokens (log event >>= next) := by
  intro cursor after error hfaces hrun
  exact hnext (hfaces.log event) hrun

/-- A look at the next word. -/
theorem Sticks.after_look
    {parser : Parser α} (look : Option Word → α)
    (hlook : ∀ cursor : Cursor,
      parser cursor = .ok (look (cursor.current.map Token.word)) cursor)
    (hnext : Sticks last prospect tokens
      (next (look (tokens.head?.map Token.word)))) :
    Sticks last prospect tokens (parser >>= next) := by
  intro cursor after error hfaces hrun
  rw [bind_ok (hlook cursor), hfaces.current] at hrun
  exact hnext hfaces hrun

/-- A look for one of some words. -/
theorem Sticks.after_lookup
    {γ : Type} {parser : Parser (Option γ)} {next : Option γ → Parser β}
    (meaning : Word → Option γ)
    (hlook : ∀ cursor : Cursor,
      parser cursor = .ok ((cursor.current.map Token.word).bind meaning) cursor)
    (hnone : Sticks last prospect tokens (next none))
    (hsome : ∀ token rest value, tokens = token :: rest →
      meaning token.word = some value →
      Sticks last prospect tokens (next (some value))) :
    Sticks last prospect tokens (parser >>= next) := by
  apply Sticks.after_look (fun word => word.bind meaning) hlook
  cases tokens with
  | nil => exact hnone
  | cons token rest =>
      cases hmeaning : meaning token.word with
      | none => simpa [hmeaning] using hnone
      | some value => simpa [hmeaning] using hsome token rest value rfl hmeaning

theorem Sticks.after_remaining
    {next : Nat → Parser β}
    (hnext : ∀ budget, tokens.length ≤ budget →
      Sticks last prospect tokens (next budget)) :
    Sticks last prospect tokens (remaining >>= next) := by
  intro cursor after error hfaces hrun
  have hbudget : remaining cursor = .ok cursor.remaining cursor := rfl
  rw [bind_ok hbudget] at hrun
  exact hnext _ hfaces.length_le_remaining hfaces hrun

end After

theorem Sticks.after_sees
    {text : String} {next : Bool → Parser β} (kind : Token.Kind)
    (hkind : Lexeme.classify text.toList = some kind)
    (hyes : ∀ token rest, tokens = token :: rest → token.word = ⟨text, kind⟩ →
      Sticks last prospect tokens (next true))
    (hno : Sticks last prospect tokens (next false)) :
    Sticks last prospect tokens (sees text >>= next) := by
  intro cursor after error hfaces hrun
  have hsees : sees text cursor =
      .ok (tokens.head?.any (·.text == text)) cursor := by
    rw [← hfaces.current]
    rfl
  rw [bind_ok hsees] at hrun
  cases hseen : tokens.head?.any (·.text == text) with
  | false =>
      rw [hseen] at hrun
      exact hno hfaces hrun
  | true =>
      rw [hseen] at hrun
      cases tokens with
      | nil => cases hseen
      | cons token rest =>
          have htext : token.text = text := by simpa using hseen
          have hword := (hfaces.lexical token (.head _)).eq_of_text htext hkind
          exact hyes token rest rfl hword hfaces hrun

/-! ## Steps that take a token -/

theorem sticks_advance : Sticks last prospect tokens advance := by
  intro cursor after error hfaces hrun
  obtain ⟨middle, hadvance, -⟩ := hfaces.exists_advance
  rw [hadvance] at hrun
  cases hrun

theorem Sticks.after_advance
    {next : Unit → Parser β} {token : Token}
    (hnext : Sticks last (prospect.behind [token.word]) tokens (next ())) :
    Sticks last prospect (token :: tokens) (advance >>= next) := by
  intro cursor after error hfaces hrun
  obtain ⟨middle, hadvance, hmiddle⟩ := hfaces.exists_advance
  rw [bind_ok hadvance] at hrun
  have hstuck : Stuck last (prospect.behind ([token].map Token.word)) tokens
      error after := hnext hmiddle hrun
  exact hstuck.prepend

theorem sticks_expect (text : String) (hopen : prospect.Open []) :
    Sticks last prospect tokens (expect text) := by
  apply Sticks.after_look fun word => word.any (·.text == text)
  · intro cursor
    rw [Option.any_map]
    rfl
  · split
    · exact sticks_advance
    · exact sticks_unexpected _ hopen

theorem Sticks.after_expect
    {text : String} {next : Unit → Parser β} (kind : Token.Kind)
    (hkind : Lexeme.classify text.toList = some kind)
    (hopen : prospect.Open [])
    (hnext : ∀ left : List Token, left.length < tokens.length →
      Sticks last (prospect.behind [⟨text, kind⟩]) left (next ())) :
    Sticks last prospect tokens (expect text >>= next) := by
  apply Sticks.bind
    (proceeds_of_lockstep fun _ => ⟨_, Pairing.lockstep_expect text⟩)
    (sticks_expect text hopen)
  intro cursor after _ hfaces hrun
  obtain ⟨rest, hwords, hreads, -⟩ :=
    expect_eq_ok kind hfaces.reads hfaces.lexical_words hkind hrun
  refine ⟨[⟨text, kind⟩], rest, hwords, hreads, ?_⟩
  rintro left rfl
  have htaken : tokens.map Token.word =
      [⟨text, kind⟩] ++ left.map Token.word := hwords
  exact hnext left (length_lt_of_words htaken Nat.one_pos)

theorem sticks_take (expected : Expectation) (hopen : prospect.Open []) :
    Sticks last prospect tokens (take expected) := by
  intro cursor after error hfaces hrun
  cases tokens with
  | nil =>
      unfold take at hrun
      rw [bind_ok (get_apply cursor), hfaces.current] at hrun
      exact sticks_unexpected expected hopen hfaces hrun
  | cons token tokens =>
      obtain ⟨middle, htake, -⟩ := hfaces.exists_take expected
      rw [htake] at hrun
      cases hrun

theorem Sticks.after_take
    {expected : Expectation} {next : Token → Parser β} {token : Token}
    (hnext : Sticks last (prospect.behind [token.word]) tokens (next token)) :
    Sticks last prospect (token :: tokens) (take expected >>= next) := by
  intro cursor after error hfaces hrun
  obtain ⟨middle, htake, hmiddle⟩ := hfaces.exists_take expected
  rw [bind_ok htake] at hrun
  have hstuck : Stuck last (prospect.behind ([token].map Token.word)) tokens
      error after := hnext hmiddle hrun
  exact hstuck.prepend

theorem Sticks.after_expectKind
    {kind : Token.Kind} {expected : Expectation} {next : Token → Parser β}
    (hopen : prospect.Open [])
    (hnext : ∀ (token : Token) (left : List Token),
      Lexeme.classify token.text.toList = some kind →
      Sticks last (prospect.behind [⟨token.text, kind⟩]) left (next token)) :
    Sticks last prospect tokens (expectKind kind expected >>= next) := by
  have hfirst : Sticks last prospect tokens (expectKind kind expected) := by
    apply Sticks.after_look fun word => word.any (·.kind == kind)
    · intro cursor
      rw [Option.any_map]
      rfl
    · split
      · exact sticks_take expected hopen
      · exact sticks_unexpected expected hopen
  apply Sticks.bind
    (proceeds_of_lockstep fun _ => ⟨_, Pairing.lockstep_expectKind kind expected⟩)
    hfirst
  intro cursor after token hfaces hrun
  obtain ⟨rest, hwords, hvalid, hreads, -⟩ :=
    expectKind_eq_ok hfaces.reads hfaces.lexical_words hrun
  exact ⟨[⟨token.text, kind⟩], rest, hwords, hreads, fun left _ =>
    hnext token left hvalid⟩

end Parser

end SelectChain

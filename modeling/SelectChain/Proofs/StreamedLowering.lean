import SelectChain.Proofs.Acceptance
import SelectChain.Proofs.LockstepGrammar
import Mathlib.Tactic

/-!
# Lowering while scanning

A text may be scanned as a whole before the grammar sees it, or token by token
as the grammar asks for them.  The two ways agree on readable texts.  On other
texts the grammar may find a fault before it reaches the unreadable run, and then
the fault is one of the tokens in front of that run: whatever tokens follow
these, lowering ends with the same fault.
-/

namespace SelectChain

open Grammar

/-- What a lowering hands out under a target: the text and the scopes. -/
def Lowering.written (target : Target) (lowering : Lowering) :
    Except Fault (String × List Scope) :=
  lowering.outcome.map fun chain => (chain.text target, chain.scopes)

theorem Lowering.written_of_error
    {lowering : Lowering} {fault : Fault} (h : lowering.outcome = .error fault)
    (target : Target) : lowering.written target = .error fault := by
  rw [written, h]
  rfl

/-- The first run stops at one unreadable run; up to there both see the same
tokens. -/
def Pairing.upTo (error : ScanError) : Pairing where
  SameLine := Eq
  sameLine_refl _ := rfl
  Stops := (· = error)
  Beyond _ := True
  beyond_advance _ _ := trivial
  beyond_log _ _ _ := trivial

/-- Where lines are the same, so are faults. -/
theorem Pairing.SameFault.eq_of_sameLine
    {pairing : Pairing} {fault fault' : Fault}
    (h : pairing.SameFault fault fault')
    (hlines : ∀ line line', pairing.SameLine line line' → line = line') :
    fault = fault' := by
  cases h with
  | grammar hline => rw [hlines _ _ hline]
  | scope error => rfl

theorem Pairing.SameFault.ne_lexical
    {pairing : Pairing} {fault fault' : Fault}
    (h : pairing.SameFault fault fault') (error : ScanError) :
    fault ≠ .lexical error := by
  cases h <;> simp

/-- Tokens in front of both runs are words in common. -/
theorem Pairing.Follows.prepend
    {pairing : Pairing} {words : Nat} {left right : List Item}
    (h : pairing.Follows words left right) (tokens : List Token) :
    pairing.Follows (tokens.length + words) (tokens.map .ok ++ left)
      (tokens.map .ok ++ right) := by
  induction tokens with
  | nil => simpa using h
  | cons token tokens ih =>
      rw [List.length_cons, Nat.add_right_comm]
      exact .token (pairing.sameToken_refl token) ih

theorem exists_rest_of_tokensOf_eq_error
    {items : List Item} {error : ScanError}
    (h : tokensOf items = .error error) :
    ∃ rest, items = (readableTokens items).map .ok ++ .error error :: rest := by
  induction items with
  | nil => cases h
  | cons item items ih =>
      cases item with
      | error other =>
          cases h
          exact ⟨items, rfl⟩
      | ok token =>
          cases hrest : tokensOf items with
          | ok tokens => simp [tokensOf, hrest] at h
          | error other =>
              simp only [tokensOf, hrest, Except.error.injEq] at h
              subst h
              obtain ⟨rest, hitems⟩ := ih hrest
              exact ⟨rest, congrArg (List.cons _) hitems⟩

theorem follows_readable
    (error : ScanError) (tokens more : List Token) (rest : List Item) :
    (Pairing.upTo error).Follows ((grammarTokens tokens).length + 0)
      (grammarItems (tokens.map .ok ++ .error error :: rest))
      (grammarItems ((tokens ++ more).map .ok)) := by
  have hstop : (Pairing.upTo error).Follows 0
      (grammarItems (.error error :: rest)) (grammarItems (more.map .ok)) := by
    rw [grammarItems_error]
    exact .stop rfl fun _ _ => trivial
  rw [List.map_append, grammarItems_append, grammarItems_append,
    grammarItems_map_ok]
  exact hstop.prepend _

/-- Up to an unreadable run, it makes no difference what follows: lowering ends
at that run, or as it does on the tokens in front of it and any others. -/
theorem outcome_ofStream
    {source : String} {error : ScanError}
    (h : tokenize source = .error error) (more : List Token) :
    (Lowering.ofStream source).outcome = .error (.lexical error) ∨
      (Lowering.ofStream source).outcome =
          (Lowering.ofTokens (readableTokens (scan source) ++ more)).outcome ∧
        ∀ other, (Lowering.ofStream source).outcome ≠
          .error (.lexical other) := by
  obtain ⟨rest, hitems⟩ := exists_rest_of_tokensOf_eq_error h
  have houtcome :=
    (follows_readable error (readableTokens (scan source)) more rest).outcome
  rw [← hitems, ← Lowering.ofStream] at houtcome
  rcases houtcome with ⟨chain, hleft, hright⟩ |
    ⟨fault, fault', hfault, hleft, hright⟩ | ⟨other, hstops, hleft⟩
  · right
    rw [hleft]
    exact ⟨hright.symm, by simp⟩
  · right
    rw [hleft]
    obtain rfl := hfault.eq_of_sameLine fun _ _ => id
    refine ⟨hright.symm, ?_⟩
    intro other heq
    exact hfault.ne_lexical other (Except.error.inj heq)
  · left
    obtain rfl : other = error := hstops
    exact hleft

theorem lexical_of_readable (source : String) :
    ∀ word ∈ grammarWords (readableTokens (scan source)), word.Lexical := by
  have hreadable : ∀ items : List Item, ∀ token ∈ readableTokens items,
      .ok token ∈ items := by
    intro items token
    fun_induction readableTokens items with
    | case1 first rest ih =>
        intro hmem
        rcases List.mem_cons.mp hmem with rfl | hmem
        · exact .head _
        · exact .tail _ (ih hmem)
    | case2 => simp
  intro word hword
  obtain ⟨token, htoken, rfl⟩ := List.mem_map.mp hword
  obtain ⟨hmem, htrivia⟩ := List.mem_filter.mp htoken
  exact Reader.classify_of_mem_items (hreadable _ _ hmem) (by simpa using htrivia)

/-- The words of a program end in a parenthesis, so that no program is another
with a name behind it. -/
theorem Grammar.Program.words_ne_append_call (program other : Program)
    (text : String) : program.words ≠ other.words ++ [.call text] := by
  intro heq
  have hlast : program.words.getLast? = some (.mark ")") := by
    rw [words, List.getLast?_append]
    rfl
  rw [heq, List.getLast?_concat] at hlast
  simp [Word.mark, Word.call] at hlast

/-- Success in front of an unreadable run would be success with whatever
follows. -/
theorem ofStream_ne_ok
    {source : String} {error : ScanError}
    (h : tokenize source = .error error) (chain : Chain) :
    (Lowering.ofStream source).outcome ≠ .ok chain := by
  intro hok
  have hall : ∀ more : List Token,
      (∀ word ∈ grammarWords more, word.Lexical) →
      ∃ program : Program, program.words =
        grammarWords (readableTokens (scan source)) ++ grammarWords more := by
    intro more hmore
    have hwords : grammarWords (readableTokens (scan source) ++ more) =
        grammarWords (readableTokens (scan source)) ++ grammarWords more := by
      simp [grammarWords, grammarTokens]
    rcases outcome_ofStream h more with hstream | ⟨hstream, -⟩
    · rw [hstream] at hok
      cases hok
    · rw [hstream] at hok
      rw [← hwords]
      apply exists_program_of_ofTokens _ hok
      rw [hwords]
      intro word hword
      rcases List.mem_append.mp hword with hword | hword
      · exact lexical_of_readable source word hword
      · exact hmore word hword
  -- Both the tokens as they are and those with a name behind them are a program.
  obtain ⟨program, hprogram⟩ := hall [] (by simp [grammarWords, grammarTokens])
  obtain ⟨longer, hlonger⟩ := hall [⟨"sc", .identifier, 1⟩] (by decide)
  have hnil : grammarWords [] = [] := rfl
  rw [hnil, List.append_nil] at hprogram
  rw [← hprogram] at hlonger
  exact longer.words_ne_append_call program "sc" hlonger

/-- Lowering a text while it is scanned agrees with lowering it afterwards.  On
a text with an unreadable run, the former is also refused, either for that run
or for a fault that every continuation of the tokens in front of it has. -/
theorem streamed_lowering_agrees (source : String) (target : Target) :
    (∀ tokens, tokenize source = .ok tokens →
      (Lowering.ofStream source).written target =
        (Lowering.ofSource source).written target) ∧
    ∀ error, tokenize source = .error error →
      (Lowering.ofSource source).written target = .error (.lexical error) ∧
      (∀ value, (Lowering.ofStream source).written target ≠ .ok value) ∧
      ((Lowering.ofStream source).written target = .error (.lexical error) ∨
        ∃ fault, (Lowering.ofStream source).written target = .error fault ∧
          (∀ other, fault ≠ .lexical other) ∧
          ∀ more, (Lowering.ofTokens
            (readableTokens (scan source) ++ more)).written target =
              .error fault) := by
  constructor
  · intro tokens htokens
    have hitems : scan source = tokens.map .ok := tokensOf_eq_ok htokens
    have hlower : lower source = (Lowering.ofTokens tokens).outcome :=
      lower_eq_ofTokens htokens
    have hstream : (Lowering.ofStream source).outcome =
        (Lowering.ofTokens tokens).outcome := by
      rw [Lowering.ofStream, hitems]
      rfl
    rw [Lowering.written, Lowering.written, hstream, ← hlower]
    rfl
  · intro error herror
    have heager : (Lowering.ofSource source).outcome =
        .error (.lexical error) := lower_of_unreadable herror
    refine ⟨Lowering.written_of_error heager target, ?_⟩
    cases hstream : (Lowering.ofStream source).outcome with
    | ok chain => exact absurd hstream (ofStream_ne_ok herror chain)
    | error fault =>
        have hcases := outcome_ofStream herror
        rw [hstream] at hcases
        rw [Lowering.written_of_error hstream target]
        refine ⟨by simp, ?_⟩
        by_cases hlexical : fault = .lexical error
        · exact .inl (congrArg Except.error hlexical)
        · have hgrammar := fun more => (hcases more).resolve_left
            fun heq => hlexical (Except.error.inj heq)
          refine .inr ⟨fault, rfl, ?_, ?_⟩
          · intro other heq
            exact (hgrammar []).2 other (congrArg Except.error heq)
          · intro more
            exact Lowering.written_of_error (hgrammar more).1.symm target

/-- A wrong word, with and without an unreadable run behind it. -/
theorem misspelt_session_streamed :
    (Lowering.ofStream "cs.").written .standard =
        (Lowering.ofSource "cs.").written .standard ∧
      (Lowering.ofSource "cs.\n$").written .standard =
        .error (.lexical ⟨"$", 2⟩) ∧
      ∀ value, (Lowering.ofStream "cs.\n$").written .standard ≠ .ok value := by
  have hwords : (tokenize "cs.").map grammarWords =
      .ok [.call "cs", .mark "."] := by
    decide +kernel
  have herror : tokenize "cs.\n$" = .error ⟨"$", 2⟩ := by
    decide +kernel
  obtain ⟨tokens, htokens, -⟩ := exists_tokens_of_words hwords
  have hunreadable := (streamed_lowering_agrees "cs.\n$" .standard).2 _ herror
  exact ⟨(streamed_lowering_agrees "cs." .standard).1 tokens htokens,
    hunreadable.1, hunreadable.2.1⟩

end SelectChain

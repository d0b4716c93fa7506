import SelectChain.Proofs.Respelling
import SelectChain.Proofs.StreamedLowering
import Mathlib.Tactic

/-!
# Blanks, comments and line breaks

What a text is lowered to depends on the words that the grammar sees: their
texts, categories and order.  Two texts with the same words are lowered to the
same chain, or refused for the same reason; only the line of a grammar error may
differ.  In particular a text can be reduced to its tokens with single blanks
between them.
-/

namespace SelectChain

open Grammar

/-- A fault apart from the line of a grammar error. -/
def Fault.unplaced : Fault → Fault
  | .grammar error => .grammar { error with line := 0 }
  | .lexical error => .lexical error
  | .scope error => .scope error

/-- Neither run stops early, and lines are of no account. -/
def Pairing.reformatted : Pairing where
  SameLine _ _ := True
  sameLine_refl _ := trivial
  Stops _ := False
  Beyond _ := True
  beyond_advance _ _ := trivial
  beyond_log _ _ _ := trivial

theorem Pairing.follows_of_word_eq
    {tokens tokens' : List Token}
    (h : tokens.map Token.word = tokens'.map Token.word) :
    reformatted.Follows tokens.length (tokens.map .ok) (tokens'.map .ok) := by
  induction tokens generalizing tokens' with
  | nil =>
      cases tokens' with
      | nil => exact .done
      | cons token tokens' => cases h
  | cons token tokens ih =>
      cases tokens' with
      | nil => cases h
      | cons token' tokens' =>
          rw [List.map_cons, List.map_cons, List.cons.injEq] at h
          exact .token ⟨h.1, trivial⟩ (ih h.2)

theorem Pairing.SameFault.unplaced_eq
    {pairing : Pairing} {fault fault' : Fault}
    (h : pairing.SameFault fault fault') : fault.unplaced = fault'.unplaced := by
  cases h <;> rfl

theorem written_unplaced_eq
    {source source' : String} {tokens tokens' : List Token}
    (h : tokenize source = .ok tokens) (h' : tokenize source' = .ok tokens')
    (hwords : grammarWords tokens = grammarWords tokens') (target : Target) :
    ((Lowering.ofSource source).written target).mapError Fault.unplaced =
      ((Lowering.ofSource source').written target).mapError
        Fault.unplaced := by
  have hfollows := Pairing.follows_of_word_eq hwords
  rw [← grammarItems_map_ok, ← grammarItems_map_ok] at hfollows
  have hleft : (Lowering.ofSource source).outcome =
      (Lowering.run (tokens.map .ok)).outcome := lower_eq_ofTokens h
  have hright : (Lowering.ofSource source').outcome =
      (Lowering.run (tokens'.map .ok)).outcome := lower_eq_ofTokens h'
  rcases hfollows.outcome with ⟨chain, hok, hok'⟩ |
    ⟨fault, fault', hfault, herror, herror'⟩ | ⟨error, hstops, -⟩
  · rw [Lowering.written, Lowering.written, hleft, hright, hok, hok']
  · rw [Lowering.written_of_error (hleft.trans herror),
      Lowering.written_of_error (hright.trans herror')]
    exact congrArg Except.error hfault.unplaced_eq
  · exact hstops.elim

/-- Formatting is of no account: texts with the same words give the same text
and scopes or the same fault, up to the line of a grammar error.  The tokens of a
text alone, with single blanks between them, are such a text on one line. -/
theorem lowering_unchanged_by_formatting
    {source : String} {tokens : List Token}
    (h : tokenize source = .ok tokens) :
    (∀ source' tokens', tokenize source' = .ok tokens' →
      grammarWords tokens = grammarWords tokens' →
      ∀ target, ((Lowering.ofSource source).written target).mapError
          Fault.unplaced =
        ((Lowering.ofSource source').written target).mapError
          Fault.unplaced) ∧
    ∃ tokens', tokenize (spaced tokens) = .ok tokens' ∧
      grammarWords tokens' = grammarWords tokens ∧
      (∀ token ∈ grammarTokens tokens', token.line = 1) ∧
      ∀ target, ((Lowering.ofSource (spaced tokens)).written target).mapError
          Fault.unplaced =
        ((Lowering.ofSource source).written target).mapError
          Fault.unplaced := by
  constructor
  · intro source' tokens' h' hwords target
    exact written_unplaced_eq h h' hwords target
  · obtain ⟨tokens', h', hwords, hline⟩ := exists_tokenize_spaced h
    refine ⟨tokens', h', hwords, ?_, ?_⟩
    · intro token hmem
      exact hline token (List.mem_of_mem_filter hmem)
    · intro target
      exact written_unplaced_eq h' h hwords target

/-- A pipeline with a comment and a line break, and the same on one line. -/
theorem commented_range_on_one_line :
    ((Lowering.ofSource "sc.range(1,3)# numbers\n.collect()").written
        .standard).mapError Fault.unplaced =
      ((Lowering.ofSource "sc.range( 1, 3 ).collect()").written
        .standard).mapError Fault.unplaced := by
  let program : Program := ⟨⟨"1", by decide⟩, ⟨"3", by decide⟩, []⟩
  have hcommented :
      (tokenize "sc.range(1,3)# numbers\n.collect()").map grammarWords =
        .ok program.words := by
    decide +kernel
  have hplain : (tokenize "sc.range( 1, 3 ).collect()").map grammarWords =
      .ok program.words := by
    decide +kernel
  obtain ⟨tokens, htokens, hwords⟩ := exists_tokens_of_words hcommented
  obtain ⟨tokens', htokens', hwords'⟩ := exists_tokens_of_words hplain
  exact (lowering_unchanged_by_formatting htokens).1 _ tokens' htokens'
    (hwords.trans hwords'.symm) .standard

end SelectChain

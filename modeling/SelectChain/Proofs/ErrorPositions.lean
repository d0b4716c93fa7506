import SelectChain.Proofs.RenamedPrograms
import SelectChain.Proofs.StreamedLowering
import SelectChain.Proofs.StuckGrammar
import Mathlib.Tactic

/-!
# Where grammar errors are

A grammar error tells the first token that no program has in its place.  The
words in front of it are a beginning of some program, since that is where the
grammar gets stuck.  With the token itself they are not: up to the lookahead,
reading does not depend on what follows, so a program with this beginning would
be refused as well.  Only a refused field has been taken already; there it is
enough that a name follows every dot of a program.
-/

namespace SelectChain

open Grammar

namespace Grammar

/-! ## Dots in programs -/

/-- Words without trivia where a name stands behind every dot. -/
structure Regular (words : List Word) : Prop where
  proper : ∀ word ∈ words, word.kind.isTrivia = false
  dots : words.IsChain fun word next =>
    word = .mark "." → next.kind = .identifier
  ends : words.getLast? ≠ some (.mark ".")

theorem regular_single
    {word : Word} (hkind : word.kind.isTrivia = false)
    (hdot : word ≠ .mark ".") : Regular [word] :=
  ⟨by simpa using hkind, .singleton word, by simpa using hdot⟩

theorem regular_dot (name : Name) : Regular [.mark ".", name.word] :=
  ⟨by simp [Word.mark, Name.word, Token.Kind.isTrivia],
    List.isChain_cons_cons.mpr ⟨fun _ => rfl, .singleton _⟩,
    by simp [Word.mark, Name.word]⟩

theorem Regular.append
    {words more : List Word} (h : Regular words) (hmore : Regular more) :
    Regular (words ++ more) where
  proper word hmem := by
    rcases List.mem_append.mp hmem with hmem | hmem
    · exact h.proper word hmem
    · exact hmore.proper word hmem
  dots := by
    refine List.isChain_append.mpr ⟨h.dots, hmore.dots, ?_⟩
    rintro word hword next _ rfl
    exact absurd hword h.ends
  ends := by
    rw [List.getLast?_append]
    cases hlast : more.getLast? with
    | none => exact h.ends
    | some word =>
        have hends := hmore.ends
        rw [hlast] at hends
        exact hends

/-- The names of a program have nothing to do with its dots. -/
theorem respells_regular :
    Renaming.identity.Respells fun words _ => Regular words where
  nil := ⟨by simp, .nil, by simp⟩
  append := Regular.append
  mark _ _ hdot := regular_single rfl fun heq => hdot (congrArg Word.text heq)
  keyword _ _ := regular_single rfl (by simp [Word.keyword, Word.mark])
  name _ := regular_single rfl (by simp [Name.word, Word.mark])
  numeral _ := regular_single rfl (by simp [Numeral.word, Word.mark])
  dot := regular_dot

theorem Program.regular (program : Program) : Regular program.words := by
  have hsession : Regular [.call "sc"] :=
    regular_single rfl (by simp [Word.call, Word.mark])
  exact hsession.append (respells_regular.program program)

end Grammar

/-! ## Refusals are final -/

/-- The line of the last token; an input without tokens ends on line 1. -/
def lastLine (tokens : List Token) : Nat :=
  (tokens.getLast?.map Token.line).getD 1

theorem exists_faces
    {tokens : List Token}
    (hlexical : ∀ word ∈ grammarWords tokens, word.Lexical) :
    ∃ cursor : Cursor,
      Parser.advance (.ofItems (tokens.map .ok)) = .ok () cursor ∧
      cursor.Faces (lastLine (grammarTokens tokens)) (grammarTokens tokens) := by
  obtain ⟨cursor, hadvance, hholds, hline⟩ :=
    (Cursor.ofItems (tokens.map .ok)).exists_advance
      (grammarItems_map_ok tokens)
  refine ⟨cursor, hadvance, hholds, ?_, ?_, ?_⟩
  · rw [hline]
    cases grammarTokens tokens with
    | nil => rfl
    | cons token rest => rfl
  · intro token hlast
    rw [lastLine, hlast]
    rfl
  · intro token hmem
    exact hlexical _ (List.mem_map_of_mem hmem)

/-- The second run has at most so many words ahead of it. -/
def Pairing.beyond (count : Nat) : Pairing where
  SameLine := Eq
  sameLine_refl _ := rfl
  Stops _ := True
  Beyond cursor := ∃ rest, rest.length ≤ count ∧ cursor.Holds rest
  beyond_advance cursor := by
    rintro ⟨rest, hlength, hholds⟩
    obtain ⟨after, hrun, hafter, -⟩ := cursor.exists_advance hholds.ahead
    rw [hrun]
    refine ⟨rest.tail, ?_, hafter⟩
    rw [List.length_tail]
    omega
  beyond_log cursor event := by
    rintro ⟨rest, hlength, hholds⟩
    exact ⟨rest, hlength, hholds.log event⟩

/-- A token that spells a word. -/
def Word.token (word : Word) : Token :=
  ⟨word.text, word.kind, 1⟩

theorem grammarWords_map_token
    {words : List Word} (h : ∀ word ∈ words, word.kind.isTrivia = false) :
    grammarWords (words.map Word.token) = words := by
  have hself : grammarTokens (words.map Word.token) = words.map Word.token := by
    apply List.filter_eq_self.mpr
    intro token hmem
    obtain ⟨word, hword, rfl⟩ := List.mem_map.mp hmem
    simp [Token.isTrivia, Word.token, h word hword]
  rw [grammarWords, hself, List.map_map]
  exact List.map_id words

section Refused

variable {all taken left : List Token} {token : Token} {error : GrammarError}
  {after : Cursor} (htokens : grammarTokens all = taken ++ token :: left)

include htokens

theorem grammarTokens_taken :
    grammarTokens (taken ++ [token]) = taken ++ [token] := by
  rw [List.append_cons] at htokens
  apply grammarTokens_eq_self
  rw [htokens]
  exact List.subset_append_left _ _

variable (hrun : (Parser.advance >>= fun _ => Parser.pipeline)
    (.ofItems (all.map .ok)) = .error (.grammar error) after)
  (hholds : after.Holds (token :: left))

include hrun hholds

/-- A token that is refused as the lookahead is refused whatever follows, even
an unreadable run. -/
theorem refused_before_error (unread : ScanError) :
    ∃ error', (Lowering.run
      ((taken ++ [token]).map .ok ++ [.error unread])).outcome =
        .error (.grammar error') := by
  have hstop : (Pairing.beyond left.length).Follows 0 [.error unread]
      (left.map .ok) := by
    apply Pairing.Follows.stop trivial
    intro cursor hahead
    obtain ⟨after, hadvance, hafter, -⟩ := cursor.exists_advance hahead
    rw [hadvance]
    exact ⟨left, Nat.le_refl _, hafter⟩
  have hproper := grammarTokens_taken htokens
  have hfollows := hstop.prepend (taken ++ [token])
  have hleft : grammarItems
      ((taken ++ [token]).map .ok ++ [.error unread]) =
        (taken ++ [token]).map .ok ++ [.error unread] := by
    rw [grammarItems_append, grammarItems_map_ok, hproper]
    rfl
  have hright : grammarItems (all.map .ok) =
      (taken ++ [token]).map .ok ++ left.map .ok := by
    rw [grammarItems_map_ok, htokens, List.append_cons, List.map_append]
  rw [← hleft, ← hright] at hfollows
  have hmatched := hfollows.run
  rw [hrun] at hmatched
  unfold Lowering.run
  generalize (Parser.advance >>= fun _ => Parser.pipeline) _ = result at hmatched
  cases hmatched with
  | fault hfault =>
      cases hfault with
      | grammar hline => exact ⟨_, rfl⟩
  | stopped _ hbeyond =>
      -- The unreadable run was reached only behind the token, where the run
      -- over all tokens has fewer of them ahead than at its error.
      obtain ⟨rest, hlength, hrest⟩ := hbeyond
      have heq : rest = token :: left := Cursor.Holds.unique hrest hholds
      rw [heq] at hlength
      simp at hlength

/-- No program starts with the tokens up to one that is refused as the
lookahead. -/
theorem not_isPrefix_of_refused (program : Program) :
    ¬ (taken ++ [token]).map Token.word <+: program.words := by
  rintro ⟨more, hmore⟩
  obtain ⟨error', hrefused⟩ :=
    refused_before_error htokens hrun hholds ⟨"", 1⟩
  have hproper : ∀ word ∈ more, word.kind.isTrivia = false := by
    intro word hmem
    apply program.regular.proper
    rw [← hmore]
    exact List.mem_append_right _ hmem
  have hwords : program.words =
      grammarWords (taken ++ [token] ++ more.map Word.token) := by
    rw [grammarWords, grammarTokens, List.filter_append, List.map_append,
      ← grammarTokens, ← grammarTokens, grammarTokens_taken htokens,
      ← grammarWords, grammarWords_map_token hproper, hmore]
  have hprogram := ofTokens_of_program hwords
  -- The program and the refused beginning are in lockstep up to the token.
  rcases (follows_readable ⟨"", 1⟩ (taken ++ [token]) (more.map Word.token)
    []).outcome with ⟨chain, hleft, -⟩ |
      ⟨fault, fault', hfault, hleft, hright⟩ | ⟨_, -, hleft⟩
  · rw [hrefused] at hleft
    cases hleft
  · rw [hrefused] at hleft
    cases hleft
    rw [← hfault.eq_of_sameLine fun _ _ => id] at hright
    have hsame := hright.symm.trans hprogram
    cases houtcome : program.outcome <;> rw [houtcome] at hsame <;> cases hsame
  · rw [hrefused] at hleft
    cases hleft

end Refused

/-- No program starts with the tokens up to a field that is no name. -/
theorem not_isPrefix_of_field
    {taken : List Token} {dot field : Token} (hdot : dot.word = .mark ".")
    (hfield : field.kind ≠ .identifier) (program : Program) :
    ¬ (taken ++ [dot, field]).map Token.word <+: program.words := by
  rintro ⟨more, hmore⟩
  have hdots := program.regular.dots
  rw [← hmore, List.map_append, List.append_assoc] at hdots
  have hbehind := (List.isChain_append.mp hdots).2.1
  exact hfield ((List.isChain_cons_cons.mp hbehind).1 hdot)

/-- The beginnings of programs. -/
def viable : Prospect where
  Open words := ∃ program : Program, words <+: program.words
  of_append := by
    rintro words rest ⟨program, hbegins⟩
    exact ⟨program, (List.prefix_append words rest).trans hbegins⟩

/-- A grammar error at a token. -/
structure GrammarError.LocatedAt (error : GrammarError) (tokens : List Token)
    (k : Nat) (token : Token) : Prop where
  token_eq : tokens[k]? = some token
  found : error.found = some token.text
  described : error.describeFound = "`" ++ token.text ++ "`"
  line : error.line = token.line
  final : ∀ program : Program,
    ¬ (tokens.take (k + 1)).map Token.word <+: program.words

/-- A grammar error at the end. -/
structure GrammarError.LocatedAtEnd (error : GrammarError)
    (tokens : List Token) : Prop where
  incomplete : ∀ program : Program, program.words ≠ tokens.map Token.word
  found : error.found = none
  described : error.describeFound = "end of input"
  line : error.line = lastLine tokens

theorem GrammarError.PointsAt.locatedAt
    {error : GrammarError} {last : Nat} {taken left : List Token}
    {token : Token} (h : error.PointsAt last (token :: left))
    (hlexical : token.word.Lexical) (hproper : token.isTrivia = false)
    (hfinal : ∀ program : Program,
      ¬ (taken ++ [token]).map Token.word <+: program.words) :
    error.LocatedAt (taken ++ token :: left) taken.length token where
  token_eq := by simp
  found := h.found
  described := by
    have htrim : Text.trimEnd token.text.toList = token.text.toList :=
      Lexeme.trimEnd_of_classify hlexical hproper
    have hfound : error.found = some token.text := h.found
    rw [describeFound, hfound]
    simp only [htrim, String.ofList_toList, backquoted]
  line := h.line
  final := by
    have htake : (taken ++ token :: left).take (taken.length + 1) =
        taken ++ [token] := by
      have hlength : taken.length + 1 = (taken ++ [token]).length := by simp
      rw [List.append_cons, hlength, List.take_left]
    rw [htake]
    exact hfinal

/-- A text is refused where the grammar gets stuck on its tokens. -/
theorem exists_stuck
    {source : String} {tokens : List Token}
    (h : tokenize source = .ok tokens) {error : GrammarError}
    (herror : lower source = .error (.grammar error)) :
    ∃ after, (Parser.advance >>= fun _ => Parser.pipeline)
        (.ofItems (tokens.map .ok)) = .error (.grammar error) after ∧
      Parser.Stuck (lastLine (grammarTokens tokens)) viable
        (grammarTokens tokens) error after := by
  obtain ⟨cursor, hadvance, hfaces⟩ := exists_faces (lexical_of_tokenize h)
  have hopen : ∀ program : Program, viable.Open program.words :=
    fun program => ⟨program, List.prefix_rfl⟩
  have houtcome := (lower_eq_ofTokens h).symm.trans herror
  simp only [Lowering.ofTokens, Lowering.run] at houtcome
  rw [Parser.bind_ok hadvance] at houtcome
  rw [Parser.bind_ok hadvance]
  cases hresult : Parser.pipeline cursor with
  | ok chain after =>
      rw [hresult] at houtcome
      cases houtcome
  | error fault after =>
      rw [hresult] at houtcome
      cases houtcome
      exact ⟨after, rfl, Parser.sticks_pipeline hopen hfaces hresult⟩

/-- A grammar error tells the first token with which no program can go on from
the tokens in front of it, or that the input ends where no program does. -/
theorem grammar_error_located
    {source : String} {tokens : List Token}
    (h : tokenize source = .ok tokens) {error : GrammarError}
    (herror : lower source = .error (.grammar error)) :
    ∃ k, (∃ program : Program,
        ((grammarTokens tokens).take k).map Token.word <+: program.words) ∧
      ((∃ token, error.LocatedAt (grammarTokens tokens) k token) ∨
        (grammarTokens tokens).length = k ∧
          error.LocatedAtEnd (grammarTokens tokens)) := by
  have htoken : ∀ token ∈ grammarTokens tokens,
      token.word.Lexical ∧ token.isTrivia = false := by
    intro token hmem
    exact ⟨lexical_of_tokenize h _ (List.mem_map_of_mem hmem),
      by simpa using (List.mem_filter.mp hmem).2⟩
  obtain ⟨after, hrun, hstuck⟩ := exists_stuck h herror
  rcases hstuck with
    @⟨taken, left, htokens, hviable, hpoints, hafter⟩ |
      @⟨taken, left, dot, field, htokens, hviable, hdot, hfield, hpoints⟩
  · refine ⟨taken.length, ?_, ?_⟩
    · rw [htokens, List.take_left]
      exact hviable
    cases left with
    | nil =>
        have hfound : error.found = none := hpoints.found
        refine .inr ⟨by simp [htokens], ?_, hfound, ?_, hpoints.line⟩
        · intro program hwords
          have hlower := lower_of_program h hwords
          rw [herror] at hlower
          cases houtcome : program.outcome <;> rw [houtcome] at hlower <;>
            cases hlower
        · rw [GrammarError.describeFound, hfound]
    | cons token left =>
        obtain ⟨hlexical, hproper⟩ := htoken token (by simp [htokens])
        have hfinal := not_isPrefix_of_refused htokens hrun hafter.toHolds
        rw [htokens]
        exact .inl ⟨token, hpoints.locatedAt hlexical hproper hfinal⟩
  · obtain ⟨hlexical, hproper⟩ := htoken field (by simp [htokens])
    have hfinal : ∀ program : Program,
        ¬ (taken ++ [dot] ++ [field]).map Token.word <+: program.words := by
      rw [List.append_assoc]
      exact not_isPrefix_of_field hdot hfield
    rw [List.append_cons] at htokens
    rw [htokens]
    refine ⟨(taken ++ [dot]).length, ?_,
      .inl ⟨field, hpoints.locatedAt hlexical hproper hfinal⟩⟩
    rw [List.take_left]
    exact hviable

/-- A bound of a range that is no number, on the second line. -/
theorem misplaced_name_located :
    let error : GrammarError := ⟨.rangeEnd, some "x", 2⟩
    lower "sc.range(1,\nx)" = .error (.grammar error) ∧
      ∃ tokens token, tokenize "sc.range(1,\nx)" = .ok tokens ∧
        (∃ program : Program,
          ((grammarTokens tokens).take 6).map Token.word <+: program.words) ∧
        error.LocatedAt (grammarTokens tokens) 6 token ∧
        token.text = "x" ∧ token.line = 2 ∧ error.describeFound = "`x`" := by
  intro error
  have herror : lower "sc.range(1,\nx)" = .error (.grammar error) := by
    decide +kernel
  have hwords : (tokenize "sc.range(1,\nx)").map grammarWords =
      .ok [.call "sc", .mark ".", .call "range", .mark "(", ⟨"1", .number⟩,
        .mark ",", .call "x", .mark ")"] := by
    decide +kernel
  obtain ⟨tokens, htokens, hgrammar⟩ := exists_tokens_of_words hwords
  obtain ⟨k, hviable, ⟨token, hlocated⟩ | ⟨-, hend⟩⟩ :=
    grammar_error_located htokens herror
  · have htext : token.text = "x" := (Option.some.inj hlocated.found).symm
    have hspelled : (grammarWords tokens)[k]?.map Word.text = some "x" := by
      rw [grammarWords, List.getElem?_map, hlocated.token_eq, ← htext]
      rfl
    rw [hgrammar] at hspelled
    obtain ⟨word, hword, -⟩ := Option.map_eq_some_iff.mp hspelled
    obtain ⟨hlt, -⟩ := List.getElem?_eq_some_iff.mp hword
    -- No other word is spelled like the one that was found.
    obtain rfl : k = 6 := by
      clear hword hlocated hviable
      simp only [List.length_cons, List.length_nil] at hlt
      revert hspelled
      interval_cases k <;> decide
    refine ⟨herror, tokens, token, htokens, hviable, hlocated, htext,
      hlocated.line.symm, ?_⟩
    rw [hlocated.described, htext]
    rfl
  · cases hend.found

end SelectChain

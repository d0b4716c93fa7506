import SelectChain.Proofs.ScannedPieces
import SelectChain.Proofs.ScopeRules
import Mathlib.Tactic

/-!
# Which texts are pipelines

A readable text is lowered if and only if its grammar words are derivable and
all bodies of the derivation are well scoped.  A derivable text with another body
is refused for a violation in the first such body.  `meets_pipeline` and
`pipeline_eq_ok` relate runs and derivations of whole programs, and the scope
rules decide between the outcomes.
-/

namespace SelectChain

namespace Grammar

def Transformation.outcome (transformation : Transformation) :
    Except ScopeError Stage :=
  transformation.body.outcome transformation.parameter.text

def Program.outcome (program : Program) : Except ScopeError Chain := do
  let stages ← program.transformations.mapM Transformation.outcome
  .ok ⟨program.start.text, program.stop.text, stages⟩

/-- Bodies are lowered in order up to the first one that breaks a rule. -/
theorem mapM_outcome_cases (transformations : List Transformation) :
    (∃ stages, transformations.mapM Transformation.outcome = .ok stages ∧
        ∀ transformation ∈ transformations, transformation.WellScoped) ∨
      ∃ error before faulty after,
        transformations.mapM Transformation.outcome = .error error ∧
        transformations = before ++ faulty :: after ∧
        (∀ transformation ∈ before, transformation.WellScoped) ∧
        faulty.Violates error := by
  induction transformations with
  | nil =>
      left
      exact ⟨[], rfl, by simp⟩
  | cons first rest ih =>
      rw [List.mapM_cons]
      rcases first.body.outcome_cases first.parameter.text with
        ⟨stage, hstage, hfirst⟩ | ⟨error, herror, hviolates⟩
      · rw [show first.outcome = .ok stage from hstage, ok_bind]
        rcases ih with
          ⟨stages, hstages, hrest⟩ |
            ⟨error, before, faulty, after, herror, hsplit, hbefore, hviolates⟩
        · left
          rw [hstages]
          refine ⟨stage :: stages, rfl, ?_⟩
          intro transformation hmem
          rcases List.mem_cons.mp hmem with rfl | hmem
          · exact hfirst
          · exact hrest transformation hmem
        · right
          rw [herror]
          refine ⟨error, first :: before, faulty, after, rfl, ?_, ?_,
            hviolates⟩
          · rw [hsplit, List.cons_append]
          · intro transformation hmem
            rcases List.mem_cons.mp hmem with rfl | hmem
            · exact hfirst
            · exact hbefore transformation hmem
      · right
        rw [show first.outcome = .error error from herror]
        exact ⟨error, [], first, rest, rfl, rfl, by simp, hviolates⟩

end Grammar

namespace Parser

open Grammar

/-! ## From derivations to runs -/

theorem meets_transformation
    (source : Transformation) (rest : List Word) :
    Meets transformation (source.words.tail ++ rest) source.outcome rest := by
  have hbody := meets_body source.parameter.text source.body
    (source.body.endsBefore_cons (.mark ")") rest (by rfl) (by decide))
  have hwords : source.words.tail ++ rest =
      .call "map" :: .mark "(" :: source.parameter.word :: .mark "=>" ::
        (source.body.words Expression.words ++ .mark ")" :: rest) := by
    simp [Transformation.words]
  rw [hwords]
  unfold transformation
  apply (meets_expect _ _ _).then
  apply (meets_expect _ _ _).then
  apply meets_expectKind _ rfl
  rintro ⟨text, kind, line⟩ htoken
  cases htoken
  apply (meets_expect _ _ _).then
  apply hbody.bind_self
  intro stage
  apply (meets_expect _ _ _).then
  exact meets_pure stage rest

theorem meets_stagesWithin
    (transformations : List Transformation) (done : List Stage)
    {budget : Nat} (hbudget : transformations.length < budget)
    (rest : List Word) :
    Meets (stagesWithin budget done)
      (transformations.flatMap Transformation.words ++
        .mark "." :: .call "collect" :: rest)
      (transformations.mapM Transformation.outcome >>= fun stages =>
        .ok (done ++ stages))
      (.call "collect" :: rest) := by
  induction transformations generalizing done budget with
  | nil =>
      obtain ⟨budget, rfl⟩ : ∃ fewer, budget = fewer + 1 :=
        ⟨budget - 1, by simp at hbudget; omega⟩
      unfold stagesWithin
      apply (meets_expect _ _ _).then
      apply (meets_sees "collect" _).then
      simpa [ok_bind, Word.call] using meets_pure done (.call "collect" :: rest)
  | cons first transformations ih =>
      obtain ⟨budget, rfl⟩ : ∃ fewer, budget = fewer + 1 :=
        ⟨budget - 1, by simp at hbudget; omega⟩
      have hfirst := meets_transformation first
        (transformations.flatMap Transformation.words ++
          .mark "." :: .call "collect" :: rest)
      have hwords :
          (first :: transformations).flatMap Transformation.words ++
              .mark "." :: .call "collect" :: rest =
            .mark "." :: (first.words.tail ++
              (transformations.flatMap Transformation.words ++
                .mark "." :: .call "collect" :: rest)) := by
        simp [Transformation.words]
      have houtcome :
          ((first :: transformations).mapM Transformation.outcome >>=
            fun stages => Except.ok (done ++ stages)) =
          first.outcome >>= fun stage =>
            transformations.mapM Transformation.outcome >>= fun stages =>
              .ok (done ++ [stage] ++ stages) := by
        simp [List.mapM_cons]
      rw [hwords, houtcome]
      unfold stagesWithin
      apply (meets_expect _ _ _).then
      apply (meets_sees "collect" _).then
      apply hfirst.bind
      intro stage _
      exact ih (done ++ [stage]) (by simpa using hbudget)

def closingWords : List Word :=
  [.mark ".", .call "collect", .mark "(", .mark ")"]

theorem length_lt_transformations (transformations : List Transformation) :
    transformations.length <
      (transformations.flatMap Transformation.words ++ closingWords).length := by
  have hlength := length_le_flatMap Transformation.words
    (by simp [Transformation.words]) transformations
  simp only [List.length_append, closingWords, List.length_cons]
  omega

theorem meets_end (chain : Chain) :
    Meets (do
      if (← get).current.isSome then
        unexpected .endOfInput
      else
        log (.lowered chain.stages.length)
        return chain) [] (.ok chain) [] := by
  intro cursor hreads
  have hlogged : Meets
      (log (.lowered chain.stages.length) >>= fun _ => pure chain) []
      (.ok chain) [] :=
    (meets_log _ []).then (meets_pure chain [])
  rw [bind_ok (get_apply cursor), hreads.current_eq_none]
  exact hlogged cursor hreads

theorem meets_pipeline (program : Program) :
    Meets pipeline program.words program.outcome [] := by
  have hwords : program.words =
      .call "sc" :: .mark "." :: .call "range" :: .mark "(" ::
        program.start.word :: .mark "," :: program.stop.word :: .mark ")" ::
          (program.transformations.flatMap Transformation.words ++
            closingWords) :=
    rfl
  rw [hwords]
  unfold pipeline
  apply (meets_expect _ _ _).then
  apply (meets_expect _ _ _).then
  apply (meets_expect _ _ _).then
  apply (meets_expect _ _ _).then
  apply meets_expectKind _ rfl
  rintro ⟨text, kind, line⟩ htoken
  cases htoken
  apply (meets_expect _ _ _).then
  apply meets_expectKind _ rfl
  rintro ⟨text', kind', line'⟩ htoken
  cases htoken
  apply (meets_expect _ _ _).then
  apply meets_remaining
  intro budget hbudget
  have hstages := meets_stagesWithin program.transformations []
    (Nat.lt_of_lt_of_le (length_lt_transformations _) hbudget)
    [.mark "(", .mark ")"]
  simp only [List.nil_append] at hstages
  have hself : (program.transformations.mapM Transformation.outcome >>=
      fun stages => Except.ok stages) =
        program.transformations.mapM Transformation.outcome :=
    bind_pure _
  rw [hself] at hstages
  apply hstages.bind
  intro stages _
  apply (meets_expect _ _ _).then
  apply (meets_expect _ _ _).then
  apply (meets_expect _ _ _).then
  exact meets_end _

/-! ## From runs to derivations -/

section Success

variable {cursor after : Cursor} {words : List Word}

theorem transformation_eq_ok
    {stage : Stage} (hreads : cursor.Reads words)
    (hlexical : ∀ word ∈ words, word.Lexical)
    (h : transformation cursor = .ok stage after) :
    ∃ source rest, .mark "." :: words = Transformation.words source ++ rest ∧
      after.Reads rest := by
  unfold transformation at h
  obtain ⟨_, atOpen, hmap, h⟩ := bind_eq_ok h
  obtain ⟨rest, rfl, hatOpen, hlexical⟩ :=
    expect_eq_ok .identifier hreads hlexical (by decide) hmap
  obtain ⟨_, atParameter, hopen, h⟩ := bind_eq_ok h
  obtain ⟨rest, rfl, hatParameter, hlexical⟩ :=
    expect_eq_ok .symbol hatOpen hlexical (by decide) hopen
  obtain ⟨token, atArrow, hparameter, h⟩ := bind_eq_ok h
  obtain ⟨rest, rfl, hname, hatArrow, hlexical⟩ :=
    expectKind_eq_ok hatParameter hlexical hparameter
  obtain ⟨_, atBody, harrow, h⟩ := bind_eq_ok h
  obtain ⟨rest, rfl, hatBody, hlexical⟩ :=
    expect_eq_ok .symbol hatArrow hlexical (by decide) harrow
  obtain ⟨_, atClose, hbody, h⟩ := bind_eq_ok h
  obtain ⟨source, rest, rfl, hatClose, -⟩ :=
    body_eq_ok hatBody hlexical hbody
  replace hlexical := fun word hword =>
    hlexical word (List.mem_append_right _ hword)
  obtain ⟨_, behind, hclose, h⟩ := bind_eq_ok h
  obtain ⟨rest, rfl, hbehind, -⟩ :=
    expect_eq_ok .symbol hatClose hlexical (by decide) hclose
  cases h
  refine ⟨⟨⟨token.text, hname⟩, source⟩, rest, ?_, hbehind⟩
  simp [Transformation.words, Name.word, Word.mark, Word.call]

theorem stagesWithin_eq_ok
    {budget : Nat} {done stages : List Stage} (hreads : cursor.Reads words)
    (hlexical : ∀ word ∈ words, word.Lexical)
    (h : stagesWithin budget done cursor = .ok stages after) :
    ∃ (transformations : List Transformation) (rest : List Word),
      words = transformations.flatMap Transformation.words ++
        .mark "." :: rest ∧ after.Reads rest := by
  induction budget generalizing done cursor words with
  | zero => exact absurd h (unexpected_ne_ok _ cursor after stages)
  | succ budget ih =>
      unfold stagesWithin at h
      obtain ⟨_, behind, hdot, h⟩ := bind_eq_ok h
      obtain ⟨rest, rfl, hbehind, -⟩ :=
        expect_eq_ok .symbol hreads hlexical (by decide) hdot
      obtain ⟨_, same, hcollect, h⟩ := bind_eq_ok h
      obtain ⟨hseen, hsame⟩ :=
        (meets_sees "collect" rest).of_ok hbehind hcollect
      cases hseen
      split at h
      next =>
        cases h
        exact ⟨[], rest, rfl, hsame⟩
      next =>
        obtain ⟨stage, next, hfirst, h⟩ := bind_eq_ok h
        obtain ⟨source, rest', hwords, hnext⟩ := transformation_eq_ok hsame
          (fun word hword => hlexical word (.tail _ hword)) hfirst
        have hall : ∀ word ∈ rest', word.Lexical := by
          intro word hword
          apply hlexical
          rw [show (⟨".", .symbol⟩ : Word) = .mark "." from rfl, hwords]
          exact List.mem_append_right _ hword
        obtain ⟨transformations, last, rfl, hafter⟩ := ih hnext hall h
        refine ⟨source :: transformations, last, ?_, hafter⟩
        rw [show (⟨".", .symbol⟩ : Word) = .mark "." from rfl, hwords]
        simp

/-- Every text that was read as a pipeline has a derivation. -/
theorem pipeline_eq_ok
    {chain : Chain} (hreads : cursor.Reads words)
    (hlexical : ∀ word ∈ words, word.Lexical)
    (h : pipeline cursor = .ok chain after) :
    ∃ program : Program, program.words = words := by
  unfold pipeline at h
  obtain ⟨_, atDot, hsc, h⟩ := bind_eq_ok h
  obtain ⟨rest, rfl, hatDot, hlexical⟩ :=
    expect_eq_ok .identifier hreads hlexical (by decide) hsc
  obtain ⟨_, atRange, hdot, h⟩ := bind_eq_ok h
  obtain ⟨rest, rfl, hatRange, hlexical⟩ :=
    expect_eq_ok .symbol hatDot hlexical (by decide) hdot
  obtain ⟨_, atOpen, hrange, h⟩ := bind_eq_ok h
  obtain ⟨rest, rfl, hatOpen, hlexical⟩ :=
    expect_eq_ok .identifier hatRange hlexical (by decide) hrange
  obtain ⟨_, atStart, hopen, h⟩ := bind_eq_ok h
  obtain ⟨rest, rfl, hatStart, hlexical⟩ :=
    expect_eq_ok .symbol hatOpen hlexical (by decide) hopen
  obtain ⟨start, atComma, hstart, h⟩ := bind_eq_ok h
  obtain ⟨rest, rfl, hstartValid, hatComma, hlexical⟩ :=
    expectKind_eq_ok hatStart hlexical hstart
  obtain ⟨_, atStop, hcomma, h⟩ := bind_eq_ok h
  obtain ⟨rest, rfl, hatStop, hlexical⟩ :=
    expect_eq_ok .symbol hatComma hlexical (by decide) hcomma
  obtain ⟨stop, atClose, hstop, h⟩ := bind_eq_ok h
  obtain ⟨rest, rfl, hstopValid, hatClose, hlexical⟩ :=
    expectKind_eq_ok hatStop hlexical hstop
  obtain ⟨_, atStages, hclose, h⟩ := bind_eq_ok h
  obtain ⟨rest, rfl, hatStages, hlexical⟩ :=
    expect_eq_ok .symbol hatClose hlexical (by decide) hclose
  obtain ⟨budget, same, hremaining, hstages⟩ := bind_eq_ok h
  obtain ⟨-, rfl⟩ := remaining_eq_ok hatStages hremaining
  obtain ⟨stages, atCollect, hrun, h⟩ := bind_eq_ok hstages
  obtain ⟨transformations, rest, rfl, hatCollect⟩ :=
    stagesWithin_eq_ok hatStages hlexical hrun
  replace hlexical : ∀ word ∈ rest, word.Lexical := fun word hword =>
    hlexical word (List.mem_append_right _ (.tail _ hword))
  obtain ⟨_, atOpen', hcollect, h⟩ := bind_eq_ok h
  obtain ⟨rest, rfl, hatOpen', hlexical⟩ :=
    expect_eq_ok .identifier hatCollect hlexical (by decide) hcollect
  obtain ⟨_, atClose', hopen', h⟩ := bind_eq_ok h
  obtain ⟨rest, rfl, hatClose', hlexical⟩ :=
    expect_eq_ok .symbol hatOpen' hlexical (by decide) hopen'
  obtain ⟨_, atEnd, hclose', h⟩ := bind_eq_ok h
  obtain ⟨rest, rfl, hatEnd, -⟩ :=
    expect_eq_ok .symbol hatClose' hlexical (by decide) hclose'
  rw [bind_ok (get_apply atEnd)] at h
  cases rest with
  | cons word rest =>
      obtain ⟨token, hcurrent, -⟩ := hatEnd.exists_current
      rw [hcurrent] at h
      exact absurd h (unexpected_ne_ok _ atEnd after chain)
  | nil =>
      refine ⟨⟨⟨start.text, hstartValid⟩, ⟨stop.text, hstopValid⟩,
        transformations⟩, ?_⟩
      simp [Program.words, Numeral.word, Word.mark, Word.call]

end Success

end Parser

open Grammar

theorem lexical_of_tokenize
    {source : String} {tokens : List Token}
    (h : tokenize source = .ok tokens) :
    ∀ word ∈ grammarWords tokens, word.Lexical := by
  intro word hword
  obtain ⟨token, htoken, rfl⟩ := List.mem_map.mp hword
  obtain ⟨hmem, htrivia⟩ := List.mem_filter.mp htoken
  exact classify_of_mem_tokenize h hmem (by simpa using htrivia)

theorem exists_tokens_of_words
    {source : String} {words : List Word}
    (h : (tokenize source).map grammarWords = .ok words) :
    ∃ tokens, tokenize source = .ok tokens ∧ grammarWords tokens = words := by
  cases htokens : tokenize source with
  | error error =>
      rw [htokens] at h
      cases h
  | ok tokens =>
      rw [htokens] at h
      cases h
      exact ⟨tokens, rfl, rfl⟩

theorem lower_of_unreadable
    {source : String} {error : ScanError} (h : tokenize source = .error error) :
    lower source = .error (.lexical error) := by
  have hscan : tokensOf (scan source) = .error error := h
  rw [lower, Lowering.ofSource, Lowering.ofScan, hscan]

theorem exists_tokens_of_lower {source : String} {chain : Chain}
    (h : lower source = .ok chain) : ∃ tokens, tokenize source = .ok tokens := by
  cases htokens : tokenize source with
  | ok tokens => exact ⟨tokens, rfl⟩
  | error error =>
      rw [lower_of_unreadable htokens] at h
      cases h

/-- Tokens are lowered by reading their words as a pipeline. -/
theorem outcome_ofTokens (tokens : List Token) :
    ∃ cursor : Cursor, cursor.Reads (grammarWords tokens) ∧
      (Lowering.ofTokens tokens).outcome =
        match Parser.pipeline cursor with
        | .ok chain _ => .ok chain
        | .error fault _ => .error fault := by
  obtain ⟨cursor, hpull, hreads⟩ :=
    (Cursor.ofItems (tokens.map .ok)).pull_reads tokens
  refine ⟨cursor, hreads, ?_⟩
  have hadvance : Parser.advance (.ofItems (tokens.map .ok)) =
      .ok () cursor := hpull
  simp only [Lowering.ofTokens, Lowering.run]
  rw [Parser.bind_ok hadvance]
  cases Parser.pipeline cursor <;> rfl

theorem lower_eq_ofTokens
    {source : String} {tokens : List Token}
    (h : tokenize source = .ok tokens) :
    lower source = (Lowering.ofTokens tokens).outcome := by
  have hscan : tokensOf (scan source) = .ok tokens := h
  unfold lower Lowering.ofSource Lowering.ofScan
  rw [hscan]

theorem lower_of_tokenize
    {source : String} {tokens : List Token}
    (h : tokenize source = .ok tokens) :
    ∃ cursor : Cursor, cursor.Reads (grammarWords tokens) ∧
      lower source =
        match Parser.pipeline cursor with
        | .ok chain _ => .ok chain
        | .error fault _ => .error fault := by
  rw [lower_eq_ofTokens h]
  exact outcome_ofTokens tokens

theorem ofTokens_of_program
    {tokens : List Token} {program : Program}
    (hwords : program.words = grammarWords tokens) :
    (Lowering.ofTokens tokens).outcome = program.outcome.mapError .scope := by
  obtain ⟨cursor, hreads, houtcome⟩ := outcome_ofTokens tokens
  rw [← hwords] at hreads
  have hmeets := Parser.meets_pipeline program cursor hreads
  rw [houtcome]
  cases hprogram : program.outcome with
  | ok chain =>
      rw [hprogram] at hmeets
      obtain ⟨after, hrun, -⟩ := hmeets
      rw [hrun]
      rfl
  | error error =>
      rw [hprogram] at hmeets
      obtain ⟨after, hrun⟩ := hmeets
      rw [hrun]
      rfl

theorem lower_of_program
    {source : String} {tokens : List Token}
    (h : tokenize source = .ok tokens) {program : Program}
    (hwords : program.words = grammarWords tokens) :
    lower source = program.outcome.mapError .scope := by
  rw [lower_eq_ofTokens h]
  exact ofTokens_of_program hwords

theorem exists_program_of_ofTokens
    {tokens : List Token} {chain : Chain}
    (hlexical : ∀ word ∈ grammarWords tokens, word.Lexical)
    (h : (Lowering.ofTokens tokens).outcome = .ok chain) :
    ∃ program : Program, program.words = grammarWords tokens := by
  obtain ⟨cursor, hreads, hrun⟩ := outcome_ofTokens tokens
  rw [h] at hrun
  cases hpipeline : Parser.pipeline cursor with
  | ok other after => exact Parser.pipeline_eq_ok hreads hlexical hpipeline
  | error fault after =>
      rw [hpipeline] at hrun
      cases hrun

theorem exists_program_of_lower
    {source : String} {tokens : List Token}
    (h : tokenize source = .ok tokens) {chain : Chain}
    (hlower : lower source = .ok chain) :
    ∃ program : Program, program.words = grammarWords tokens := by
  rw [lower_eq_ofTokens h] at hlower
  exact exists_program_of_ofTokens (lexical_of_tokenize h) hlower

/-- A derivable text is lowered if its bodies keep the scope rules, and else
refused for a violation in the first that does not. -/
theorem lower_cases
    {source : String} {tokens : List Token}
    (h : tokenize source = .ok tokens) {program : Program}
    (hwords : program.words = grammarWords tokens) :
    (∃ chain, lower source = .ok chain ∧
        ∀ transformation ∈ program.transformations,
          transformation.WellScoped) ∨
      ∃ error before faulty after,
        lower source = .error (.scope error) ∧
        program.transformations = before ++ faulty :: after ∧
        (∀ transformation ∈ before, transformation.WellScoped) ∧
        faulty.Violates error := by
  rw [lower_of_program h hwords, Program.outcome]
  rcases mapM_outcome_cases program.transformations with
    ⟨stages, hstages, hscoped⟩ |
      ⟨error, before, faulty, after, herror, hsplit, hbefore, hviolates⟩
  · left
    rw [hstages]
    exact ⟨_, rfl, hscoped⟩
  · right
    rw [herror]
    exact ⟨error, before, faulty, after, rfl, hsplit, hbefore, hviolates⟩

/-- A readable text is lowered if and only if it is derivable with well scoped
bodies, and a derivable text with another body is refused for a violation in
the first such body. -/
theorem lower_isOk_iff_derivable
    {source : String} {tokens : List Token}
    (h : tokenize source = .ok tokens) :
    ((∃ chain, lower source = .ok chain) ↔
      ∃ program : Program, program.words = grammarWords tokens ∧
        ∀ transformation ∈ program.transformations,
          transformation.WellScoped) ∧
    ∀ program : Program, program.words = grammarWords tokens →
      (∃ transformation ∈ program.transformations,
        ¬ transformation.WellScoped) →
      ∃ error before faulty after,
        lower source = .error (.scope error) ∧
        program.transformations = before ++ faulty :: after ∧
        (∀ transformation ∈ before, transformation.WellScoped) ∧
        ¬ faulty.WellScoped ∧ faulty.Violates error := by
  refine ⟨⟨?_, ?_⟩, ?_⟩
  · rintro ⟨chain, hchain⟩
    obtain ⟨program, hwords⟩ := exists_program_of_lower h hchain
    rcases lower_cases h hwords with
      ⟨-, -, hscoped⟩ | ⟨error, -, -, -, herror, -, -, -⟩
    · exact ⟨program, hwords, hscoped⟩
    · rw [hchain] at herror
      cases herror
  · rintro ⟨program, hwords, hscoped⟩
    rcases lower_cases h hwords with
      ⟨chain, hchain, -⟩ | ⟨error, before, faulty, after, -, hsplit, -, hviolates⟩
    · exact ⟨chain, hchain⟩
    · have hfaulty := hscoped faulty (by simp [hsplit])
      exact absurd hfaulty hviolates.not_wellScoped
  · rintro program hwords ⟨transformation, hmem, hnot⟩
    rcases lower_cases h hwords with
      ⟨-, -, hscoped⟩ |
        ⟨error, before, faulty, after, herror, hsplit, hbefore, hviolates⟩
    · exact absurd (hscoped transformation hmem) hnot
    · exact ⟨error, before, faulty, after, herror, hsplit, hbefore,
        hviolates.not_wellScoped, hviolates⟩

/-- The identity is a pipeline; a body with an unknown name is refused. -/
theorem lower_identity_and_unknown :
    (∃ chain, lower "sc.range(1,3).map(x => x).collect()" = .ok chain) ∧
      ∃ error, lower "sc.range(1,3).map(x => y).collect()" =
        .error (.scope error) := by
  let x : Name := ⟨"x", by decide⟩
  let y : Name := ⟨"y", by decide⟩
  let program (name : Name) : Program :=
    ⟨⟨"1", by decide⟩, ⟨"3", by decide⟩,
      [⟨x, .plain (.single (.operand (.bare name)))⟩]⟩
  have hidentity :
      (tokenize "sc.range(1,3).map(x => x).collect()").map grammarWords =
        .ok (program x).words := by
    decide +kernel
  have hunknown :
      (tokenize "sc.range(1,3).map(x => y).collect()").map grammarWords =
        .ok (program y).words := by
    decide +kernel
  obtain ⟨tokens, htokens, hwords⟩ := exists_tokens_of_words hidentity
  obtain ⟨tokens', htokens', hwords'⟩ := exists_tokens_of_words hunknown
  constructor
  · apply (lower_isOk_iff_derivable htokens).1.mpr
    refine ⟨program x, hwords.symm, ?_⟩
    intro transformation hmem
    obtain rfl := List.mem_singleton.mp hmem
    refine ⟨by simp [Body.assignments], ?_⟩
    intro element helement operand hoperand
    obtain rfl := List.mem_singleton.mp helement
    obtain rfl := List.mem_singleton.mp hoperand
    exact Or.inl rfl
  · have hnot : ¬ (Transformation.mk x
        (.plain (.single (.operand (.bare y))))).WellScoped := by
      intro hscoped
      have hbare := hscoped.elements _ (List.mem_singleton.mpr rfl) _
        (List.mem_singleton.mpr rfl)
      simp [Operand.WellScoped, boundNames, Body.assignments, x, y] at hbare
    obtain ⟨error, _, _, _, herror, -⟩ :=
      (lower_isOk_iff_derivable htokens').2 (program y) hwords'.symm
        ⟨_, List.mem_singleton.mpr rfl, hnot⟩
    exact ⟨error, herror⟩

end SelectChain

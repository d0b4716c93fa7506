import SelectChain.Proofs.StreamedLowering
import Mathlib.Data.List.Forall2
import Mathlib.Tactic

/-!
# Stages of a pipeline

Each transformation of a pipeline is lowered as if it were the only one.  The
pipelines with one transformation over the same range tell whether the whole is
lowered, what stands between the parentheses of each stage, and which scopes it
has; or they tell why the whole is refused, since that is for the first of them
that is.
-/

namespace SelectChain

namespace Grammar

/-- The words between the parentheses of a transformation. -/
def Transformation.functionWords (transformation : Transformation) :
    List Word :=
  transformation.parameter.word :: .mark "=>" ::
    transformation.body.words Expression.words

/-- The words of a pipeline, with those between the parentheses of each
transformation. -/
def pipelineWords (start stop : Numeral) (functions : List (List Word)) :
    List Word :=
  .call "sc" :: .mark "." :: .call "range" :: .mark "(" ::
    start.word :: .mark "," :: stop.word :: .mark ")" ::
    functions.flatMap (fun function =>
      .mark "." :: .call "map" :: .mark "(" :: function ++ [.mark ")"]) ++
    [.mark ".", .call "collect", .mark "(", .mark ")"]

theorem words_eq_pipelineWords
    (start stop : Numeral) (transformations : List Transformation) :
    (Program.mk start stop transformations).words =
      pipelineWords start stop
        (transformations.map Transformation.functionWords) := by
  rw [Program.words, pipelineWords, List.flatMap_map]
  rfl

end Grammar

open Grammar

/-- The words that the grammar sees of a text. -/
def ReadsAs (source : String) (words : List Word) : Prop :=
  (tokenize source).map grammarWords = .ok words

instance (source : String) (words : List Word) :
    Decidable (ReadsAs source words) :=
  inferInstanceAs (Decidable (_ = _))

theorem ReadsAs.lower_eq
    {source : String} {program : Program}
    (h : ReadsAs source program.words) :
    lower source = program.outcome.mapError .scope := by
  obtain ⟨tokens, htokens, hwords⟩ := exists_tokens_of_words h
  exact lower_of_program htokens hwords.symm

/-- The text of a chain around the argument lists of its stages. -/
def chainText (target : Target) (start stop : Numeral)
    (arguments : List String) : String :=
  target.session ++ ".range(" ++ start.text ++ "," ++ stop.text ++ ")" ++
    ".selectExpr(\x22id as _1\x22)" ++
    String.join (arguments.map fun list =>
      target.layout.separator ++ "selectExpr(" ++ list ++ ")") ++
    target.layout.separator ++ "collect()"

theorem Chain.text_eq_chainText
    (target : Target) (start stop : Numeral) (stages : List Stage) :
    (Chain.mk start.text stop.text stages).text target =
      chainText target start stop (stages.map Stage.arguments) := by
  rw [text, chainText, List.map_map]
  rfl

theorem Lowering.written_of_ok
    {lowering : Lowering} {chain : Chain} (h : lowering.outcome = .ok chain)
    (target : Target) :
    lowering.written target = .ok (chain.text target, chain.scopes) := by
  rw [written, h]
  rfl

theorem Lowering.written_isOk_iff (lowering : Lowering) (target : Target) :
    (∃ value, lowering.written target = .ok value) ↔
      ∃ chain, lowering.outcome = .ok chain := by
  cases h : lowering.outcome with
  | ok chain => simp [written_of_ok h]
  | error fault => simp [written_of_error h]

/-- Only the text depends on the target. -/
theorem Lowering.written_map_snd (lowering : Lowering) (target : Target) :
    (lowering.written target).map Prod.snd =
      lowering.outcome.map Chain.scopes := by
  rw [written]
  cases lowering.outcome <;> rfl

section Stages

variable {start stop : Numeral}

theorem lower_single
    {single : String} {transformation : Transformation}
    (h : ReadsAs single
      (pipelineWords start stop [transformation.functionWords])) :
    lower single = (transformation.outcome.map fun stage =>
      Chain.mk start.text stop.text [stage]).mapError .scope := by
  have hreads : ReadsAs single
      (Program.mk start stop [transformation]).words := by
    rw [words_eq_pipelineWords]
    exact h
  rw [hreads.lower_eq, Program.outcome, List.mapM_cons]
  cases transformation.outcome <;> rfl

/-- Lowering the transformations one behind the other takes the stages of the
pipelines with one transformation, up to the first of these that is refused. -/
theorem mapM_outcome_singles
    {singles : List String} {transformations : List Transformation}
    (h : List.Forall₂ (fun single transformation => ReadsAs single
      (pipelineWords start stop [Transformation.functionWords transformation]))
        singles transformations) :
    (∃ stages, transformations.mapM Transformation.outcome = .ok stages ∧
        List.Forall₂ (fun single stage =>
          lower single = .ok ⟨start.text, stop.text, [stage]⟩) singles stages) ∨
      ∃ error before failing after,
        transformations.mapM Transformation.outcome = .error error ∧
        singles = before ++ failing :: after ∧
        (∀ single ∈ before, ∃ chain, lower single = .ok chain) ∧
        lower failing = .error (.scope error) := by
  induction h with
  | nil =>
      left
      exact ⟨[], rfl, .nil⟩
  | @cons single transformation singles transformations hfirst _ ih =>
      have hsingle := lower_single hfirst
      rw [List.mapM_cons]
      cases houtcome : transformation.outcome with
      | error error =>
          right
          rw [houtcome] at hsingle
          exact ⟨error, [], single, singles, rfl, rfl, by simp, hsingle⟩
      | ok stage =>
          rw [houtcome] at hsingle
          rcases ih with ⟨stages, hstages, hsingles⟩ |
            ⟨error, before, failing, after, herror, rfl, hbefore, hfailing⟩
          · left
            rw [hstages]
            exact ⟨stage :: stages, rfl, .cons hsingle hsingles⟩
          · right
            rw [herror]
            refine ⟨error, single :: before, failing, after, rfl, rfl, ?_,
              hfailing⟩
            rw [List.forall_mem_cons]
            exact ⟨⟨_, hsingle⟩, hbefore⟩

variable {functions : List (List Word)} {source : String}
  {singles : List String}

/-- A pipeline has the stages of the pipelines with one transformation, or it is
refused for what the first of these is refused for. -/
theorem lower_singles_cases
    (hfunctions : ∀ function ∈ functions,
      function ∈ Set.range Transformation.functionWords)
    (hsource : ReadsAs source (pipelineWords start stop functions))
    (hsingles : List.Forall₂ (fun single function =>
      ReadsAs single (pipelineWords start stop [function])) singles functions) :
    (∃ stages, lower source = .ok ⟨start.text, stop.text, stages⟩ ∧
        List.Forall₂ (fun single stage =>
          lower single = .ok ⟨start.text, stop.text, [stage]⟩) singles stages) ∨
      ∃ fault before failing after,
        lower source = .error fault ∧
        singles = before ++ failing :: after ∧
        (∀ single ∈ before, ∃ chain, lower single = .ok chain) ∧
        lower failing = .error fault := by
  obtain ⟨transformations, rfl⟩ : functions ∈
      Set.range (List.map Transformation.functionWords) := by
    rw [Set.range_list_map]
    exact hfunctions
  rw [List.forall₂_map_right_iff] at hsingles
  rw [← words_eq_pipelineWords] at hsource
  rw [hsource.lower_eq, Program.outcome]
  rcases mapM_outcome_singles hsingles with ⟨stages, hstages, hall⟩ |
    ⟨error, before, failing, after, herror, hsplit, hbefore, hfailing⟩
  · left
    rw [hstages]
    exact ⟨stages, rfl, hall⟩
  · right
    rw [herror]
    exact ⟨.scope error, before, failing, after, rfl, hsplit, hbefore,
      hfailing⟩

/-- The stages of a pipeline are independent.  The whole is lowered if and only
if each pipeline with one of its transformations is.  Then it has their argument
lists and their scopes in order; else it is refused as the first of them that is.
Only the text depends on the target. -/
theorem stages_lowered_independently
    (hfunctions : ∀ function ∈ functions,
      function ∈ Set.range Transformation.functionWords)
    (hsource : ReadsAs source (pipelineWords start stop functions))
    (hsingles : List.Forall₂ (fun single function =>
      ReadsAs single (pipelineWords start stop [function])) singles functions)
    (target : Target) :
    ((∃ value, (Lowering.ofSource source).written target = .ok value) ↔
      ∀ single ∈ singles,
        ∃ value, (Lowering.ofSource single).written target = .ok value) ∧
    (∀ text scopes,
      (Lowering.ofSource source).written target = .ok (text, scopes) →
      ∃ parts : List (String × Scope),
        List.Forall₂ (fun single part => ∀ target',
          (Lowering.ofSource single).written target' =
            .ok (chainText target' start stop [part.1], [part.2]))
          singles parts ∧
        text = chainText target start stop (parts.map Prod.fst) ∧
        scopes = parts.map Prod.snd) ∧
    (∀ fault, (Lowering.ofSource source).written target = .error fault →
      ∃ before failing after, singles = before ++ failing :: after ∧
        (∀ single ∈ before,
          ∃ value, (Lowering.ofSource single).written target = .ok value) ∧
        (Lowering.ofSource failing).written target = .error fault) ∧
    ∀ target', ((Lowering.ofSource source).written target').map Prod.snd =
      ((Lowering.ofSource source).written target).map Prod.snd := by
  simp only [Lowering.written_isOk_iff, Lowering.written_map_snd, implies_true,
    and_true]
  rcases lower_singles_cases hfunctions hsource hsingles with
    ⟨stages, hwhole, hall⟩ |
      ⟨fault, before, failing, after, hwhole, rfl, hbefore, hfailing⟩
  · have hlowered : ∀ single ∈ singles, ∃ chain, lower single = .ok chain :=
      ((List.forall₂_and_left _ _).mp (hall.imp fun _ _ h => ⟨⟨_, h⟩, h⟩)).1
    rw [Lowering.written_of_ok hwhole]
    refine ⟨iff_of_true ⟨_, hwhole⟩ hlowered, ?_, by simp⟩
    intro text scopes heq
    cases heq
    refine ⟨stages.map fun stage => (stage.arguments, stage.scope), ?_, ?_, ?_⟩
    · rw [List.forall₂_map_right_iff]
      refine hall.imp ?_
      intro single stage hsingle target'
      rw [Lowering.written_of_ok hsingle, Chain.text_eq_chainText]
      rfl
    · rw [Chain.text_eq_chainText, List.map_map]
      rfl
    · rw [Chain.scopes, List.map_map]
      rfl
  · rw [Lowering.written_of_error hwhole]
    refine ⟨iff_of_false ?_ ?_, by simp, ?_⟩
    · rintro ⟨chain, hchain⟩
      rw [show (Lowering.ofSource source).outcome = _ from hwhole] at hchain
      cases hchain
    · intro hlowered
      obtain ⟨chain, hchain⟩ := hlowered failing (by simp)
      rw [show (Lowering.ofSource failing).outcome = _ from hfailing] at hchain
      cases hchain
    · intro other heq
      cases heq
      exact ⟨before, failing, after, rfl, hbefore,
        Lowering.written_of_error hfailing target⟩

end Stages

/-- The second transformation uses the binding of the first, as the name of its
own parameter and then as that of a value. -/
theorem second_stage_starts_afresh :
    (∃ value, (Lowering.ofSource
      ("sc.range(1,3).map(x => \x7b val y = x + 1; y \x7d)" ++
        ".map(y => y * 2).collect()")).written .standard = .ok value) ∧
    ¬ ∃ value, (Lowering.ofSource
      ("sc.range(1,3).map(x => \x7b val y = x + 1; y \x7d)" ++
        ".map(x => y).collect()")).written .standard = .ok value := by
  let x : Name := ⟨"x", by decide⟩
  let y : Name := ⟨"y", by decide⟩
  let start : Numeral := ⟨"1", by decide⟩
  let stop : Numeral := ⟨"3", by decide⟩
  let successor : Transformation :=
    ⟨x, .block [⟨y, .operandThen (.bare x) .add (.operand (.number start)), true⟩]
      (.single (.operand (.bare y)))⟩
  let double : Transformation :=
    ⟨y, .plain (.single (.operandThen (.bare y) .multiply
      (.operand (.number ⟨"2", by decide⟩))))⟩
  let unknown : Transformation :=
    ⟨x, .plain (.single (.operand (.bare y)))⟩
  have hranges : ∀ second : Transformation,
      ∀ function ∈ [successor.functionWords, second.functionWords],
        function ∈ Set.range Transformation.functionWords := by
    intro second function hmem
    rcases List.mem_pair.mp hmem with rfl | rfl
    · exact ⟨successor, rfl⟩
    · exact ⟨second, rfl⟩
  have hsuccessor : ReadsAs
      "sc.range(1,3).map(x => \x7b val y = x + 1; y \x7d).collect()"
      (pipelineWords start stop [successor.functionWords]) := by
    decide +kernel
  have hdouble : ReadsAs "sc.range(1,3).map(y => y * 2).collect()"
      (pipelineWords start stop [double.functionWords]) := by
    decide +kernel
  have hunknown : ReadsAs "sc.range(1,3).map(x => y).collect()"
      (pipelineWords start stop [unknown.functionWords]) := by
    decide +kernel
  have hpair : ReadsAs ("sc.range(1,3).map(x => \x7b val y = x + 1; y \x7d)" ++
      ".map(y => y * 2).collect()") (pipelineWords start stop
        [successor.functionWords, double.functionWords]) := by
    decide +kernel
  have hleak : ReadsAs ("sc.range(1,3).map(x => \x7b val y = x + 1; y \x7d)" ++
      ".map(x => y).collect()") (pipelineWords start stop
        [successor.functionWords, unknown.functionWords]) := by
    decide +kernel
  constructor
  · apply (stages_lowered_independently (hranges double) hpair
      (.cons hsuccessor (.cons hdouble .nil)) .standard).1.mpr
    intro single hmem
    rcases List.mem_pair.mp hmem with rfl | rfl
    · exact ⟨("spark.range(1,3).selectExpr(\x22id as _1\x22)" ++
        "\n     .selectExpr(\x22_1 + 1 as _1\x22)\n     .collect()",
        [⟨"x", [("y", ⟨"_1 + 1", true⟩)]⟩]), by decide +kernel⟩
    · exact ⟨("spark.range(1,3).selectExpr(\x22id as _1\x22)" ++
        "\n     .selectExpr(\x22_1 * 2 as _1\x22)\n     .collect()",
        [⟨"y", []⟩]), by decide +kernel⟩
  · rw [(stages_lowered_independently (hranges unknown) hleak
      (.cons hsuccessor (.cons hunknown .nil)) .standard).1]
    intro hlowered
    obtain ⟨value, hvalue⟩ := hlowered _ (.tail _ (.head _))
    have hrefused : (Lowering.ofSource
        "sc.range(1,3).map(x => y).collect()").written .standard =
          .error (.scope (.undeclared "y")) := by
      decide +kernel
    rw [hrefused] at hvalue
    cases hvalue

end SelectChain

import SelectChain.Proofs.PipelineGrammar
import Mathlib.Tactic

/-!
# Cursors in front of words

Behind a successful scan, what the grammar does depends on the words ahead and
on nothing else.  `Cursor.Reads` says which words those are.  `Parser.Meets`
describes a run from there in both of its outcomes, and composes along `>>=`;
the lemmas on success in the second half invert a run that went well.
-/

namespace SelectChain

open Grammar

/-- The words from the lookahead on, all of them readable. -/
structure Cursor.Reads (cursor : Cursor) (words : List Word) : Prop where
  current : cursor.current.map Token.word = words.head?
  ahead : ∃ tokens : List Token, cursor.ahead = tokens.map .ok ∧
    grammarWords tokens = words.tail

theorem Cursor.pull_reads (cursor : Cursor) (tokens : List Token) :
    ∃ after, cursor.pull (tokens.map .ok) = .ok () after ∧
      after.Reads (grammarWords tokens) := by
  induction tokens generalizing cursor with
  | nil =>
      refine ⟨_, rfl, ?_⟩
      exact ⟨rfl, [], rfl, rfl⟩
  | cons token rest ih =>
      cases htrivia : token.isTrivia with
      | true =>
          obtain ⟨after, hpull, hreads⟩ := ih (cursor.log (.scanned token))
          refine ⟨after, ?_, ?_⟩
          · simpa [pull, htrivia] using hpull
          · simpa [grammarWords, grammarTokens, htrivia] using hreads
      | false =>
          refine ⟨_, by simp only [List.map_cons, pull, htrivia]; rfl, ?_⟩
          refine ⟨by simp [grammarWords, grammarTokens, htrivia], rest, rfl, ?_⟩
          simp [grammarWords, grammarTokens, htrivia]

namespace Cursor.Reads

variable {cursor : Cursor} {word : Word} {words : List Word}

theorem current_eq_none (h : cursor.Reads []) : cursor.current = none := by
  simpa using h.current

theorem exists_current (h : cursor.Reads (word :: words)) :
    ∃ token, cursor.current = some token ∧ token.word = word := by
  simpa using h.current

theorem unique {others : List Word} (h : cursor.Reads words)
    (hothers : cursor.Reads others) : words = others := by
  obtain ⟨tokens, hahead, htail⟩ := h.ahead
  obtain ⟨tokens', hahead', htail'⟩ := hothers.ahead
  have htokens : tokens = tokens' := by
    rw [hahead] at hahead'
    exact List.map_injective_iff.mpr (fun _ _ => Except.ok.inj) hahead'
  have hhead : words.head? = others.head? := by
    rw [← h.current, ← hothers.current]
  have htails : words.tail = others.tail := by
    rw [← htail, ← htail', htokens]
  cases words with
  | nil =>
      cases others with
      | nil => rfl
      | cons other others => cases hhead
  | cons word words =>
      cases others with
      | nil => cases hhead
      | cons other others =>
          cases hhead
          cases htails
          rfl

/-- The budget of the grammar covers all words ahead. -/
theorem length_le_remaining (h : cursor.Reads words) :
    words.length ≤ cursor.remaining := by
  obtain ⟨tokens, hahead, hwords⟩ := h.ahead
  have htail : words.tail.length ≤ cursor.ahead.length := by
    rw [← hwords, hahead, grammarWords, List.length_map, List.length_map]
    exact List.length_filter_le _ _
  cases words with
  | nil => simp
  | cons word rest =>
      obtain ⟨token, htoken, -⟩ := h.exists_current
      simp only [List.tail_cons] at htail
      simp only [List.length_cons, remaining, htoken, Option.isSome_some,
        if_true]
      omega

end Cursor.Reads

def Word.arithmetic? (word : Word) : Option Arithmetic :=
  if word.kind = .symbol then Arithmetic.ofSymbol? word.text else none

def Word.comparison? (word : Word) : Option Comparison :=
  if word.kind = .symbol then Comparison.ofSymbol? word.text else none

@[simp] theorem Word.arithmetic?_word (op : Arithmetic) :
    op.word.arithmetic? = some op := by
  simp [arithmetic?, Arithmetic.word, mark]

@[simp] theorem Word.comparison?_word (op : Comparison) :
    op.word.comparison? = some op := by
  simp [comparison?, Comparison.word, mark]

theorem Word.eq_of_arithmetic? {word : Word} {op : Arithmetic}
    (h : word.arithmetic? = some op) : word = op.word := by
  unfold arithmetic? at h
  split at h
  next hkind =>
    have htext : word.text = op.symbol := by
      unfold Arithmetic.ofSymbol? at h
      split at h <;> cases h <;> assumption
    cases word
    simp_all [Arithmetic.word, mark]
  next => cases h

theorem Word.eq_of_comparison? {word : Word} {op : Comparison}
    (h : word.comparison? = some op) : word = op.word := by
  unfold comparison? at h
  split at h
  next hkind =>
    have htext : word.text = op.symbol := by
      unfold Comparison.ofSymbol? at h
      split at h <;> cases h <;> assumption
    cases word
    simp_all [Comparison.word, mark]
  next => cases h

namespace Parser

variable {α β : Type}

/-- Wherever the words ahead are `words`, the run ends as `outcome` says: with
its value and the words `rest` ahead, or with its error. -/
def Meets (parser : Parser α) (words : List Word)
    (outcome : Except ScopeError α) (rest : List Word) : Prop :=
  ∀ cursor : Cursor, cursor.Reads words →
    match outcome with
    | .ok value => ∃ after, parser cursor = .ok value after ∧ after.Reads rest
    | .error error => ∃ after, parser cursor = .error (.scope error) after

theorem bind_eq_ok
    {parser : Parser α} {next : α → Parser β} {cursor after : Cursor}
    {value : β} (h : (parser >>= next) cursor = .ok value after) :
    ∃ first middle, parser cursor = .ok first middle ∧
      next first middle = .ok value after := by
  change EStateM.bind parser next cursor = _ at h
  unfold EStateM.bind at h
  cases hfirst : parser cursor with
  | ok first middle =>
      rw [hfirst] at h
      exact ⟨first, middle, rfl, h⟩
  | error fault middle =>
      rw [hfirst] at h
      cases h

theorem bind_ok
    {parser : Parser α} {next : α → Parser β} {cursor middle : Cursor}
    {first : α} (h : parser cursor = .ok first middle) :
    (parser >>= next) cursor = next first middle := by
  change EStateM.bind parser next cursor = _
  simp only [EStateM.bind, h]

theorem bind_error
    {parser : Parser α} {next : α → Parser β} {cursor middle : Cursor}
    {fault : Fault} (h : parser cursor = .error fault middle) :
    (parser >>= next) cursor = .error fault middle := by
  change EStateM.bind parser next cursor = _
  simp only [EStateM.bind, h]

section Meets

variable {words middle rest : List Word}

theorem meets_pure (value : α) (words : List Word) :
    Meets (pure value) words (.ok value) words := by
  intro cursor hreads
  exact ⟨cursor, rfl, hreads⟩

theorem Meets.bind
    {parser : Parser α} {next : α → Parser β}
    {first : Except ScopeError α} {second : α → Except ScopeError β}
    (hfirst : Meets parser words first middle)
    (hsecond : ∀ value, first = .ok value →
      Meets (next value) middle (second value) rest) :
    Meets (parser >>= next) words (first >>= second) rest := by
  intro cursor hreads
  have hrun := hfirst cursor hreads
  cases first with
  | error error =>
      obtain ⟨after, herror⟩ := hrun
      exact ⟨after, bind_error herror⟩
  | ok value =>
      obtain ⟨after, hok, hafter⟩ := hrun
      rw [bind_ok hok]
      exact hsecond value rfl after hafter

theorem Meets.then
    {parser : Parser α} {next : α → Parser β} {value : α}
    {outcome : Except ScopeError β}
    (hfirst : Meets parser words (.ok value) middle)
    (hsecond : Meets (next value) middle outcome rest) :
    Meets (parser >>= next) words outcome rest := by
  have hbind : Meets (parser >>= next) words
      (Except.ok value >>= fun _ => outcome) rest := by
    apply hfirst.bind
    intro other hother
    cases hother
    exact hsecond
  exact hbind

/-- A run that only checks: its value is known beforehand. -/
theorem Meets.checked
    {parser : Parser α} {next : α → Parser β} {value : α}
    {verdict : Except ScopeError Unit} {outcome : Except ScopeError β}
    (hfirst : Meets parser words (verdict >>= fun _ => .ok value) middle)
    (hsecond : Meets (next value) middle outcome rest) :
    Meets (parser >>= next) words (verdict >>= fun _ => outcome) rest := by
  cases verdict with
  | error error =>
      intro cursor hreads
      obtain ⟨after, herror⟩ := hfirst cursor hreads
      exact ⟨after, bind_error herror⟩
  | ok _ => exact hfirst.then hsecond

/-- What follows a run may hand its value on. -/
theorem Meets.bind_self
    {parser : Parser α} {next : α → Parser α}
    {outcome : Except ScopeError α}
    (hfirst : Meets parser words outcome middle)
    (hsecond : ∀ value, Meets (next value) middle (.ok value) rest) :
    Meets (parser >>= next) words outcome rest := by
  have hbind := hfirst.bind fun value _ => hsecond value
  have hself : (outcome >>= fun value => Except.ok value) = outcome :=
    bind_pure outcome
  rwa [hself] at hbind

/-- A run that met an outcome met no other. -/
theorem Meets.of_ok
    {parser : Parser α} {outcome : Except ScopeError α} {value : α}
    {cursor after : Cursor} (h : Meets parser words outcome rest)
    (hreads : cursor.Reads words) (hrun : parser cursor = .ok value after) :
    outcome = .ok value ∧ after.Reads rest := by
  have hmet := h cursor hreads
  cases outcome with
  | error error =>
      obtain ⟨other, hother⟩ := hmet
      rw [hrun] at hother
      cases hother
  | ok expected =>
      obtain ⟨other, hother, hrest⟩ := hmet
      rw [hrun] at hother
      cases hother
      exact ⟨rfl, hrest⟩

theorem meets_ofScope (outcome : Except ScopeError α) (words : List Word) :
    Meets (ofScope outcome) words outcome words := by
  intro cursor hreads
  cases outcome with
  | ok value => exact ⟨cursor, rfl, hreads⟩
  | error error => exact ⟨cursor, rfl⟩

theorem meets_log (event : Event) (words : List Word) :
    Meets (log event) words (.ok ()) words := by
  intro cursor hreads
  exact ⟨cursor.log event, rfl, hreads.current, hreads.ahead⟩

theorem meets_advance (words : List Word) :
    Meets advance words (.ok ()) words.tail := by
  intro cursor hreads
  obtain ⟨tokens, hahead, hwords⟩ := hreads.ahead
  obtain ⟨after, hpull, hafter⟩ := cursor.pull_reads tokens
  refine ⟨after, ?_, hwords ▸ hafter⟩
  rw [← hahead] at hpull
  exact hpull

theorem get_apply (cursor : Cursor) :
    (get : Parser Cursor) cursor = .ok cursor cursor :=
  rfl

theorem seesKind_apply (kind : Token.Kind) (cursor : Cursor) :
    seesKind kind cursor = .ok (cursor.current.any (·.kind == kind)) cursor :=
  rfl

theorem meets_sees (text : String) (words : List Word) :
    Meets (sees text) words (.ok (words.head?.any (·.text == text)))
      words := by
  intro cursor hreads
  refine ⟨cursor, ?_, hreads⟩
  rw [← hreads.current, Option.any_map]
  rfl

theorem meets_seesKind (kind : Token.Kind) (words : List Word) :
    Meets (seesKind kind) words (.ok (words.head?.any (·.kind == kind)))
      words := by
  intro cursor hreads
  refine ⟨cursor, ?_, hreads⟩
  rw [← hreads.current, Option.any_map]
  rfl

private theorem currentSymbol_apply (cursor : Cursor) :
    currentSymbol cursor =
      .ok ((cursor.current.filter (·.kind == .symbol)).map (·.text)) cursor :=
  rfl

theorem currentArithmetic_apply (cursor : Cursor) :
    currentArithmetic cursor =
      .ok ((cursor.current.map Token.word).bind Word.arithmetic?) cursor := by
  unfold currentArithmetic
  rw [bind_ok (currentSymbol_apply cursor)]
  cases cursor.current with
  | none => rfl
  | some token =>
      by_cases hkind : token.kind = .symbol
      · simp [Option.filter, Word.arithmetic?, Token.word, hkind]
        rfl
      · simp [Option.filter, Word.arithmetic?, Token.word, hkind]
        rfl

theorem meets_currentArithmetic (words : List Word) :
    Meets currentArithmetic words (.ok (words.head?.bind Word.arithmetic?))
      words := by
  intro cursor hreads
  rw [currentArithmetic_apply, hreads.current]
  exact ⟨cursor, rfl, hreads⟩

theorem currentComparison_apply (cursor : Cursor) :
    currentComparison cursor =
      .ok ((cursor.current.map Token.word).bind Word.comparison?) cursor := by
  unfold currentComparison
  rw [bind_ok (currentSymbol_apply cursor)]
  cases cursor.current with
  | none => rfl
  | some token =>
      by_cases hkind : token.kind = .symbol
      · simp [Option.filter, Word.comparison?, Token.word, hkind]
        rfl
      · simp [Option.filter, Word.comparison?, Token.word, hkind]
        rfl

theorem meets_currentComparison (words : List Word) :
    Meets currentComparison words (.ok (words.head?.bind Word.comparison?))
      words := by
  intro cursor hreads
  rw [currentComparison_apply, hreads.current]
  exact ⟨cursor, rfl, hreads⟩

/-- The budget that a run asks for covers the words ahead. -/
theorem meets_remaining
    {next : Nat → Parser β} {outcome : Except ScopeError β}
    (h : ∀ budget, words.length ≤ budget →
      Meets (next budget) words outcome rest) :
    Meets (remaining >>= next) words outcome rest := by
  intro cursor hreads
  have hrun : remaining cursor = .ok cursor.remaining cursor := rfl
  rw [bind_ok hrun]
  exact h cursor.remaining hreads.length_le_remaining cursor hreads

theorem meets_expect (text : String) (kind : Token.Kind) (words : List Word) :
    Meets (expect text) (⟨text, kind⟩ :: words) (.ok ()) words := by
  unfold expect
  apply (meets_sees text (⟨text, kind⟩ :: words)).then
  simpa using meets_advance (⟨text, kind⟩ :: words)

theorem take_reads
    {word : Word} (expected : Expectation) {cursor : Cursor}
    (hreads : cursor.Reads (word :: words)) :
    ∃ token after, take expected cursor = .ok token after ∧
      token.word = word ∧ after.Reads words := by
  obtain ⟨token, hcurrent, hword⟩ := hreads.exists_current
  obtain ⟨after, hadvance, hafter⟩ := meets_advance (word :: words) cursor hreads
  refine ⟨token, after, ?_, hword, hafter⟩
  unfold take
  rw [bind_ok (get_apply cursor), hcurrent]
  simp only
  rw [bind_ok hadvance]
  rfl

theorem expectKind_reads
    {word : Word} {kind : Token.Kind} (expected : Expectation)
    (hkind : word.kind = kind) {cursor : Cursor}
    (hreads : cursor.Reads (word :: words)) :
    ∃ token after, expectKind kind expected cursor = .ok token after ∧
      token.word = word ∧ after.Reads words := by
  obtain ⟨token, after, htake, htoken⟩ := take_reads expected hreads
  obtain ⟨found, hcurrent, hfound⟩ := hreads.exists_current
  refine ⟨token, after, ?_, htoken⟩
  have hsees : seesKind kind cursor = .ok true cursor := by
    rw [seesKind_apply, hcurrent, Option.any_some]
    have hfoundKind : found.kind = kind := by
      rw [← hkind, ← hfound]
      rfl
    simp [hfoundKind]
  unfold expectKind
  rw [bind_ok hsees]
  exact htake

theorem meets_take
    {word : Word} {next : Token → Parser β} {outcome : Except ScopeError β}
    (expected : Expectation)
    (h : ∀ token, token.word = word → Meets (next token) words outcome rest) :
    Meets (take expected >>= next) (word :: words) outcome rest := by
  intro cursor hreads
  obtain ⟨token, after, htake, hword, hafter⟩ := take_reads expected hreads
  rw [bind_ok htake]
  exact h token hword after hafter

theorem meets_expectKind
    {word : Word} {kind : Token.Kind} {next : Token → Parser β}
    {outcome : Except ScopeError β} (expected : Expectation)
    (hkind : word.kind = kind)
    (h : ∀ token, token.word = word → Meets (next token) words outcome rest) :
    Meets (expectKind kind expected >>= next) (word :: words) outcome
      rest := by
  intro cursor hreads
  obtain ⟨token, after, htake, hword, hafter⟩ :=
    expectKind_reads expected hkind hreads
  rw [bind_ok htake]
  exact h token hword after hafter

end Meets

/-! ## Inverting a run that went well -/

section Success

variable {words : List Word} {cursor after : Cursor}

theorem remaining_eq_ok {budget : Nat}
    (hreads : cursor.Reads words) (h : remaining cursor = .ok budget after) :
    words.length ≤ budget ∧ after = cursor := by
  cases h
  exact ⟨hreads.length_le_remaining, rfl⟩

theorem unexpected_ne_ok
    (expected : Expectation) (cursor after : Cursor) (value : α) :
    (unexpected expected : Parser α) cursor ≠ .ok value after := by
  intro h
  unfold unexpected at h
  rw [bind_ok (get_apply cursor)] at h
  cases hcurrent : cursor.current with
  | none =>
      rw [hcurrent] at h
      cases h
  | some token =>
      rw [hcurrent] at h
      cases h

theorem take_eq_ok
    {expected : Expectation} {token : Token} (hreads : cursor.Reads words)
    (h : take expected cursor = .ok token after) :
    ∃ rest, words = token.word :: rest ∧ after.Reads rest := by
  cases words with
  | nil =>
      unfold take at h
      rw [bind_ok (get_apply cursor), hreads.current_eq_none] at h
      exact absurd h (unexpected_ne_ok expected cursor after token)
  | cons word rest =>
      obtain ⟨other, last, htake, hword, hlast⟩ := take_reads expected hreads
      rw [h] at htake
      cases htake
      exact ⟨rest, by rw [hword], hlast⟩

theorem expectKind_eq_ok
    {kind : Token.Kind} {expected : Expectation} {token : Token}
    (hreads : cursor.Reads words) (hlexical : ∀ word ∈ words, word.Lexical)
    (h : expectKind kind expected cursor = .ok token after) :
    ∃ rest, words = ⟨token.text, kind⟩ :: rest ∧
      Lexeme.classify token.text.toList = some kind ∧ after.Reads rest ∧
        ∀ word ∈ rest, word.Lexical := by
  unfold expectKind at h
  rw [bind_ok (seesKind_apply kind cursor)] at h
  split at h
  next hkind =>
    obtain ⟨rest, hwords, hrest⟩ := take_eq_ok hreads h
    subst hwords
    obtain ⟨found, hcurrent, hfound⟩ := hreads.exists_current
    rw [hcurrent, Option.any_some, beq_iff_eq] at hkind
    have htoken : token.kind = kind := by
      rw [← hkind]
      exact (congrArg Word.kind hfound).symm
    have hword : token.word.Lexical := hlexical _ (.head _)
    refine ⟨rest, by rw [Token.word, htoken], htoken ▸ hword, hrest, ?_⟩
    intro word hmem
    exact hlexical word (.tail _ hmem)
  next => exact absurd h (unexpected_ne_ok expected cursor after token)

/-- A text fixes the word that spells it. -/
theorem exists_of_sees
    {text : String} (kind : Token.Kind)
    (hlexical : ∀ word ∈ words, word.Lexical)
    (hkind : Lexeme.classify text.toList = some kind)
    (hsees : words.head?.any (·.text == text) = true) :
    ∃ rest, words = ⟨text, kind⟩ :: rest ∧ ∀ word ∈ rest, word.Lexical := by
  cases words with
  | nil => simp at hsees
  | cons word rest =>
      have htext : word.text = text := by simpa using hsees
      have hword := (hlexical word (.head _)).eq_of_text htext hkind
      refine ⟨rest, by rw [hword], ?_⟩
      intro other hmem
      exact hlexical other (.tail _ hmem)

theorem expect_eq_ok
    {text : String} (kind : Token.Kind) (hreads : cursor.Reads words)
    (hlexical : ∀ word ∈ words, word.Lexical)
    (hkind : Lexeme.classify text.toList = some kind)
    (h : expect text cursor = .ok () after) :
    ∃ rest, words = ⟨text, kind⟩ :: rest ∧ after.Reads rest ∧
      ∀ word ∈ rest, word.Lexical := by
  unfold expect at h
  obtain ⟨seen, middle, hsees, hnext⟩ := bind_eq_ok h
  obtain ⟨hseen, hmiddle⟩ := (meets_sees text words).of_ok hreads hsees
  cases hseen
  split at hnext
  next hhead =>
    obtain ⟨rest, rfl, hrest⟩ := exists_of_sees kind hlexical hkind hhead
    obtain ⟨-, hafter⟩ := (meets_advance _).of_ok hmiddle hnext
    exact ⟨rest, rfl, hafter, hrest⟩
  next => exact absurd hnext (unexpected_ne_ok _ middle after ())

end Success

end Parser

end SelectChain

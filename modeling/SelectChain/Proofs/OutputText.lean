import SelectChain.Proofs.CompoundMarks
import SelectChain.Proofs.FormattingIndependence
import SelectChain.Proofs.MeaningPreservation
import Mathlib.Tactic

/-!
# The text of a chain

The text that a pipeline is lowered to can be scanned, and its words are known
exactly: the calls of the chain, with one quotation for each column.  Nothing of
a source can leave its quotation, since columns are the texts of trees.  These
words are never a pipeline again: reading them as one ends in a grammar error at
the session, or at the first call of `selectExpr`.
-/

namespace SelectChain

open Grammar Lexeme

/-! ## Quotations -/

/-- Whether a character can stand in a quotation. -/
def Lexeme.isQuotable (c : Char) : Bool :=
  c != '\x22' && c != '\n'

theorem Lexeme.isQuotable_of_isNamePart {c : Char} (h : isNamePart c = true) :
    isQuotable c = true := by
  have hquote : c ≠ '\x22' := ne_of_isNamePart h (by decide)
  have hbreak : c ≠ '\n' := ne_of_isNamePart h (by decide)
  simp [isQuotable, hquote, hbreak]

theorem Lexeme.readsOn_quotation
    (seen : List Char) {body : List Char} (h : body.all isQuotable = true) :
    readsOn ('\x22' :: seen) false (body ++ ['\x22']) = true := by
  induction body generalizing seen with
  | nil => simp [readsOn, classify_quote]
  | cons c body ih =>
      simp only [List.all_cons, Bool.and_eq_true, isQuotable, bne_iff_ne] at h
      obtain ⟨⟨hquote, hbreak⟩, hbody⟩ := h
      have hnone : classify ('\x22' :: (seen ++ [c])) = none := by
        rw [classify_quote]
        simp [hquote]
      simp only [List.cons_append, readsOn, hnone, Bool.and_eq_true, bne_iff_ne]
      exact ⟨hbreak, rfl, ih _ hbody⟩

namespace Grammar

/-- A quotation without a quote or a line break inside. -/
def IsQuotation (text : String) : Prop :=
  ∃ body : List Char, text.toList = '\x22' :: (body ++ ['\x22']) ∧
    body.all isQuotable = true

theorem IsQuotation.spells
    {text : String} (h : IsQuotation text) :
    Spells text.toList [⟨text, .quoted⟩]
      (fun rest => rest.head? ≠ some '\x22') := by
  obtain ⟨body, hchars, hbody⟩ := h
  have hkind : classify text.toList = some .quoted := by
    rw [hchars, classify_quote]
    simp
  have hreads : readsOn [] false text.toList = true := by
    rw [hchars]
    simpa [readsOn, classify_quote] using readsOn_quotation [] hbody
  have hspells := spells_piece hreads hkind rfl
    (opensComment_of_classify hkind rfl)
    (fun rest (hrest : rest.head? ≠ some '\x22') => by
      intro c hc _
      have hquote : c ≠ '\x22' := by
        rintro rfl
        exact hrest hc
      rw [hchars, List.cons_append, classify_quote]
      simp [hquote, opensComment])
  rw [String.ofList_toList] at hspells
  exact hspells

theorem Column.quotable (column : Column) :
    column.text.toList.all isQuotable = true := by
  rw [List.all_eq_true]
  intro c hc
  exact isQuotable_of_isNamePart (column.isNamePart_of_mem hc)

theorem Tree.quotable (tree : Tree Column) :
    tree.text.toList.all isQuotable = true := by
  induction tree with
  | leaf atom => exact atom.quotable
  | group inner ih => simp [text, ih, isQuotable]
  | binary op left right ihLeft ihRight =>
      have hop : op.symbol.toList.all isQuotable = true := by
        cases op <;> decide
      simp [text, ihLeft, ihRight, hop, isQuotable]
  | conditional cmp left right yes no ihLeft ihRight ihYes ihNo =>
      have hcmp : cmp.symbol.toList.all isQuotable = true := by
        cases cmp <;> decide
      simp [text, ihLeft, ihRight, ihYes, ihNo, hcmp, isQuotable]

end Grammar

theorem isQuotable_toString (n : Nat) :
    (toString n).toList.all isQuotable = true := by
  rw [List.all_eq_true]
  intro c hc
  rw [Nat.toString_eq_repr, Nat.toList_repr] at hc
  have hdigit := Nat.isDigit_of_mem_toDigits (by decide) (by decide) hc
  exact isQuotable_of_isNamePart (by simp [isNamePart, hdigit])

/-! ## The words of a chain -/

/-- The name of the session, which may be a reserved word. -/
def sessionWords (session : String) : List Word :=
  if session = "" then []
  else if isReserved session.toList then [.keyword session]
  else [.call session]

/-- A call that a session or another call answers. -/
def callWords (name : String) (arguments : List Word) : List Word :=
  .mark "." :: .call name :: .mark "(" :: arguments ++ [.mark ")"]

/-- One quotation for each column, numbered from 1. -/
def columnWords (columns : List String) : List Word :=
  (columns.mapIdx fun index column =>
    (⟨"\x22" ++ column ++ " as _" ++ toString (index + 1) ++ "\x22", .quoted⟩ :
      Word)).intersperse (.mark ",")

def chainWords (session : String) (start stop : Numeral)
    (columns : List (List String)) : List Word :=
  sessionWords session ++
    callWords "range" [start.word, .mark ",", stop.word] ++
    callWords "selectExpr" [⟨"\x22id as _1\x22", .quoted⟩] ++
    columns.flatMap (fun stage => callWords "selectExpr" (columnWords stage)) ++
    callWords "collect" []

namespace Grammar

/-! ## Spelling a chain -/

theorem spells_nil (Follows : List Char → Prop) : Spells [] [] Follows :=
  fun line _ _ => ⟨line, [], rfl, rfl⟩

theorem spells_lone
    (mark : Char) (h : mark ∈ ['(', ')', ',', '.']) :
    Spells [mark] [.mark (String.ofList [mark])] (fun _ => True) := by
  have hstops : ∀ rest : List Char, True → Stops [mark] rest :=
    fun rest _ => stops_lone h rest
  fin_cases h <;> exact spells_piece (by decide) (by decide) rfl rfl hstops

theorem spells_name
    {text : String} {kind : Token.Kind} (htrivia : kind.isTrivia = false)
    (hidentifier : isIdentifier text.toList = true)
    (hkind : classify text.toList = some kind) :
    Spells text.toList [⟨text, kind⟩]
      (fun rest => ∀ c ∈ rest.head?, isNamePart c = false) := by
  apply spells_word (readsOn_of_isIdentifier hidentifier) hkind htrivia _
    fun _ h => h
  intro c hc
  exact isNamePart_of_isIdentifier hidentifier (List.mem_of_head? hc)

theorem Numeral.spells (digits : Numeral) :
    Spells digits.text.toList [digits.word]
      (fun rest => ∀ c ∈ rest.head?, isNamePart c = false) := by
  have hnumber := isNumber_of_classify digits.valid
  apply spells_word (readsOn_of_isNumber hnumber) digits.valid rfl _
    fun _ h => h
  intro c hc
  exact isNamePart_of_isNumber hnumber (List.mem_of_head? hc)

theorem spells_session
    {session : String}
    (h : session = "" ∨ isIdentifier session.toList = true) :
    Spells session.toList (sessionWords session)
      (fun rest => ∀ c ∈ rest.head?, isNamePart c = false) := by
  rcases h with rfl | hidentifier
  · exact spells_nil _
  · have hne : session ≠ "" := by
      rintro rfl
      cases hidentifier
    have hcomment : isComment session.toList = false := by
      cases hchars : session.toList with
      | nil => rfl
      | cons first rest =>
          rw [hchars] at hidentifier
          have hfirst := isNamePart_of_isIdentifier hidentifier (.head _)
          rw [isComment, opensComment_of_isNamePart rest hfirst]
          rfl
    unfold sessionWords
    rw [if_neg hne]
    split
    next hreserved =>
      apply spells_name rfl hidentifier
      simp [classify, hcomment, hreserved]
    next hreserved =>
      apply spells_name rfl hidentifier
      simp [classify, hcomment, hreserved, hidentifier]

/-- A call with its arguments, from its dot on. -/
theorem spells_call
    {name : String} {chars : List Char} {arguments : List Word}
    {Follows : List Char → Prop}
    (hname : classify name.toList = some .identifier)
    (harguments : Spells chars arguments Follows)
    (hclosing : ∀ rest, Follows (')' :: rest)) :
    Spells (('.' :: name.toList) ++ '(' :: (chars ++ [')']))
      (callWords name arguments) (fun _ => True) := by
  have hidentifier := isIdentifier_of_classify hname
  have hdot := (spells_lone '.' (by decide)).append
    (spells_name rfl hidentifier hname) fun _ _ => trivial
  have hopen := hdot.append (spells_lone '(' (by decide))
    fun rest _ c hc => by
      cases hc
      decide
  have hinner := hopen.append harguments fun _ _ => trivial
  have hclose := hinner.append (spells_lone ')' (by decide))
    fun rest _ => hclosing rest
  simpa [callWords, Word.call] using hclose

theorem isQuotation_renderColumn
    {column : String} (h : column.toList.all isQuotable = true)
    (position : Nat) : IsQuotation (Projection.renderColumn position column) := by
  refine ⟨column.toList ++ " as _".toList ++ (toString position).toList, ?_, ?_⟩
  · simp [Projection.renderColumn]
  · rw [List.all_append, List.all_append, h, isQuotable_toString]
    decide

theorem spells_quotations
    {texts : List String} (h : ∀ text ∈ texts, IsQuotation text) :
    Spells ([',', ' '].intercalate (texts.map String.toList))
      ((texts.map fun text => (⟨text, .quoted⟩ : Word)).intersperse (.mark ","))
      (fun rest => rest.head? ≠ some '\x22') := by
  induction texts with
  | nil => exact spells_nil _
  | cons first texts ih =>
      have hfirst := (h first (.head _)).spells
      have hrest := ih fun text hmem => h text (.tail _ hmem)
      cases texts with
      | nil => simpa using hfirst
      | cons second texts =>
          obtain ⟨body, hsecond, -⟩ := h second (.tail _ (.head _))
          have hcomma := hfirst.append (spells_lone ',' (by decide))
            fun rest _ => by simp
          have hblank := hcomma.append spells_space fun _ _ => trivial
          have hall := hblank.append hrest fun rest _ c hc => by
            have hhead := head_intercalate (by simp [hsecond]) hc
            rw [hsecond] at hhead
            cases hhead
            decide
          simpa [List.intercalate_cons_cons] using hall

theorem renderFrom_eq_mapIdx (position : Nat) (columns : List String) :
    Projection.renderFrom position columns = columns.mapIdx fun index column =>
      Projection.renderColumn (index + position) column := by
  induction columns generalizing position with
  | nil => rfl
  | cons column columns ih =>
      rw [Projection.renderFrom, ih, List.mapIdx_cons, Nat.zero_add]
      simp only [Nat.add_assoc, Nat.add_comm 1]

theorem columnWords_eq (columns : List String) :
    columnWords columns =
      ((Projection.renderFrom 1 columns).map fun text =>
        (⟨text, .quoted⟩ : Word)).intersperse (.mark ",") := by
  rw [columnWords, renderFrom_eq_mapIdx]
  congr 1
  apply List.mapIdx_eq_iff.mpr
  intro index
  rw [List.getElem?_map, List.getElem?_mapIdx, Option.map_map]
  rfl

theorem spells_columns
    {columns : List String}
    (h : ∀ column ∈ columns, column.toList.all isQuotable = true) :
    Spells (Projection.renderColumns columns).toList (columnWords columns)
      (fun rest => rest.head? ≠ some '\x22') := by
  have hall : ∀ text ∈ Projection.renderFrom 1 columns, IsQuotation text := by
    rw [renderFrom_eq_mapIdx]
    intro text hmem
    obtain ⟨index, hindex, rfl⟩ := List.mem_mapIdx.mp hmem
    exact isQuotation_renderColumn (h _ (List.getElem_mem hindex)) _
  rw [columnWords_eq, Projection.renderColumns, String.toList_intercalate]
  exact spells_quotations hall

/-- What a layout puts in front of the dot of a call. -/
def indentation : Layout → List Char
  | .stacked => "\n     ".toList
  | .inline => []

theorem separator_eq (layout : Layout) :
    layout.separator.toList = indentation layout ++ ['.'] := by
  cases layout <;> rfl

theorem spells_indentation (layout : Layout) :
    Spells (indentation layout) [] (fun rest => rest.head? = some '.') := by
  cases layout with
  | inline => exact spells_nil _
  | stacked =>
      intro line rest hrest
      refine ⟨line + 1, [⟨"\n", .space, line⟩, ⟨"     ", .space, line + 1⟩],
        rfl, ?_⟩
      have hbreak : (⟨line, '\n' :: ("     ".toList ++ rest)⟩ : Reader).items =
          .ok ⟨"\n", .space, line⟩ ::
            (⟨line + 1, "     ".toList ++ rest⟩ : Reader).items :=
        Reader.items_eq_cons rfl
      have hblanks : (⟨line + 1, "     ".toList ++ rest⟩ : Reader).items =
          .ok ⟨"     ", .space, line + 1⟩ ::
            (⟨line + 1, rest⟩ : Reader).items := by
        apply Reader.items_of_piece (line + 1) (by decide) (by decide) rfl
        intro c hc _
        rw [hrest] at hc
        cases hc
        decide
      change (⟨line, '\n' :: ("     ".toList ++ rest)⟩ : Reader).items = _
      rw [hbreak, hblanks]
      rfl

/-- A call behind the separator of a layout. -/
theorem spells_separated
    (layout : Layout) {name : String} {chars : List Char}
    {arguments : List Word} {Follows : List Char → Prop}
    (hname : classify name.toList = some .identifier)
    (harguments : Spells chars arguments Follows)
    (hclosing : ∀ rest, Follows (')' :: rest)) :
    Spells (layout.separator.toList ++ name.toList ++ '(' :: (chars ++ [')']))
      (callWords name arguments) (fun _ => True) := by
  have hcall := spells_call hname harguments hclosing
  have hall := (spells_indentation layout).append hcall fun _ _ => rfl
  rw [separator_eq]
  simpa using hall

theorem spells_stages
    (target : Target) {stages : List Stage}
    (h : ∀ stage ∈ stages, ∀ column ∈ stage.columns,
      column.toList.all isQuotable = true) :
    Spells ((stages.map (Chain.stageText target)).flatMap String.toList)
      ((stages.map (·.columns)).flatMap fun columns =>
        callWords "selectExpr" (columnWords columns)) (fun _ => True) := by
  induction stages with
  | nil => exact spells_nil _
  | cons stage stages ih =>
      have hcolumns := spells_columns (h stage (.head _))
      have hfirst := spells_separated target.layout
        (show classify "selectExpr".toList = _ by decide) hcolumns (by simp)
      have hrest := ih fun other hmem => h other (.tail _ hmem)
      have hall := hfirst.append hrest fun _ _ => trivial
      simpa [Chain.stageText, Stage.arguments] using hall

theorem spells_text
    {target : Target} (chain : Chain) {start stop : Numeral}
    (hsession : target.session = "" ∨
      isIdentifier target.session.toList = true)
    (hstart : chain.start = start.text) (hstop : chain.stop = stop.text)
    (hcolumns : ∀ stage ∈ chain.stages, ∀ column ∈ stage.columns,
      column.toList.all isQuotable = true) :
    Spells (chain.text target).toList
      (chainWords target.session start stop (chain.stages.map (·.columns)))
      (fun _ => True) := by
  have hbreaks : ∀ (c : Char) (rest : List Char), isNamePart c = false →
      ∀ d ∈ (c :: rest).head?, isNamePart d = false := by
    intro c rest hc d hd
    cases hd
    exact hc
  have hcomma := start.spells.append (spells_lone ',' (by decide))
    fun rest _ => hbreaks ',' rest (by decide)
  have hbounds := hcomma.append stop.spells fun _ _ => trivial
  have hrange := spells_call (show classify "range".toList = _ by decide)
    hbounds fun rest => hbreaks ')' rest (by decide)
  have hid : IsQuotation "\x22id as _1\x22" :=
    ⟨"id as _1".toList, rfl, by decide⟩
  have halias := spells_call (show classify "selectExpr".toList = _ by decide)
    hid.spells (by simp)
  have hcollect := spells_separated target.layout
    (show classify "collect".toList = _ by decide) (spells_nil fun _ => True)
    fun _ => trivial
  have hhead := (spells_session hsession).append hrange fun rest _ =>
    hbreaks '.' _ (by decide)
  have haliased := hhead.append halias fun _ _ => trivial
  have hstages := haliased.append (spells_stages target hcolumns)
    fun _ _ => trivial
  have hall := hstages.append hcollect fun _ _ => trivial
  simpa [Chain.text, Chain.rangeAlias, chainWords, hstart, hstop] using hall

end Grammar

/-! ## Reading the text as a pipeline -/

namespace Parser

variable {α β : Type} {words middle : List Word}

/-- Wherever the words ahead are `words`, the run ends in a grammar error. -/
def Refuses (parser : Parser α) (words : List Word) : Prop :=
  ∀ cursor : Cursor, cursor.Reads words →
    ∃ error after, parser cursor = .error (.grammar error) after

theorem refuses_unexpected (expected : Expectation) (words : List Word) :
    Refuses (unexpected expected : Parser α) words := by
  intro cursor _
  unfold unexpected
  rw [bind_ok (get_apply cursor)]
  cases cursor.current with
  | none => exact ⟨_, _, rfl⟩
  | some token => exact ⟨_, _, rfl⟩

theorem Refuses.bind
    {parser : Parser α} (h : Refuses parser words) (next : α → Parser β) :
    Refuses (parser >>= next) words := by
  intro cursor hreads
  obtain ⟨error, after, hrun⟩ := h cursor hreads
  exact ⟨error, after, bind_error hrun⟩

theorem Meets.refuses
    {parser : Parser α} {next : α → Parser β} {value : α}
    (hfirst : Meets parser words (.ok value) middle)
    (hnext : Refuses (next value) middle) :
    Refuses (parser >>= next) words := by
  intro cursor hreads
  obtain ⟨after, hrun, hafter⟩ := hfirst cursor hreads
  rw [bind_ok hrun]
  exact hnext after hafter

theorem refuses_expect
    {text : String} {word : Word} (h : word.text ≠ text) :
    Refuses (expect text) (word :: words) := by
  unfold expect
  apply (meets_sees text (word :: words)).refuses
  have hseen : ((word :: words).head?.any (·.text == text)) = false := by
    simpa using h
  rw [hseen]
  exact refuses_unexpected _ _

theorem refuses_expectKind
    {word : Word} {kind : Token.Kind} {next : Token → Parser β}
    (expected : Expectation) (hkind : word.kind = kind)
    (h : ∀ token, token.word = word → Refuses (next token) words) :
    Refuses (expectKind kind expected >>= next) (word :: words) := by
  intro cursor hreads
  obtain ⟨token, after, hrun, hword, hafter⟩ :=
    expectKind_reads expected hkind hreads
  rw [bind_ok hrun]
  exact h token hword after hafter

theorem refuses_stagesWithin
    {word : Word} (hcollect : word.text ≠ "collect") (hmap : word.text ≠ "map")
    (budget : Nat) (done : List Stage) :
    Refuses (stagesWithin budget done) (.mark "." :: word :: words) := by
  cases budget with
  | zero => exact refuses_unexpected _ _
  | succ budget =>
      unfold stagesWithin
      apply (meets_expect _ _ _).refuses
      apply (meets_sees "collect" (word :: words)).refuses
      have hseen : ((word :: words).head?.any (·.text == "collect")) =
          false := by
        simpa using hcollect
      rw [hseen]
      apply Refuses.bind
      unfold transformation
      exact (refuses_expect hmap).bind _

theorem refuses_chainWords
    (session : String) (start stop : Numeral) (columns : List (List String)) :
    Refuses pipeline (chainWords session start stop columns) := by
  by_cases hsession : session = "sc"
  · subst hsession
    -- The range is read as one; then `selectExpr` stands where `map` or
    -- `collect` should.
    unfold pipeline
    apply (meets_expect _ _ _).refuses
    apply (meets_expect _ _ _).refuses
    apply (meets_expect _ _ _).refuses
    apply (meets_expect _ _ _).refuses
    apply refuses_expectKind _ rfl
    intro _ _
    apply (meets_expect _ _ _).refuses
    apply refuses_expectKind _ rfl
    intro _ _
    apply (meets_expect _ _ _).refuses
    intro cursor hreads
    have hrun : remaining cursor = .ok cursor.remaining cursor := rfl
    rw [bind_ok hrun]
    exact (refuses_stagesWithin (by decide) (by decide) _ _).bind _ cursor
      hreads
  · have hfirst : ∃ word rest, word.text ≠ "sc" ∧
        chainWords session start stop columns = word :: rest := by
      unfold chainWords sessionWords
      split
      · exact ⟨_, _, by decide, rfl⟩
      · split
        · exact ⟨_, _, hsession, rfl⟩
        · exact ⟨_, _, hsession, rfl⟩
    obtain ⟨word, rest, hword, hwords⟩ := hfirst
    rw [hwords]
    unfold pipeline
    exact (refuses_expect hword).bind _

end Parser

/-- The columns of a lowered body are as many as the elements of its result,
and can be quoted. -/
theorem Grammar.Transformation.columns_of_outcome
    {transformation : Transformation} {stage : Stage}
    (h : transformation.outcome = .ok stage) :
    stage.columns.length = transformation.body.elements.length ∧
      ∀ column ∈ stage.columns, column.toList.all isQuotable = true := by
  obtain ⟨-, hcolumns⟩ := Body.outcome_eq_ok h
  rw [hcolumns]
  constructor
  · rw [List.length_map, Result.length_columnTrees]
    cases transformation.body with
    | block assignments result =>
        cases result <;> simp [Body.map, Body.result, Result.map,
          Body.elements, Result.elements]
    | plain result =>
        cases result <;> simp [Body.map, Body.result, Result.map,
          Body.elements, Result.elements]
  · intro column hmem
    obtain ⟨tree, -, rfl⟩ := List.mem_map.mp hmem
    exact Tree.quotable _

theorem Grammar.columns_of_mapM
    {transformations : List Transformation} {stages : List Stage}
    (h : transformations.mapM Transformation.outcome = .ok stages) :
    stages.map (·.columns.length) =
        transformations.map (·.body.elements.length) ∧
      ∀ stage ∈ stages, ∀ column ∈ stage.columns,
        column.toList.all isQuotable = true := by
  have hall := forall₂_of_mapM h
  clear h
  induction hall with
  | nil => simp
  | cons hfirst _ ih =>
      obtain ⟨hlength, hcolumns⟩ := Transformation.columns_of_outcome hfirst
      refine ⟨by simp [hlength, ih.1], ?_⟩
      intro stage hmem
      rcases List.mem_cons.mp hmem with rfl | hmem
      · exact hcolumns
      · exact ih.2 stage hmem

/-- The text of a chain is scanned as the calls that the chain stands for, and
cannot be lowered again. -/
theorem lowered_text_wellFormed
    {source : String} {chain : Chain} (target : Target)
    (hsession : target.session = "" ∨
      isIdentifier target.session.toList = true)
    (h : lower source = .ok chain) :
    ∃ (program : Program) (tokens : List Token),
      (tokenize source).map grammarWords = .ok program.words ∧
      chain.stages.map (·.columns.length) =
        program.transformations.map (·.body.elements.length) ∧
      tokenize (chain.text target) = .ok tokens ∧
      grammarWords tokens = chainWords target.session program.start
        program.stop (chain.stages.map (·.columns)) ∧
      ∀ other : Target, ∃ error,
        (Lowering.ofSource (chain.text target)).written other =
          .error (.grammar error) := by
  obtain ⟨sourceTokens, hsource⟩ := exists_tokens_of_lower h
  obtain ⟨program, hprogram⟩ := exists_program_of_lower hsource h
  have houtcome := lower_of_program hsource hprogram
  rw [h, Program.outcome] at houtcome
  cases hstages : program.transformations.mapM Transformation.outcome with
  | error error =>
      rw [hstages] at houtcome
      cases houtcome
  | ok stages =>
      rw [hstages] at houtcome
      cases houtcome
      obtain ⟨hlengths, hcolumns⟩ := columns_of_mapM hstages
      have hspells := spells_text
        ⟨program.start.text, program.stop.text, stages⟩ hsession rfl rfl hcolumns
      obtain ⟨tokens, htokens, hwords⟩ := hspells.exists_tokenize trivial
      refine ⟨program, tokens, ?_, hlengths, htokens, hwords, ?_⟩
      · rw [hsource, hprogram]
        rfl
      · intro other
        obtain ⟨cursor, hreads, hlower⟩ := lower_of_tokenize htokens
        rw [hwords] at hreads
        obtain ⟨error, after, hrun⟩ :=
          Parser.refuses_chainWords _ _ _ _ cursor hreads
        rw [hrun] at hlower
        exact ⟨error, Lowering.written_of_error hlower other⟩

/-- A text that starts like a pipeline does, with two columns. -/
theorem successor_text_wellFormed :
    let chain : Chain := ⟨"1", "3", [⟨⟨"x", []⟩, ["_1", "_1 + 1"]⟩]⟩
    lower "sc.range(1,3).map(x => (x, x + 1)).collect()" = .ok chain ∧
      ∃ tokens before behind error,
        tokenize (chain.text ⟨"sc", .stacked⟩) = .ok tokens ∧
        grammarWords tokens = before ++
          [.mark ".", .call "selectExpr", .mark "(",
            ⟨"\x22_1 as _1\x22", .quoted⟩, .mark ",",
            ⟨"\x22_1 + 1 as _2\x22", .quoted⟩, .mark ")"] ++ behind ∧
        (Lowering.ofSource (chain.text ⟨"sc", .stacked⟩)).written .standard =
          .error (.grammar error) := by
  intro chain
  have hlower : lower "sc.range(1,3).map(x => (x, x + 1)).collect()" =
      .ok chain := by
    decide +kernel
  obtain ⟨program, tokens, -, -, htokens, hwords, hrefused⟩ :=
    lowered_text_wellFormed ⟨"sc", .stacked⟩ (.inr (by decide)) hlower
  obtain ⟨error, herror⟩ := hrefused .standard
  have hcolumns : callWords "selectExpr" (columnWords ["_1", "_1 + 1"]) =
      [.mark ".", .call "selectExpr", .mark "(",
        ⟨"\x22_1 as _1\x22", .quoted⟩, .mark ",",
        ⟨"\x22_1 + 1 as _2\x22", .quoted⟩, .mark ")"] := by
    decide +kernel
  rw [← hcolumns]
  exact ⟨hlower, tokens, _, _, error, htokens, hwords, herror⟩

end SelectChain

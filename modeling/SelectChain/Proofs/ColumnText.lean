import SelectChain.Proofs.PrecedenceTree
import SelectChain.Proofs.ScannedPieces
import Mathlib.Tactic

/-!
# The text of a column

The text of a target tree can be scanned again: `Tree.exists_tokenize` gives back
the words of the tree, so the text stands for the tree.  Pieces are scanned one
by one.  `Spells` says which words a piece becomes and what may follow it, and
composes along concatenation.
-/

namespace SelectChain

namespace Lexeme

/-- Whether reading goes on through all of `piece` behind `run` and ends with a
category; `found` says whether some beginning of the run had one. -/
def readsOn (run : List Char) (found : Bool) : List Char → Bool
  | [] => found
  | c :: rest =>
      c != '\n' &&
        match classify (run ++ [c]) with
        | some _ => readsOn (run ++ [c]) true rest
        | none => !found && readsOn (run ++ [c]) false rest

/-- Reading ends behind `run` when `rest` follows.  A line break ends every run
that has a category. -/
def Stops (run rest : List Char) : Prop :=
  ∀ c ∈ rest.head?, c ≠ '\n' →
    classify (run ++ [c]) = none ∧ opensComment (run ++ [c]) = false

/-! ### Names and numbers -/

theorem isIdentifier_of_classify {run : List Char}
    (h : classify run = some .identifier) : isIdentifier run = true := by
  unfold classify at h
  split_ifs at h <;> simp_all

theorem isNumber_of_classify {run : List Char}
    (h : classify run = some .number) : isNumber run = true := by
  unfold classify at h
  split_ifs at h <;> simp_all

theorem isNamePart_of_isIdentifier {run : List Char}
    (h : isIdentifier run = true) {c : Char} (hc : c ∈ run) :
    isNamePart c = true := by
  cases run with
  | nil => cases hc
  | cons first rest =>
      simp only [isIdentifier, Bool.and_eq_true, List.all_eq_true] at h
      rcases List.mem_cons.mp hc with rfl | hrest
      · simp [isNamePart, h.1]
      · exact h.2 c hrest

theorem isNamePart_of_isNumber {run : List Char}
    (h : isNumber run = true) {c : Char} (hc : c ∈ run) :
    isNamePart c = true := by
  simp only [isNumber, Bool.and_eq_true, List.all_eq_true] at h
  simp [isNamePart, h.2 c hc]

theorem classify_isSome_of_isIdentifier {run : List Char}
    (h : isIdentifier run = true) : (classify run).isSome = true := by
  unfold classify
  split_ifs <;> simp_all

theorem classify_isSome_of_isNumber {run : List Char}
    (h : isNumber run = true) : (classify run).isSome = true := by
  unfold classify
  split_ifs <;> simp_all

/-- A run whose beginnings all have a category is read to its end. -/
theorem readsOn_of_forall
    {run piece : List Char} {found : Bool}
    (hfound : found = true ∨ piece ≠ []) (hbreak : '\n' ∉ piece)
    (h : ∀ part, part ≠ [] → part <+: piece →
      (classify (run ++ part)).isSome = true) :
    readsOn run found piece = true := by
  induction piece generalizing run found with
  | nil => simpa [readsOn] using hfound
  | cons c piece ih =>
      have hfirst := h [c] (by simp) ⟨piece, rfl⟩
      obtain ⟨kind, hkind⟩ := Option.isSome_iff_exists.mp hfirst
      have hc : c ≠ '\n' := by
        rintro rfl
        simp at hbreak
      have hrest : readsOn (run ++ [c]) true piece = true := by
        apply ih (Or.inl rfl)
        · intro hmem
          exact hbreak (List.mem_cons_of_mem _ hmem)
        · intro part hpart hbegins
          rw [List.append_assoc]
          exact h (c :: part) (by simp) ((List.prefix_cons_inj c).mpr hbegins)
      simp [readsOn, hc, hkind, hrest]

theorem readsOn_of_isIdentifier {run : List Char}
    (h : isIdentifier run = true) : readsOn [] false run = true := by
  cases run with
  | nil => cases h
  | cons c rest =>
      simp only [isIdentifier, Bool.and_eq_true, List.all_eq_true] at h
      obtain ⟨hc, hrest⟩ := h
      apply readsOn_of_forall (Or.inr (by simp))
      · intro hmem
        rcases List.mem_cons.mp hmem with rfl | hmem
        · exact absurd hc (by decide)
        · exact absurd (hrest _ hmem) (by decide)
      · intro part hpart hbegins
        apply classify_isSome_of_isIdentifier
        cases part with
        | nil => exact absurd rfl hpart
        | cons d part =>
            obtain ⟨rfl, hpart⟩ := List.cons_prefix_cons.mp hbegins
            simp only [List.nil_append, isIdentifier, hc, Bool.true_and,
              List.all_eq_true]
            intro e he
            exact hrest e (hpart.subset he)

theorem readsOn_of_isNumber {run : List Char}
    (h : isNumber run = true) : readsOn [] false run = true := by
  simp only [isNumber, Bool.and_eq_true, Bool.not_eq_true',
    List.isEmpty_eq_false_iff, List.all_eq_true] at h
  obtain ⟨hrun, hdigits⟩ := h
  apply readsOn_of_forall (Or.inr hrun)
  · intro hmem
    exact absurd (hdigits _ hmem) (by decide)
  · intro part hpart hbegins
    apply classify_isSome_of_isNumber
    simp only [List.nil_append, isNumber, Bool.and_eq_true,
      Bool.not_eq_true', List.isEmpty_eq_false_iff, List.all_eq_true]
    exact ⟨hpart, fun c hc => hdigits c (hbegins.subset hc)⟩

/-- The words of the language are made of name characters, its symbols start
with none. -/
theorem isNamePart_of_mem_reservedWords
    {word : List Char} (h : word ∈ reservedWords) {c : Char} (hc : c ∈ word) :
    isNamePart c = true := by
  have htable : reservedWords.all (List.all · isNamePart) = true := rfl
  exact List.all_eq_true.mp (List.all_eq_true.mp htable word h) c hc

theorem isNamePart_of_mem_symbols
    {c : Char} {rest : List Char} (h : c :: rest ∈ symbols) :
    isNamePart c = false := by
  have htable : symbols.all (fun symbol => !symbol.head?.any isNamePart) =
      true := rfl
  simpa using List.all_eq_true.mp htable _ h

theorem ne_of_isNamePart
    {c d : Char} (hc : isNamePart c = true) (hd : isNamePart d = false) :
    c ≠ d := by
  rintro rfl
  rw [hc] at hd
  cases hd

theorem opensComment_of_isNamePart
    {first : Char} (rest : List Char) (h : isNamePart first = true) :
    opensComment (first :: rest) = false := by
  have hhash : first ≠ '#' := ne_of_isNamePart h (by decide)
  have hslash : first ≠ '/' := ne_of_isNamePart h (by decide)
  unfold opensComment
  split <;> simp_all

/-- A character that no name contains ends a name, a number or a keyword. -/
theorem classify_append_eq_none
    {first last : Char} (middle : List Char)
    (hfirst : isNamePart first = true) (hlast : isNamePart last = false) :
    classify (first :: (middle ++ [last])) = none := by
  have hmem : last ∈ first :: (middle ++ [last]) := by simp
  have hcomment : isComment (first :: (middle ++ [last])) = false := by
    rw [isComment, opensComment_of_isNamePart _ hfirst]
    rfl
  have hreserved : isReserved (first :: (middle ++ [last])) = false := by
    rw [isReserved, List.contains_eq_mem, decide_eq_false_iff_not]
    intro hword
    rw [isNamePart_of_mem_reservedWords hword hmem] at hlast
    cases hlast
  have hidentifier : isIdentifier (first :: (middle ++ [last])) = false := by
    simp [isIdentifier, hlast]
  have hnumber : isNumber (first :: (middle ++ [last])) = false := by
    have hdigit : last.isDigit = false := (Bool.or_eq_false_iff.mp hlast).2
    simp [isNumber, hdigit]
  have hquoted : isQuoted (first :: (middle ++ [last])) = false := by
    have hquote : first ≠ '\x22' := ne_of_isNamePart hfirst (by decide)
    simp [isQuoted, hquote]
  have hsymbol : isSymbol (first :: (middle ++ [last])) = false := by
    rw [isSymbol, List.contains_eq_mem, decide_eq_false_iff_not]
    intro hmark
    rw [isNamePart_of_mem_symbols hmark] at hfirst
    cases hfirst
  have hspace : isSpace (first :: (middle ++ [last])) = false := by
    have hblank : isSpaceChar first = false := by
      simp only [isSpaceChar, Bool.or_eq_false_iff, beq_eq_false_iff_ne]
      refine ⟨⟨⟨⟨?_, ?_⟩, ?_⟩, ?_⟩, ?_⟩ <;>
        exact ne_of_isNamePart hfirst (by decide)
    simp [isSpace, hblank]
  simp [classify, hcomment, hreserved, hidentifier, hnumber, hquoted, hsymbol,
    hspace]

theorem stops_of_isNamePart
    {first : Char} (middle : List Char) {rest : List Char}
    (hfirst : isNamePart first = true)
    (hrest : ∀ c ∈ rest.head?, isNamePart c = false) :
    Stops (first :: middle) rest := by
  intro c hc _
  exact ⟨classify_append_eq_none middle hfirst (hrest c hc),
    opensComment_of_isNamePart _ hfirst⟩

/-! ### Marks -/

def startsOperand (c : Char) : Bool :=
  isNamePart c || c == '('

/-- No longer symbol starts with one of these. -/
theorem stops_lone
    {mark : Char} (h : mark ∈ ['(', ')', ',', '.']) (rest : List Char) :
    Stops [mark] rest := by
  intro c hc _
  fin_cases h <;>
    exact ⟨by simp [classify, isComment, opensComment, isReserved,
      reservedWords, isIdentifier, isNameStart, isNumber, isQuoted, isSymbol,
      symbols, isSpace, isSpaceChar], rfl⟩

theorem stops_space {rest : List Char}
    (hrest : ∀ c ∈ rest.head?, isSpaceChar c = false) :
    Stops [' '] rest := by
  intro c hc _
  have hblank := hrest c hc
  refine ⟨?_, rfl⟩
  simp [classify, isComment, opensComment, isReserved, reservedWords,
    isIdentifier, isNameStart, isNumber, isQuoted, isSymbol, symbols, isSpace,
    hblank]

end Lexeme

namespace Reader

open Lexeme

theorem grow_readsOn
    (start line : Nat) {run piece : List Char}
    {found : Option (Nat × Token.Kind)} {kind : Token.Kind} (rest : List Char)
    (hfound : ∀ length other, found = some (length, other) →
      length = run.length ∧ classify run = some other)
    (hreads : readsOn run found.isSome piece = true)
    (hkind : classify (run ++ piece) = some kind) :
    grow start run found line (piece ++ rest) =
      grow start (run ++ piece) (some ((run ++ piece).length, kind)) line
        rest := by
  induction piece generalizing run found with
  | nil =>
      cases found with
      | none => simp [readsOn] at hreads
      | some pair =>
          obtain ⟨length, other⟩ := pair
          obtain ⟨rfl, hother⟩ := hfound length other rfl
          rw [List.append_nil] at hkind ⊢
          rw [hkind] at hother
          cases hother
          rfl
  | cons c piece ih =>
      have hassoc : run ++ c :: piece = run ++ [c] ++ piece := by simp
      simp only [readsOn, Bool.and_eq_true, bne_iff_ne] at hreads
      obtain ⟨hbreak, hreads⟩ := hreads
      rw [hassoc] at hkind ⊢
      rw [List.cons_append, grow.eq_def]
      simp only [if_neg hbreak]
      cases hclass : classify (run ++ [c]) with
      | some other =>
          rw [hclass] at hreads
          apply ih
          · intro length other' hsome
            cases hsome
            exact ⟨by simp, hclass⟩
          · exact hreads
          · exact hkind
      | none =>
          rw [hclass] at hreads
          simp only [Bool.and_eq_true, Bool.not_eq_true',
            Option.isSome_eq_false_iff, Option.isNone_iff_eq_none] at hreads
          obtain ⟨rfl, hreads⟩ := hreads
          apply ih
          · intro length other hsome
            cases hsome
          · exact hreads
          · exact hkind

theorem grow_stops
    (start line : Nat) {run rest : List Char} (kind : Token.Kind)
    (hcomment : opensComment run = false) (hstops : Stops run rest) :
    grow start run (some (run.length, kind)) line rest =
      (emit start run kind, ⟨line, rest⟩) := by
  cases rest with
  | nil => simp [grow, closeAtEnd, hcomment]
  | cons c rest =>
      by_cases hbreak : c = '\n'
      · simp [grow, hbreak, hcomment]
      · obtain ⟨hclass, hopens⟩ := hstops c rfl hbreak
        simp [grow, hbreak, hclass, hopens]

/-- A piece that is read to its end and not beyond becomes one token. -/
theorem next_of_piece
    (line : Nat) {piece rest : List Char} {kind : Token.Kind}
    (hreads : readsOn [] false piece = true)
    (hkind : classify piece = some kind)
    (hcomment : opensComment piece = false) (hstops : Stops piece rest) :
    (⟨line, piece ++ rest⟩ : Reader).next =
      some (emit line piece kind, ⟨line, rest⟩) := by
  cases piece with
  | nil => simp [readsOn] at hreads
  | cons c piece =>
      have hnone : ∀ (length : Nat) (other : Token.Kind),
          none = some (length, other) →
            length = ([] : List Char).length ∧ classify [] = some other := by
        simp
      have hgrow := grow_readsOn line line rest hnone hreads hkind
      simp only [List.nil_append] at hgrow
      rw [next]
      simp only [List.cons_append] at hgrow ⊢
      rw [hgrow]
      exact congrArg some (grow_stops line line kind hcomment hstops)

theorem items_of_piece
    (line : Nat) {piece rest : List Char} {kind : Token.Kind}
    (hreads : readsOn [] false piece = true)
    (hkind : classify piece = some kind)
    (hcomment : opensComment piece = false) (hstops : Stops piece rest) :
    (⟨line, piece ++ rest⟩ : Reader).items =
      emit line piece kind :: (⟨line, rest⟩ : Reader).items :=
  items_eq_cons (next_of_piece line hreads hkind hcomment hstops)

end Reader

namespace Grammar

open Lexeme

/-! ## Spelling words -/

/-- The characters are scanned as these words, whatever follows that may. -/
def Spells (chars : List Char) (words : List Word)
    (Follows : List Char → Prop) : Prop :=
  ∀ (line : Nat) (rest : List Char), Follows rest →
    ∃ (line' : Nat) (tokens : List Token), grammarWords tokens = words ∧
      (⟨line, chars ++ rest⟩ : Reader).items =
        tokens.map .ok ++ (⟨line', rest⟩ : Reader).items

/-- What may follow a word, a number or a closing parenthesis. -/
def Breaks (rest : List Char) : Prop :=
  ∀ c ∈ rest.head?, c = ' ' ∨ c = ')' ∨ c = ','

/-- What may follow an opening parenthesis or an operator. -/
def Starts (rest : List Char) : Prop :=
  ∀ c ∈ rest.head?, startsOperand c = true

theorem Spells.append
    {first second : List Char} {words words' : List Word}
    {Follows Follows' : List Char → Prop}
    (hfirst : Spells first words Follows)
    (hsecond : Spells second words' Follows')
    (h : ∀ rest, Follows' rest → Follows (second ++ rest)) :
    Spells (first ++ second) (words ++ words') Follows' := by
  intro line rest hrest
  obtain ⟨middle, tokens, hwords, hitems⟩ :=
    hfirst line (second ++ rest) (h rest hrest)
  obtain ⟨last, tokens', hwords', hitems'⟩ := hsecond middle rest hrest
  refine ⟨last, tokens ++ tokens', ?_, ?_⟩
  · simp only [grammarWords, grammarTokens, List.filter_append, List.map_append]
      at *
    rw [hwords, hwords']
  · rw [List.append_assoc, hitems, hitems', List.map_append, List.append_assoc]

theorem spells_piece
    {piece : List Char} {kind : Token.Kind} {Follows : List Char → Prop}
    (hreads : readsOn [] false piece = true)
    (hkind : classify piece = some kind) (htrivia : kind.isTrivia = false)
    (hcomment : opensComment piece = false)
    (hstops : ∀ rest, Follows rest → Stops piece rest) :
    Spells piece [⟨String.ofList piece, kind⟩] Follows := by
  intro line rest hrest
  refine ⟨line, [⟨String.ofList piece, kind, line⟩], ?_, ?_⟩
  · simp [grammarWords, grammarTokens, Token.isTrivia, htrivia, Token.word]
  · exact Reader.items_of_piece line hreads hkind hcomment (hstops rest hrest)

theorem spells_space :
    Spells [' '] [] (fun rest => ∀ c ∈ rest.head?, isSpaceChar c = false) := by
  intro line rest hrest
  refine ⟨line, [⟨" ", .space, line⟩], rfl, ?_⟩
  exact Reader.items_of_piece line (by decide) (by decide) rfl
    (stops_space hrest)

theorem Breaks.not_isNamePart {rest : List Char} (h : Breaks rest) :
    ∀ c ∈ rest.head?, isNamePart c = false := by
  intro c hc
  rcases h c hc with rfl | rfl | rfl <;> decide

/-- Names, numbers and keywords reach up to the next character that no name
contains. -/
theorem spells_word
    {text : String} {kind : Token.Kind} {Follows : List Char → Prop}
    (hreads : readsOn [] false text.toList = true)
    (hkind : classify text.toList = some kind) (htrivia : kind.isTrivia = false)
    (hfirst : ∀ c ∈ text.toList.head?, isNamePart c = true)
    (hfollows : ∀ rest, Follows rest →
      ∀ c ∈ rest.head?, isNamePart c = false) :
    Spells text.toList [⟨text, kind⟩] Follows := by
  cases hchars : text.toList with
  | nil =>
      rw [hchars] at hreads
      cases hreads
  | cons first rest =>
      rw [hchars] at hreads hkind hfirst
      have hpart : isNamePart first = true := hfirst first rfl
      have hspells := spells_piece hreads hkind htrivia
        (opensComment_of_isNamePart rest hpart)
        (fun after h => stops_of_isNamePart rest hpart (hfollows after h))
      rw [← hchars, String.ofList_toList] at hspells
      rw [← hchars]
      exact hspells

theorem spells_opening : Spells ['('] [.mark "("] Starts :=
  spells_piece (by decide) (by decide) rfl rfl fun rest _ =>
    stops_lone (by decide) rest

theorem spells_closing : Spells [')'] [.mark ")"] Breaks :=
  spells_piece (by decide) (by decide) rfl rfl fun rest _ =>
    stops_lone (by decide) rest

theorem spells_if : Spells "if(".toList [.keyword "if", .mark "("] Starts := by
  have hword : Spells "if".toList [.keyword "if"]
      (fun rest => rest.head? = some '(') := by
    apply spells_word (by decide) (by decide) rfl
    · intro c hc
      cases hc
      decide
    · intro rest hrest c hc
      rw [hrest] at hc
      cases hc
      decide
  exact hword.append spells_opening fun _ _ => rfl

theorem Starts.not_isSpaceChar {rest : List Char} (h : Starts rest) :
    ∀ c ∈ rest.head?, isSpaceChar c = false := by
  intro c hc
  have hstart := h c hc
  by_contra hblank
  simp only [isSpaceChar, Bool.not_eq_false, Bool.or_eq_true, beq_iff_eq]
    at hblank
  rcases hblank with (((rfl | rfl) | rfl) | rfl) | rfl <;>
    exact absurd hstart (by decide)

theorem spells_mark
    {symbol : String} (hreads : readsOn [] false symbol.toList = true)
    (hkind : classify symbol.toList = some .symbol)
    (hcomment : opensComment symbol.toList = false)
    (hclass : classify (symbol.toList ++ [' ']) = none)
    (hopens : opensComment (symbol.toList ++ [' ']) = false) :
    Spells (symbol.toList ++ [' ']) [.mark symbol] Starts := by
  have hpiece : Spells symbol.toList [⟨String.ofList symbol.toList, .symbol⟩]
      (fun rest => rest.head? = some ' ') := by
    apply spells_piece hreads hkind rfl hcomment
    intro rest hrest c hc
    rw [hrest] at hc
    cases hc
    exact fun _ => ⟨hclass, hopens⟩
  rw [String.ofList_toList] at hpiece
  have hspace : Spells [' '] [] Starts :=
    fun line rest hrest => spells_space line rest hrest.not_isSpaceChar
  exact hpiece.append hspace fun _ _ => rfl

theorem spells_comma : Spells ", ".toList [.mark ","] Starts :=
  spells_mark (by decide) (by decide) rfl (by decide) rfl

theorem Spells.spaced
    {symbol : String} {words : List Word}
    (h : Spells (symbol.toList ++ [' ']) words Starts)
    (hhead : ∀ rest, ∀ c ∈ (symbol.toList ++ [' '] ++ rest).head?,
      isSpaceChar c = false) :
    Spells (" " ++ symbol ++ " ").toList words Starts := by
  have hspaced := spells_space.append h fun rest _ => hhead rest
  simpa using hspaced

theorem Arithmetic.spells (op : Arithmetic) :
    Spells (" " ++ op.symbol ++ " ").toList [op.word] Starts := by
  apply Spells.spaced
  · cases op <;>
      exact spells_mark (by decide) (by decide) rfl (by decide) rfl
  · intro rest c hc
    cases op <;> cases hc <;> decide

theorem Comparison.spells (op : Comparison) :
    Spells (" " ++ op.symbol ++ " ").toList [op.word] Starts := by
  apply Spells.spaced
  · cases op <;>
      exact spells_mark (by decide) (by decide) rfl (by decide) rfl
  · intro rest c hc
    cases op <;> cases hc <;> decide

/-! ## Column expressions -/

def Column.text : Column → String
  | .number digits => digits.text
  | .column name => name.text

def Tree.text : Tree Column → String
  | .leaf atom => atom.text
  | .group inner => "(" ++ inner.text ++ ")"
  | .binary op left right =>
      left.text ++ (" " ++ op.symbol ++ " ") ++ right.text
  | .conditional cmp left right yes no =>
      "if(" ++ left.text ++ (" " ++ cmp.symbol ++ " ") ++ right.text ++
        ", " ++ yes.text ++ ", " ++ no.text ++ ")"

theorem Column.isNamePart_of_mem
    (column : Column) {c : Char} (h : c ∈ column.text.toList) :
    isNamePart c = true := by
  cases column with
  | number digits =>
      exact isNamePart_of_isNumber (isNumber_of_classify digits.valid) h
  | column name =>
      exact isNamePart_of_isIdentifier (isIdentifier_of_classify name.valid) h

theorem Column.spells (column : Column) :
    Spells column.text.toList [column.word] Breaks := by
  have hhead : ∀ c ∈ column.text.toList.head?, isNamePart c = true :=
    fun c hc => column.isNamePart_of_mem (List.mem_of_head? hc)
  cases column with
  | number digits =>
      exact spells_word
        (readsOn_of_isNumber (isNumber_of_classify digits.valid))
        digits.valid rfl hhead fun _ h => h.not_isNamePart
  | column name =>
      exact spells_word
        (readsOn_of_isIdentifier (isIdentifier_of_classify name.valid))
        name.valid rfl hhead fun _ h => h.not_isNamePart

theorem Column.text_ne_nil (column : Column) : column.text.toList ≠ [] := by
  intro hnil
  cases column with
  | number digits =>
      have hvalid := digits.valid
      rw [show digits.text.toList = [] from hnil] at hvalid
      cases hvalid
  | column name =>
      have hvalid := name.valid
      rw [show name.text.toList = [] from hnil] at hvalid
      cases hvalid

theorem Tree.exists_start (tree : Tree Column) :
    ∃ c rest, tree.text.toList = c :: rest ∧ startsOperand c = true := by
  induction tree with
  | leaf atom =>
      cases hchars : atom.text.toList with
      | nil => exact absurd hchars atom.text_ne_nil
      | cons c rest =>
          have hpart := atom.isNamePart_of_mem (c := c) (by simp [hchars])
          exact ⟨c, rest, hchars, by simp [startsOperand, hpart]⟩
  | group inner =>
      exact ⟨'(', _, by simp [text]; rfl, by decide⟩
  | binary op left right ih _ =>
      obtain ⟨c, rest, hleft, hstart⟩ := ih
      refine ⟨c, rest ++ (" " ++ op.symbol ++ " ").toList ++
        right.text.toList, ?_, hstart⟩
      simp [text, hleft]
  | conditional cmp left right yes no =>
      exact ⟨'i', _, by simp [text]; rfl, by decide⟩

theorem Tree.starts (tree : Tree Column) (rest : List Char) :
    Starts (tree.text.toList ++ rest) := by
  obtain ⟨c, more, htext, hstart⟩ := tree.exists_start
  rw [htext]
  intro d hd
  cases hd
  exact hstart

/-- The text of a tree is scanned as its words. -/
theorem Tree.spells (tree : Tree Column) :
    Spells tree.text.toList tree.targetWords Breaks := by
  have hclosing : ∀ rest, Breaks (')' :: rest) := by
    intro rest c hc
    cases hc
    exact Or.inr (Or.inl rfl)
  have hspaced : ∀ (symbol : String) (rest : List Char),
      Breaks ((" " ++ symbol ++ " ").toList ++ rest) := by
    intro symbol rest c hc
    simp at hc
    exact Or.inl hc.symm
  have hcomma : ∀ rest, Breaks (", ".toList ++ rest) := by
    intro rest c hc
    cases hc
    exact Or.inr (Or.inr rfl)
  induction tree with
  | leaf atom => exact atom.spells
  | group inner ih =>
      have hinner := spells_opening.append ih fun rest _ => inner.starts rest
      have hgroup := hinner.append spells_closing fun rest _ => hclosing rest
      simpa [text, targetWords] using hgroup
  | binary op left right ihLeft ihRight =>
      have hop := ihLeft.append (Arithmetic.spells op) fun rest _ =>
        hspaced op.symbol rest
      have hboth := hop.append ihRight fun rest _ => right.starts rest
      simpa [text, targetWords] using hboth
  | conditional cmp left right yes no ihLeft ihRight ihYes ihNo =>
      have hopen := spells_if.append ihLeft fun rest _ => left.starts rest
      have hcmp := hopen.append (Comparison.spells cmp) fun rest _ =>
        hspaced cmp.symbol rest
      have hcondition := hcmp.append ihRight fun rest _ => right.starts rest
      have hthen := hcondition.append spells_comma fun rest _ => hcomma rest
      have hyes := hthen.append ihYes fun rest _ => yes.starts rest
      have helse := hyes.append spells_comma fun rest _ => hcomma rest
      have hno := helse.append ihNo fun rest _ => no.starts rest
      have hclose := hno.append spells_closing fun rest _ => hclosing rest
      simpa [text, targetWords] using hclose

theorem tokensOf_map_ok (tokens : List Token) :
    tokensOf (tokens.map .ok) = .ok tokens := by
  induction tokens with
  | nil => rfl
  | cons token tokens ih => simp [tokensOf, ih]

theorem Spells.exists_tokenize
    {text : String} {words : List Word} {Follows : List Char → Prop}
    (h : Spells text.toList words Follows) (hend : Follows []) :
    ∃ tokens, tokenize text = .ok tokens ∧ grammarWords tokens = words := by
  obtain ⟨line, tokens, hwords, hitems⟩ := h 1 [] hend
  have hnil : (⟨line, []⟩ : Reader).items = [] := Reader.items_eq_nil rfl
  rw [List.append_nil, hnil, List.append_nil] at hitems
  refine ⟨tokens, ?_, hwords⟩
  have hscan : scan text = tokens.map .ok := hitems
  rw [tokenize, hscan, tokensOf_map_ok]

theorem Tree.exists_tokenize (tree : Tree Column) :
    ∃ tokens, tokenize tree.text = .ok tokens ∧
      grammarWords tokens = tree.targetWords := by
  apply tree.spells.exists_tokenize
  intro c hc
  cases hc

end Grammar

end SelectChain

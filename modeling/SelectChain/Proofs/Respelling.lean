import SelectChain.Proofs.ColumnText
import Mathlib.Tactic

/-!
# Reading tokens again

The text of a scanned token is scanned as that token again when a blank follows
it.  For quoted text this is not a matter of its category alone, since a quotation
ends at the first quote that no other follows; so the way a token was read is
kept as an invariant of scanning.  `exists_tokenize_spaced` joins the tokens of a
text by single blanks.
-/

namespace SelectChain

namespace Lexeme

/-! ## Categories by the first character -/

/-- A run that starts with a quote is quoted text or nothing. -/
theorem classify_quote (run : List Char) :
    classify ('\x22' :: run) =
      if run.getLast? = some '\x22' then some .quoted else none := by
  have hreserved : isReserved ('\x22' :: run) = false := by
    rw [isReserved, List.contains_eq_mem, decide_eq_false_iff_not]
    intro hword
    have hpart := isNamePart_of_mem_reservedWords hword (.head _)
    exact absurd hpart (by decide)
  have hsymbol : isSymbol ('\x22' :: run) = false := by
    rw [isSymbol, List.contains_eq_mem, decide_eq_false_iff_not]
    intro hmark
    have htable : symbols.all (fun symbol => symbol.head? != some '\x22') =
        true := rfl
    simpa using List.all_eq_true.mp htable _ hmark
  simp [classify, isComment, opensComment, hreserved, isIdentifier, isNameStart,
    isNumber, isQuoted, hsymbol, isSpace, isSpaceChar]

/-- What a token can look like that is no trivia. -/
theorem classify_cases
    {run : List Char} {kind : Token.Kind} (h : classify run = some kind)
    (htrivia : kind.isTrivia = false) :
    (∃ first rest, run = first :: rest ∧ isNamePart first = true) ∨
      (∃ rest, run = '\x22' :: rest) ∨ run ∈ symbols := by
  cases run with
  | nil =>
      rw [classify_nil] at h
      cases h
  | cons first rest =>
      unfold classify at h
      split_ifs at h with _ hreserved hidentifier hnumber hquoted hsymbol
      · cases h
        cases htrivia
      · left
        have hmem : first :: rest ∈ reservedWords := by
          simpa [isReserved] using hreserved
        exact ⟨first, rest, rfl, isNamePart_of_mem_reservedWords hmem (.head _)⟩
      · left
        exact ⟨first, rest, rfl,
          isNamePart_of_isIdentifier hidentifier (.head _)⟩
      · left
        exact ⟨first, rest, rfl, isNamePart_of_isNumber hnumber (.head _)⟩
      · right; left
        simp only [isQuoted, Bool.and_eq_true, beq_iff_eq] at hquoted
        exact ⟨rest, by rw [hquoted.1]⟩
      · right; right
        simpa [isSymbol] using hsymbol
      · cases h
        cases htrivia

section Tokens

variable {run : List Char} {kind : Token.Kind}
  (h : classify run = some kind) (htrivia : kind.isTrivia = false)

include h htrivia

theorem opensComment_of_classify : opensComment run = false := by
  rcases classify_cases h htrivia with
    ⟨first, rest, rfl, hfirst⟩ | ⟨rest, rfl⟩ | hsymbol
  · exact opensComment_of_isNamePart rest hfirst
  · rfl
  · have htable : symbols.all (fun symbol => !opensComment symbol) = true := rfl
    simpa using List.all_eq_true.mp htable _ hsymbol

theorem isSpaceChar_head_of_classify :
    ∀ c ∈ run.head?, isSpaceChar c = false := by
  rcases classify_cases h htrivia with
    ⟨first, rest, rfl, hfirst⟩ | ⟨rest, rfl⟩ | hsymbol
  · intro c hc
    cases hc
    simp only [isSpaceChar, Bool.or_eq_false_iff, beq_eq_false_iff_ne]
    refine ⟨⟨⟨⟨?_, ?_⟩, ?_⟩, ?_⟩, ?_⟩ <;>
      exact ne_of_isNamePart hfirst (by decide)
  · intro c hc
    cases hc
    decide
  · have htable : symbols.all (fun symbol =>
        symbol.head?.all (!isSpaceChar ·)) = true := rfl
    intro c hc
    have hsymbol := List.all_eq_true.mp htable _ hsymbol
    rw [Option.mem_def.mp hc] at hsymbol
    simpa using hsymbol

/-- A blank ends every token. -/
theorem stops_of_classify (rest : List Char) : Stops run (' ' :: rest) := by
  intro c hc _
  cases hc
  rcases classify_cases h htrivia with
    ⟨first, rest, rfl, hfirst⟩ | ⟨rest, rfl⟩ | hsymbol
  · exact ⟨classify_append_eq_none rest hfirst (by decide),
      opensComment_of_isNamePart _ hfirst⟩
  · rw [List.cons_append, classify_quote]
    simp [opensComment]
  · have htable : symbols.all (fun symbol =>
        classify (symbol ++ [' ']) == none &&
          !opensComment (symbol ++ [' '])) = true := by
      decide
    simpa using List.all_eq_true.mp htable _ hsymbol

end Tokens

/-- Whatever ends in a blank is trivia. -/
theorem isTrivia_of_classify_blank
    {run : List Char} {blank : Char} {kind : Token.Kind}
    (hblank : isSpaceChar blank = true)
    (h : classify (run ++ [blank]) = some kind) : kind.isTrivia = true := by
  by_contra hne
  have htrivia : kind.isTrivia = false := by simpa using hne
  have hpart : isNamePart blank = false := by
    simp only [isSpaceChar, Bool.or_eq_true, beq_iff_eq] at hblank
    rcases hblank with (((rfl | rfl) | rfl) | rfl) | rfl <;> decide
  have hquote : blank ≠ '\x22' := by
    rintro rfl
    cases hblank
  rcases classify_cases h htrivia with
    ⟨first, rest, hrun, hfirst⟩ | ⟨rest, hrun⟩ | hsymbol
  · cases run with
    | nil =>
        cases hrun
        rw [hpart] at hfirst
        cases hfirst
    | cons c run =>
        cases hrun
        rw [List.cons_append, classify_append_eq_none run hfirst hpart] at h
        cases h
  · cases run with
    | nil =>
        cases hrun
        exact hquote rfl
    | cons c run =>
        cases hrun
        rw [List.cons_append, classify_quote] at h
        simp [hquote] at h
  · have htable : symbols.all (fun symbol =>
        symbol.getLast?.all (!isSpaceChar ·)) = true := rfl
    have hlast := List.all_eq_true.mp htable _ hsymbol
    simp [hblank] at hlast

theorem toNat_of_isNamePart {c : Char} (h : isNamePart c = true) :
    48 ≤ c.toNat ∧ c.toNat ≤ 122 := by
  have halpha : c.isAlpha = (decide ('A'.val ≤ c.val ∧ c.val ≤ 'Z'.val) ||
      decide ('a'.val ≤ c.val) && decide (c.val ≤ 'z'.val)) := rfl
  simp only [isNamePart, isNameStart, halpha, Char.isDigit, Bool.or_eq_true,
    Bool.and_eq_true, decide_eq_true_eq, beq_iff_eq, ge_iff_le,
    UInt32.le_iff_toNat_le] at h
  rcases h with ((h | h) | rfl) | h
  · simp at h
    omega
  · simp at h
    omega
  · decide
  · simp at h
    omega

theorem isBlank_of_isNamePart {c : Char} (h : isNamePart c = true) :
    Text.isBlank c = false := by
  obtain ⟨hlow, hhigh⟩ := toNat_of_isNamePart h
  simp only [Text.isBlank, Text.blankRanges, List.any_cons, List.any_nil,
    Bool.or_false, Bool.or_eq_false_iff, Bool.and_eq_false_iff,
    decide_eq_false_iff_not]
  omega

/-- No token ends in a blank. -/
theorem trimEnd_of_classify
    {run : List Char} {kind : Token.Kind} (h : classify run = some kind)
    (htrivia : kind.isTrivia = false) : Text.trimEnd run = run := by
  rcases List.eq_nil_or_concat' run with rfl | ⟨start, c, rfl⟩
  · rfl
  apply Text.trimEnd_append_singleton
  rcases classify_cases h htrivia with
    ⟨first, rest, hrun, hfirst⟩ | ⟨rest, hrun⟩ | hsymbol
  · apply isBlank_of_isNamePart
    cases start with
    | nil =>
        cases hrun
        exact hfirst
    | cons d start =>
        cases hrun
        by_contra hlast
        rw [List.cons_append, classify_append_eq_none start hfirst
          (by simpa using hlast)] at h
        cases h
  · cases start with
    | nil =>
        cases hrun
        cases h
    | cons d start =>
        cases hrun
        rw [List.cons_append, classify_quote] at h
        by_cases hc : c = '\x22'
        · rw [hc]
          decide
        · simp [hc] at h
  · have htable : symbols.all (fun symbol =>
        symbol.getLast?.all (!Text.isBlank ·)) = true := rfl
    simpa using List.all_eq_true.mp htable _ hsymbol

theorem not_mem_break_of_readsOn
    {run piece : List Char} {found : Bool}
    (h : readsOn run found piece = true) : '\n' ∉ piece := by
  induction piece generalizing run found with
  | nil => simp
  | cons c piece ih =>
      simp only [readsOn, Bool.and_eq_true, bne_iff_ne] at h
      obtain ⟨hc, h⟩ := h
      intro hmem
      rcases List.mem_cons.mp hmem with rfl | hmem
      · exact hc rfl
      · split at h
        · exact ih h hmem
        · exact ih (Bool.and_eq_true_iff.mp h).2 hmem

end Lexeme

namespace Reader

open Lexeme

/-! ## How a token was read -/

/-- Outside comments, all of the run was read on from its start. -/
def ReadOn (run : List Char) (found : Option (Nat × Token.Kind)) : Prop :=
  opensComment run = true ∨
    ∀ more, readsOn [] false (run ++ more) = readsOn run found.isSome more

theorem ReadOn.snoc_some
    {run : List Char} {found : Option (Nat × Token.Kind)} {c : Char}
    {kind : Token.Kind} (h : ReadOn run found) (hc : c ≠ '\n')
    (hkind : classify (run ++ [c]) = some kind) (length : Nat) :
    ReadOn (run ++ [c]) (some (length, kind)) := by
  rcases h with hopens | hreads
  · exact .inl (opensComment_append hopens [c])
  · right
    intro more
    rw [List.append_assoc, hreads]
    simp [readsOn, hc, hkind]

theorem ReadOn.snoc_none
    {run : List Char} {c : Char} (h : ReadOn run none) (hc : c ≠ '\n')
    (hkind : classify (run ++ [c]) = none) : ReadOn (run ++ [c]) none := by
  rcases h with hopens | hreads
  · exact .inl (opensComment_append hopens [c])
  · right
    intro more
    rw [List.append_assoc, hreads]
    simp [readsOn, hc, hkind]

theorem ReadOn.emit
    {run : List Char} {length : Nat} {kind : Token.Kind}
    (h : ReadOn run (some (length, kind)))
    (htracked : Tracked run (some (length, kind)))
    (hopens : opensComment run = false) :
    readsOn [] false (run.take length) = true := by
  rcases htracked length kind rfl with hcomment | ⟨rfl, -⟩
  · rw [hopens] at hcomment
    cases hcomment
  · rcases h with hcomment | hreads
    · rw [hopens] at hcomment
      cases hcomment
    · have hend := hreads []
      rw [List.append_nil] at hend
      rw [List.take_length, hend]
      rfl

theorem closeAtBreak_isTrivia
    {start : Nat} {run : List Char} {token : Token}
    (h : closeAtBreak start run = .ok token) : token.isTrivia = true := by
  unfold closeAtBreak at h
  split at h
  next kind hkind =>
    cases h
    exact isTrivia_of_classify_blank (by decide) hkind
  next => cases h

theorem grow_reads
    (start line : Nat) {run chars : List Char}
    {found : Option (Nat × Token.Kind)} {token : Token}
    (htracked : Tracked run found) (hreads : ReadOn run found)
    (h : (grow start run found line chars).1 = .ok token)
    (htrivia : token.isTrivia = false) :
    readsOn [] false token.text.toList = true := by
  have hbreak : ∀ run, closeAtBreak start run ≠ .ok token := by
    intro run hclose
    rw [closeAtBreak_isTrivia hclose] at htrivia
    cases htrivia
  induction chars generalizing run found with
  | nil =>
      simp only [grow, closeAtEnd] at h
      cases hopens : opensComment run with
      | true =>
          rw [hopens, if_pos rfl] at h
          cases h
          cases htrivia
      | false =>
          rw [hopens] at h
          cases found with
          | none => cases h
          | some found =>
              cases h
              simpa using hreads.emit htracked hopens
  | cons c rest ih =>
      by_cases hc : c = '\n'
      · subst hc
        -- A run that takes the line break in is trivia; others end before it.
        cases found with
        | none =>
            simp only [grow, if_pos] at h
            exact absurd h (hbreak run)
        | some found =>
            cases hopens : opensComment run with
            | true =>
                simp only [grow, if_pos, hopens] at h
                exact absurd h (hbreak run)
            | false =>
                simp only [grow, if_pos, hopens, Bool.false_eq_true,
                  if_false] at h
                cases h
                simpa using hreads.emit htracked hopens
      · cases hkind : classify (run ++ [c]) with
        | some kind =>
            simp only [grow, hc, if_false, hkind] at h
            exact ih (tracked_classified hkind) (hreads.snoc_some hc hkind _) h
        | none =>
            cases found with
            | none =>
                simp only [grow, hc, if_false, hkind] at h
                exact ih (tracked_none _) (hreads.snoc_none hc hkind) h
            | some found =>
                cases hopens : opensComment (run ++ [c]) with
                | true =>
                    simp only [grow, hc, if_false, hkind, hopens, if_true] at h
                    exact ih (tracked_comment hopens _) (.inl hopens) h
                | false =>
                    simp only [grow, hc, if_false, hkind, hopens,
                      Bool.false_eq_true] at h
                    cases h
                    simpa using
                      hreads.emit htracked (opensComment_of_append hopens)

theorem grow_lines
    (start line : Nat) (run : List Char) (found : Option (Nat × Token.Kind))
    {chars : List Char} (hbreak : '\n' ∉ chars) :
    (∀ token, (grow start run found line chars).1 = .ok token →
        token.line = start) ∧
      (grow start run found line chars).2.line = line := by
  have hemit : ∀ run kind token, emit start run kind = .ok token →
      token.line = start := by
    intro run kind token h
    cases h
    rfl
  induction chars generalizing run found with
  | nil =>
      refine ⟨?_, rfl⟩
      intro token h
      simp only [grow, closeAtEnd] at h
      split at h
      · exact hemit _ _ _ h
      · cases found with
        | none => cases h
        | some found => exact hemit _ _ _ h
  | cons c rest ih =>
      have hc : c ≠ '\n' := fun h => hbreak (h ▸ .head _)
      have hrest := fun run found => ih run found fun h => hbreak (.tail _ h)
      rw [grow.eq_def]
      simp only [hc, if_false]
      split
      · exact hrest _ _
      · split
        · exact hrest _ _
        · split
          · exact hrest _ _
          · exact ⟨hemit _ _, by simp⟩

theorem grow_of_next
    {reader after : Reader} {item : Item}
    (h : reader.next = some (item, after)) :
    grow reader.line [] none reader.line reader.rest = (item, after) := by
  unfold next at h
  cases hrest : reader.rest with
  | nil => simp [hrest] at h
  | cons c rest => simpa [hrest] using h

/-- What holds of every token that is read, as long as reading keeps an
invariant, holds of all tokens. -/
theorem items_induction
    (Inv : Reader → Prop) (P : Token → Prop)
    (hstep : ∀ {reader after item}, Inv reader →
      reader.next = some (item, after) →
      (∀ token, item = .ok token → P token) ∧ Inv after)
    {reader : Reader} (hstart : Inv reader) {token : Token}
    (hmem : .ok token ∈ reader.items) : P token := by
  induction hlength : reader.rest.length using Nat.strongRecOn
    generalizing reader with
  | ind n ih =>
      cases hnext : reader.next with
      | none =>
          rw [items] at hmem
          split at hmem <;> simp_all
      | some step =>
          obtain ⟨item, after⟩ := step
          obtain ⟨hitem, hafter⟩ := hstep hstart hnext
          rw [items_eq_cons hnext] at hmem
          rcases List.mem_cons.mp hmem with heq | hmem
          · exact hitem token heq.symm
          · exact ih _ (hlength ▸ next_rest_length_lt hnext) hafter hmem rfl

theorem reads_of_mem_items
    {reader : Reader} {token : Token} (hmem : .ok token ∈ reader.items)
    (htrivia : token.isTrivia = false) :
    readsOn [] false token.text.toList = true := by
  revert htrivia
  apply items_induction (fun _ => True) (fun token =>
    token.isTrivia = false → readsOn [] false token.text.toList = true) _
    trivial hmem
  intro reader after item _ hnext
  refine ⟨?_, trivial⟩
  rintro token rfl htrivia
  have hgrow := congrArg Prod.fst (grow_of_next hnext)
  exact grow_reads reader.line reader.line (tracked_none [])
    (.inr fun _ => rfl) hgrow htrivia

/-- Without line breaks, all tokens stand on one line. -/
theorem line_of_mem_items
    {reader : Reader} {token : Token} (hbreak : '\n' ∉ reader.rest)
    (hmem : .ok token ∈ reader.items) : token.line = reader.line := by
  apply items_induction
    (fun later => '\n' ∉ later.rest ∧ later.line = reader.line)
    (fun token => token.line = reader.line) _ ⟨hbreak, rfl⟩ hmem
  rintro later after item ⟨hbreak, hline⟩ hnext
  have hlines := grow_lines later.line later.line [] none hbreak
  obtain ⟨piece, -, hpiece, -⟩ := next_accounts hnext
  rw [grow_of_next hnext, hline] at hlines
  refine ⟨?_, ?_, hlines.2⟩
  · rintro token rfl
    exact hlines.1 token rfl
  · intro hmem
    rw [hpiece] at hbreak
    exact hbreak (List.mem_append_right _ hmem)

end Reader

namespace Grammar

open Lexeme

/-! ## Tokens with blanks between them -/

/-- A token that is scanned again from its own text. -/
structure Rereadable (token : Token) : Prop where
  reads : readsOn [] false token.text.toList = true
  kind : classify token.text.toList = some token.kind
  proper : token.isTrivia = false

theorem rereadable_of_tokenize
    {source : String} {tokens : List Token}
    (h : tokenize source = .ok tokens) :
    ∀ token ∈ grammarTokens tokens, Rereadable token := by
  have hitems : (Reader.ofChars source.toList).items = tokens.map .ok :=
    tokensOf_eq_ok h
  intro token htoken
  obtain ⟨hmem, htrivia⟩ := List.mem_filter.mp htoken
  have hproper : token.isTrivia = false := by simpa using htrivia
  have hitem : .ok token ∈ (Reader.ofChars source.toList).items := by
    rw [hitems]
    exact List.mem_map_of_mem hmem
  exact ⟨Reader.reads_of_mem_items hitem hproper,
    Reader.classify_of_mem_items hitem hproper, hproper⟩

theorem Rereadable.spells
    {token : Token} (h : Rereadable token) :
    Spells token.text.toList [token.word]
      (fun rest => ∀ c ∈ rest.head?, c = ' ') := by
  have hpiece := spells_piece h.reads h.kind h.proper
    (opensComment_of_classify h.kind h.proper)
    (fun rest (hrest : ∀ c ∈ rest.head?, c = ' ') => by
      cases rest with
      | nil => simp [Stops]
      | cons c rest =>
          rw [hrest c rfl]
          exact stops_of_classify h.kind h.proper rest)
  rw [String.ofList_toList] at hpiece
  exact hpiece

/-- The texts of the tokens that matter, with one blank between any two. -/
def spaced (tokens : List Token) : String :=
  " ".intercalate ((grammarTokens tokens).map (·.text))

theorem Rereadable.text_ne_nil
    {token : Token} (h : Rereadable token) : token.text.toList ≠ [] := by
  intro hnil
  have hkind := h.kind
  rw [hnil, classify_nil] at hkind
  cases hkind

theorem head_intercalate
    {separator first after : List Char} {rest : List (List Char)} {c : Char}
    (hfirst : first ≠ [])
    (h : c ∈ (separator.intercalate (first :: rest) ++ after).head?) :
    c ∈ first.head? := by
  cases first with
  | nil => exact absurd rfl hfirst
  | cons d first =>
      cases rest with
      | nil => simpa using h
      | cons second rest => simpa [List.intercalate_cons_cons] using h

theorem spells_intercalate
    {tokens : List Token} (h : ∀ token ∈ tokens, Rereadable token) :
    Spells ([' '].intercalate (tokens.map (·.text.toList)))
      (tokens.map Token.word) (· = []) := by
  induction tokens with
  | nil =>
      intro line rest hrest
      exact ⟨line, [], rfl, rfl⟩
  | cons first rest ih =>
      have hfirst := (h first (.head _)).spells
      have hrest := ih fun token hmem => h token (.tail _ hmem)
      cases rest with
      | nil =>
          intro line rest hend
          simp only [List.map_cons, List.map_nil, List.intercalate_singleton]
          exact hfirst line rest (by simp [hend])
      | cons second rest =>
          have hsecond := h second (.tail _ (.head _))
          have hblank := hfirst.append spells_space fun _ _ _ hc => by
            cases hc
            rfl
          simp only [List.map_cons, List.intercalate_cons_cons] at hrest ⊢
          apply hblank.append hrest
          intro after _ c hc
          exact isSpaceChar_head_of_classify hsecond.kind hsecond.proper c
            (head_intercalate hsecond.text_ne_nil hc)

theorem break_not_mem_intercalate
    {tokens : List Token} (h : ∀ token ∈ tokens, Rereadable token) :
    '\n' ∉ [' '].intercalate (tokens.map (·.text.toList)) := by
  induction tokens with
  | nil => simp
  | cons first rest ih =>
      have hfirst := not_mem_break_of_readsOn (h first (.head _)).reads
      have hrest := ih fun token hmem => h token (.tail _ hmem)
      cases rest with
      | nil => simpa using hfirst
      | cons second rest =>
          simp only [List.map_cons, List.intercalate_cons_cons,
            List.mem_append, List.mem_singleton] at hrest ⊢
          simp [hfirst, hrest]

/-- A text is scanned as before when only its tokens are left, with single blanks
between them, and all of them are then on the first line. -/
theorem exists_tokenize_spaced
    {source : String} {tokens : List Token}
    (h : tokenize source = .ok tokens) :
    ∃ tokens', tokenize (spaced tokens) = .ok tokens' ∧
      grammarWords tokens' = grammarWords tokens ∧
      ∀ token ∈ tokens', token.line = 1 := by
  have hall := rereadable_of_tokenize h
  have hchars : (spaced tokens).toList =
      [' '].intercalate ((grammarTokens tokens).map (·.text.toList)) := by
    rw [spaced, String.toList_intercalate, List.map_map]
    rfl
  have hspells := spells_intercalate hall
  rw [← hchars] at hspells
  obtain ⟨tokens', htokens, hwords⟩ := hspells.exists_tokenize rfl
  refine ⟨tokens', htokens, hwords, ?_⟩
  intro token hmem
  have hitems : (Reader.ofChars (spaced tokens).toList).items =
      tokens'.map .ok := tokensOf_eq_ok htokens
  have hbreak : '\n' ∉ (Reader.ofChars (spaced tokens).toList).rest := by
    change '\n' ∉ (spaced tokens).toList
    rw [hchars]
    exact break_not_mem_intercalate hall
  apply Reader.line_of_mem_items hbreak
  rw [hitems]
  exact List.mem_map_of_mem hmem

end Grammar

end SelectChain

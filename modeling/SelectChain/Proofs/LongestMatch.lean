import SelectChain.Proofs.LineEndings
import Mathlib.Data.List.TakeWhile
import Mathlib.Tactic

/-!
# The next item

Reading looks one character ahead and stops at the first character that takes
the category of a run away, yet it finds the longest beginning of the line that
has a category.  The reason is `classify_between`: outside quotations, a run with
a category that is continued to one with a category does not lose it on the way.
Quotations are the exception, since any text between two quotes is one.  They
end with the quotes behind the first one that closes them.

`next_item_exact` describes the next item by the rest of its line alone.
-/

namespace SelectChain

namespace Lexeme

/-! ## Categories of beginnings -/

/-- The forms of a run with a category. -/
theorem classify_forms
    {run : List Char} {kind : Token.Kind} (h : classify run = some kind) :
    isComment run = true ∨ isIdentifier run = true ∨ isNumber run = true ∨
      (∃ rest, run = '\x22' :: rest) ∨ run ∈ symbols ∨ isSpace run = true := by
  unfold classify at h
  split_ifs at h with hcomment hreserved hidentifier hnumber hquoted hsymbol hspace
  · exact .inl hcomment
  · have hword : run ∈ reservedWords := by simpa [isReserved] using hreserved
    exact .inr (.inl (isIdentifier_of_mem_reservedWords hword))
  · exact .inr (.inl hidentifier)
  · exact .inr (.inr (.inl hnumber))
  · cases run with
    | nil => cases hquoted
    | cons c rest =>
        simp only [isQuoted, Bool.and_eq_true, beq_iff_eq] at hquoted
        exact .inr (.inr (.inr (.inl ⟨rest, by rw [hquoted.1]⟩)))
  · exact .inr (.inr (.inr (.inr (.inl (by simpa [isSymbol] using hsymbol)))))
  · exact .inr (.inr (.inr (.inr (.inr hspace))))

theorem break_mem_of_isComment {run : List Char} (h : isComment run = true) :
    '\n' ∈ run := by
  simp only [isComment, Bool.and_eq_true, beq_iff_eq] at h
  exact List.mem_of_getLast? h.1.2

section Beginnings

variable {run more : List Char} (hrun : run ≠ [])

include hrun

theorem isIdentifier_of_append (h : isIdentifier (run ++ more) = true) :
    isIdentifier run = true := by
  cases run with
  | nil => exact absurd rfl hrun
  | cons c run =>
      simp only [List.cons_append, isIdentifier, List.all_append,
        Bool.and_eq_true] at h
      simp [isIdentifier, h.1, h.2.1]

theorem isNumber_of_append (h : isNumber (run ++ more) = true) :
    isNumber run = true := by
  simp only [isNumber, List.all_append, Bool.and_eq_true] at h
  simp [isNumber, hrun, h.2.1]

theorem isSpace_of_append (h : isSpace (run ++ more) = true) :
    isSpace run = true := by
  simp only [isSpace, List.all_append, Bool.and_eq_true] at h
  simp [isSpace, hrun, h.2.1]

end Beginnings

/-- Outside quotations no category is lost between a run and a longer one. -/
theorem classify_between
    {run more : List Char} {c : Char} {kind : Token.Kind}
    (hkind : classify run = some kind) (hquoted : kind ≠ .quoted)
    (hbreak : '\n' ∉ run ++ c :: more)
    (hlonger : (classify (run ++ c :: more)).isSome = true) :
    (classify (run ++ [c])).isSome = true := by
  have hrun : run ≠ [] := by
    rintro rfl
    cases hkind
  have hnext : run ++ [c] ≠ [] := by simp
  have hwhole : run ++ c :: more = run ++ [c] ++ more := by simp
  obtain ⟨other, hother⟩ := Option.isSome_iff_exists.mp hlonger
  rcases classify_forms hother with
    hcomment | hidentifier | hnumber | ⟨rest, hquote⟩ | hsymbol | hspace
  · exact absurd (break_mem_of_isComment hcomment) hbreak
  · rw [hwhole] at hidentifier
    exact classify_isSome_of_isIdentifier
      (isIdentifier_of_append hnext hidentifier)
  · rw [hwhole] at hnumber
    exact classify_isSome_of_isNumber (isNumber_of_append hnext hnumber)
  · -- The run starts with a quote, so its category is the one excluded.
    cases run with
    | nil => exact absurd rfl hrun
    | cons first run =>
        obtain rfl : first = '\x22' := (List.cons.inj hquote).1
        rw [classify_quote] at hkind
        split at hkind
        · exact absurd (Option.some.inj hkind).symm hquoted
        · cases hkind
  · have htable : symbols.all (fun symbol => decide (symbol.length ≤ 2)) =
        true := rfl
    have hlength := List.all_eq_true.mp htable _ hsymbol
    have hpos := List.length_pos_iff.mpr hrun
    simp only [List.length_append, List.length_cons, decide_eq_true_eq]
      at hlength
    obtain rfl : more = [] := List.length_eq_zero_iff.mp (by omega)
    exact hlonger
  · rw [hwhole] at hspace
    obtain ⟨_, hsome, -⟩ := classify_of_isSpace (isSpace_of_append hnext hspace)
    rw [hsome]
    rfl

/-- No beginning of `line` with a category is longer than `piece`. -/
def Longest (line piece : List Char) : Prop :=
  ∀ part, part <+: line → (classify part).isSome = true →
    part.length ≤ piece.length

/-- A quote, a body without quotes, and all the quotes behind the body. -/
def ClosedQuote (line piece : List Char) : Prop :=
  ∃ body quotes rest,
    piece = '\x22' :: (body ++ '\x22' :: List.replicate quotes '\x22') ∧
      '\x22' ∉ body ∧ line = piece ++ rest ∧ rest.head? ≠ some '\x22'

theorem longest_of_ended
    {piece rest : List Char} {kind : Token.Kind}
    (hkind : classify piece = some kind) (hquoted : kind ≠ .quoted)
    (hbreak : '\n' ∉ piece ++ rest)
    (hended : ∀ c ∈ rest.head?, classify (piece ++ [c]) = none) :
    Longest (piece ++ rest) piece := by
  intro part hpart hsome
  by_contra hlonger
  -- A longer part goes on with the character that ended the piece.
  obtain ⟨more, rfl⟩ : piece <+: part :=
    List.prefix_of_prefix_length_le ⟨rest, rfl⟩ hpart (by omega)
  cases more with
  | nil => simp at hlonger
  | cons c more =>
      obtain ⟨tail, htail⟩ := hpart
      have hrest : rest = c :: (more ++ tail) := by
        have := htail.symm
        simpa using this
      have hnone := hended c (by rw [hrest]; rfl)
      have hclean : '\n' ∉ piece ++ c :: more := by
        intro hmem
        apply hbreak
        rw [← htail]
        exact List.mem_append_left _ hmem
      have hstill := classify_between hkind hquoted hclean hsome
      rw [hnone] at hstill
      cases hstill

theorem exists_of_classify_quoted {run : List Char}
    (h : classify run = some .quoted) : ∃ rest, run = '\x22' :: rest := by
  have hquoted : isQuoted run = true := by
    unfold classify at h
    split_ifs at h <;> simp_all
  cases run with
  | nil => cases hquoted
  | cons c rest =>
      simp only [isQuoted, Bool.and_eq_true, beq_iff_eq] at hquoted
      exact ⟨rest, by rw [hquoted.1]⟩

/-- Behind the first closing quote, only quotes are read on. -/
theorem readsOn_quoted_true
    {seen piece : List Char} (h : readsOn ('\x22' :: seen) true piece = true) :
    ∃ quotes, piece = List.replicate quotes '\x22' := by
  induction piece generalizing seen with
  | nil => exact ⟨0, rfl⟩
  | cons c piece ih =>
      simp only [readsOn, List.cons_append, classify_quote,
        List.getLast?_append, List.getLast?_singleton, Option.some_or,
        Option.some.injEq, Bool.and_eq_true] at h
      by_cases hquote : c = '\x22'
      · subst hquote
        obtain ⟨quotes, rfl⟩ := ih h.2
        exact ⟨quotes + 1, rfl⟩
      · simp [hquote] at h

theorem readsOn_quoted_false
    {seen piece : List Char} (h : readsOn ('\x22' :: seen) false piece = true) :
    ∃ body quotes, '\x22' ∉ body ∧
      piece = body ++ '\x22' :: List.replicate quotes '\x22' := by
  induction piece generalizing seen with
  | nil => cases h
  | cons c piece ih =>
      simp only [readsOn, List.cons_append, classify_quote,
        List.getLast?_append, List.getLast?_singleton, Option.some_or,
        Option.some.injEq, Bool.and_eq_true] at h
      by_cases hquote : c = '\x22'
      · subst hquote
        obtain ⟨quotes, rfl⟩ := readsOn_quoted_true h.2
        exact ⟨[], quotes, by simp, rfl⟩
      · simp only [hquote, if_false, Bool.not_false, Bool.true_and] at h
        obtain ⟨body, quotes, hbody, rfl⟩ := ih h.2
        refine ⟨c :: body, quotes, ?_, rfl⟩
        rw [List.mem_cons, not_or]
        exact ⟨fun heq => hquote heq.symm, hbody⟩

theorem closedQuote_of_ended
    {piece rest : List Char} (hkind : classify piece = some .quoted)
    (hreads : readsOn [] false piece = true)
    (hended : ∀ c ∈ rest.head?, classify (piece ++ [c]) = none) :
    ClosedQuote (piece ++ rest) piece := by
  obtain ⟨behind, rfl⟩ := exists_of_classify_quoted hkind
  have hopen : classify ['\x22'] = none := by rw [classify_quote]; rfl
  simp only [readsOn, List.nil_append, hopen, Bool.and_eq_true] at hreads
  obtain ⟨body, quotes, hbody, rfl⟩ := readsOn_quoted_false hreads.2.2
  refine ⟨body, quotes, rest, rfl, hbody, rfl, ?_⟩
  intro hquote
  have hnone := hended '\x22' hquote
  rw [List.cons_append, classify_quote, if_pos (by rw [List.getLast?_append]; rfl)]
    at hnone
  cases hnone

/-! ## How a line starts -/

/-- The line starts with a character of a blank, a name or a number, with a
symbol, or with a quote that is closed on it. -/
def StartsToken (line : List Char) : Prop :=
  (∃ c ∈ line.head?,
    isSpaceChar c = true ∨ isNameStart c = true ∨ c.isDigit = true) ∨
  (∃ symbol ∈ symbols, symbol <+: line) ∨
  ∃ rest, line = '\x22' :: rest ∧ '\x22' ∈ rest

theorem startsToken_iff {line : List Char} (hbreak : '\n' ∉ line) :
    StartsToken line ↔
      ∃ part, part <+: line ∧ (classify part).isSome = true := by
  constructor
  · rintro (⟨c, hc, hfirst⟩ | ⟨symbol, hsymbol, hpart⟩ | ⟨rest, rfl, hquote⟩)
    · have hpart : [c] <+: line := by
        cases line with
        | nil => cases hc
        | cons d line =>
            cases hc
            exact ⟨line, rfl⟩
      refine ⟨[c], hpart, ?_⟩
      rcases hfirst with hspace | hname | hdigit
      · have hblank : isSpace [c] = true := by simp [isSpace, hspace]
        obtain ⟨_, hsome, -⟩ := classify_of_isSpace hblank
        rw [hsome]
        rfl
      · exact classify_isSome_of_isIdentifier (by simp [isIdentifier, hname])
      · exact classify_isSome_of_isNumber (by simp [isNumber, hdigit])
    · refine ⟨symbol, hpart, ?_⟩
      have htable : symbols.all (fun symbol => (classify symbol).isSome) =
          true := by
        decide
      exact List.all_eq_true.mp htable symbol hsymbol
    · obtain ⟨body, behind, rfl⟩ := List.append_of_mem hquote
      refine ⟨'\x22' :: (body ++ ['\x22']), ⟨behind, by simp⟩, ?_⟩
      rw [classify_quote]
      simp
  · rintro ⟨part, hpart, hsome⟩
    obtain ⟨kind, hkind⟩ := Option.isSome_iff_exists.mp hsome
    have hhead : ∀ c, c ∈ part.head? → c ∈ line.head? := by
      obtain ⟨more, rfl⟩ := hpart
      intro c hc
      rw [List.head?_append, Option.mem_def.mp hc]
      rfl
    obtain ⟨first, rest, rfl⟩ : ∃ first rest, part = first :: rest := by
      cases part with
      | nil => cases hkind
      | cons first rest => exact ⟨first, rest, rfl⟩
    rcases classify_forms hkind with
      hcomment | hidentifier | hnumber | ⟨_, hquote⟩ | hsymbol | hspace
    · exact absurd (hpart.subset (break_mem_of_isComment hcomment)) hbreak
    · simp only [isIdentifier, Bool.and_eq_true] at hidentifier
      exact .inl ⟨first, hhead first rfl, .inr (.inl hidentifier.1)⟩
    · simp only [isNumber, List.all_cons, Bool.and_eq_true] at hnumber
      exact .inl ⟨first, hhead first rfl, .inr (.inr hnumber.2.1)⟩
    · obtain rfl : first = '\x22' := (List.cons.inj hquote).1
      rw [classify_quote] at hkind
      split at hkind
      next hlast =>
        obtain ⟨more, rfl⟩ := hpart
        refine .inr (.inr ⟨rest ++ more, rfl, ?_⟩)
        exact List.mem_append_left _ (List.mem_of_getLast? hlast)
      next => cases hkind
    · exact .inr (.inl ⟨_, hsymbol, hpart⟩)
    · simp only [isSpace, List.all_cons, Bool.and_eq_true] at hspace
      exact .inl ⟨first, hhead first rfl, .inl hspace.2.1⟩

/-! ## Reading on -/

/-- A run with a category is read on as long as it keeps one. -/
theorem exists_readsOn_true
    {run line : List Char} (hbreak : '\n' ∉ line)
    (hrun : (classify run).isSome = true) :
    ∃ piece rest, line = piece ++ rest ∧ readsOn run true piece = true ∧
      (classify (run ++ piece)).isSome = true ∧
      ∀ c ∈ rest.head?, classify (run ++ piece ++ [c]) = none := by
  induction line generalizing run with
  | nil => exact ⟨[], [], rfl, rfl, by simpa using hrun, by simp⟩
  | cons c line ih =>
      rw [List.mem_cons, not_or] at hbreak
      cases hkind : classify (run ++ [c]) with
      | none =>
          refine ⟨[], c :: line, rfl, rfl, by simpa using hrun, ?_⟩
          intro d hd
          cases hd
          simpa using hkind
      | some kind =>
          obtain ⟨piece, rest, rfl, hreads, hsome, hended⟩ :=
            ih hbreak.2 (by rw [hkind]; rfl)
          refine ⟨c :: piece, rest, rfl, ?_, by simpa using hsome,
            by simpa using hended⟩
          simp [readsOn, hkind, hreads, Ne.symm hbreak.1]

/-- Some beginning of a line is read to where it loses its category, or none has
one. -/
theorem exists_readsOn_or
    (run : List Char) {line : List Char} (hbreak : '\n' ∉ line) :
    (∃ piece rest, line = piece ++ rest ∧ readsOn run false piece = true ∧
      (classify (run ++ piece)).isSome = true ∧
      ∀ c ∈ rest.head?, classify (run ++ piece ++ [c]) = none) ∨
    ∀ part, part ≠ [] → part <+: line → classify (run ++ part) = none := by
  induction line generalizing run with
  | nil =>
      right
      intro part hne hpart
      exact absurd (List.prefix_nil.mp hpart) hne
  | cons c line ih =>
      rw [List.mem_cons, not_or] at hbreak
      cases hkind : classify (run ++ [c]) with
      | some kind =>
          left
          have hfirst : (classify (run ++ [c])).isSome = true := by
            rw [hkind]
            rfl
          obtain ⟨piece, rest, rfl, hreads, hsome, hended⟩ :=
            exists_readsOn_true hbreak.2 hfirst
          refine ⟨c :: piece, rest, rfl, ?_, by simpa using hsome,
            by simpa using hended⟩
          simp [readsOn, hkind, hreads, Ne.symm hbreak.1]
      | none =>
          rcases ih (run ++ [c]) hbreak.2 with
            ⟨piece, rest, rfl, hreads, hsome, hended⟩ | hnone
          · left
            refine ⟨c :: piece, rest, rfl, ?_, by simpa using hsome,
              by simpa using hended⟩
            simp [readsOn, hkind, hreads, Ne.symm hbreak.1]
          · right
            intro part hne hpart
            cases part with
            | nil => exact absurd rfl hne
            | cons d part =>
                obtain ⟨rfl, hrest⟩ := List.cons_prefix_cons.mp hpart
                by_cases hend : part = []
                · rw [hend]
                  exact hkind
                · simpa using hnone part hend hrest

theorem stops_of_ended
    {piece rest behind : List Char}
    (hopens : opensComment (piece ++ rest) = false)
    (hended : ∀ c ∈ rest.head?, classify (piece ++ [c]) = none)
    (hbehind : ∀ c ∈ behind.head?, c = '\n') : Stops piece (rest ++ behind) := by
  intro c hc hbreak
  cases rest with
  | nil => exact absurd (hbehind c hc) hbreak
  | cons d rest =>
      cases hc
      refine ⟨hended c rfl, ?_⟩
      rw [← List.singleton_append, ← List.append_assoc] at hopens
      exact opensComment_of_append hopens

/-- The line break does not make a token of a line without one. -/
theorem classify_break_eq_none
    {line : List Char} (hline : line ≠ []) (hopens : opensComment line = false)
    (hnone : ∀ part, part <+: line → classify part = none) :
    classify (line ++ ['\n']) = none := by
  cases hkind : classify (line ++ ['\n']) with
  | none => rfl
  | some kind =>
      rcases isComment_or_isSpace hkind
        (isTrivia_of_classify_blank (by decide) hkind) with hcomment | hspace
      · simp only [isComment, Bool.and_eq_true] at hcomment
        rw [opensComment_append_of_ne hline (by simp), hopens] at hcomment
        cases hcomment.1.1
      · obtain ⟨_, hsome, -⟩ :=
          classify_of_isSpace (isSpace_of_append hline hspace)
        rw [hnone line List.prefix_rfl] at hsome
        cases hsome

end Lexeme

namespace Reader

open Lexeme

/-! ## The rest of a line -/

def firstLine (chars : List Char) : List Char :=
  chars.takeWhile (· != '\n')

/-- The line break behind the first line, unless the text ends there. -/
def firstBreak (chars : List Char) : List Char :=
  (chars.dropWhile (· != '\n')).take 1

def laterLines (chars : List Char) : List Char :=
  (chars.dropWhile (· != '\n')).drop 1

theorem firstLine_append (chars : List Char) :
    firstLine chars ++ (firstBreak chars ++ laterLines chars) = chars := by
  rw [firstBreak, laterLines, List.take_append_drop]
  exact List.takeWhile_append_dropWhile

theorem break_not_mem_firstLine (chars : List Char) :
    '\n' ∉ firstLine chars := by
  intro hmem
  simpa using List.mem_takeWhile_imp hmem

theorem firstBreak_cases (chars : List Char) :
    firstBreak chars = [] ∧ laterLines chars = [] ∨
      firstBreak chars = ['\n'] := by
  unfold firstBreak laterLines
  cases hdrop : chars.dropWhile (· != '\n') with
  | nil => exact .inl ⟨rfl, rfl⟩
  | cons c rest =>
      right
      have hne : chars.dropWhile (· != '\n') ≠ [] := by simp [hdrop]
      have hhead := List.head_dropWhile_not (· != '\n') hne
      simp only [hdrop, List.head_cons, bne_eq_false_iff_eq] at hhead
      simp [hhead]

section Closing

variable (start line : Nat) {run : List Char}

theorem exists_move_join
    (run : List Char) (found : Option (Nat × Token.Kind)) {c : Char}
    (hbreak : c ≠ '\n')
    (h : found = none ∨ opensComment (run ++ [c]) = true) :
    ∃ found', move run found c = .join found' := by
  cases hmove : move run found c with
  | join found' => exact ⟨found', rfl⟩
  | close => exact absurd (move_close_eq_break hmove) hbreak
  | cut length kind =>
      obtain ⟨hfound, -, hends⟩ := move_eq_cut hmove
      rcases h with hnone | hopens
      · rw [hfound] at hnone
        cases hnone
      · rw [(hends hbreak).2] at hopens
        cases hopens

/-- A comment takes all of its line. -/
theorem exists_grow_comment
    (found : Option (Nat × Token.Kind)) {chars : List Char}
    (hopens : opensComment run = true) (hbreak : '\n' ∉ chars)
    (behind : List Char) :
    ∃ found', grow start run found line (chars ++ behind) =
      grow start (run ++ chars) found' line behind := by
  induction chars generalizing run found with
  | nil => exact ⟨found, by simp⟩
  | cons c chars ih =>
      rw [List.mem_cons, not_or] at hbreak
      have hlonger := opensComment_append hopens [c]
      obtain ⟨found', hmove⟩ :=
        exists_move_join run found (Ne.symm hbreak.1) (.inr hlonger)
      obtain ⟨last, hgrow⟩ := ih found' hlonger hbreak.2
      refine ⟨last, ?_⟩
      rw [List.cons_append, grow_cons, hmove]
      simpa using hgrow

/-- The characters that open a comment are read on, too. -/
theorem exists_grow_fresh_comment
    {chars : List Char} (hopens : opensComment chars = true)
    (hbreak : '\n' ∉ chars) (behind : List Char) :
    ∃ found, grow start [] none line (chars ++ behind) =
      grow start chars found line behind := by
  unfold opensComment at hopens
  split at hopens
  next rest =>
    have hmark : '#' ≠ '\n' := by decide
    obtain ⟨first, hfirst⟩ := exists_move_join [] none hmark (.inl rfl)
    have hrun : opensComment ['#'] = true := rfl
    obtain ⟨found, hgrow⟩ := exists_grow_comment start line first hrun
      (fun hmem => hbreak (.tail _ hmem)) behind
    refine ⟨found, ?_⟩
    rw [List.cons_append, grow_cons, hfirst]
    exact hgrow
  next rest =>
    have hmark : '/' ≠ '\n' := by decide
    obtain ⟨first, hfirst⟩ := exists_move_join [] none hmark (.inl rfl)
    have hrun : opensComment ['/', '/'] = true := rfl
    obtain ⟨second, hsecond⟩ :=
      exists_move_join ['/'] first hmark (.inr hrun)
    obtain ⟨found, hgrow⟩ := exists_grow_comment start line second hrun
      (fun hmem => hbreak (.tail _ (.tail _ hmem))) behind
    refine ⟨found, ?_⟩
    rw [List.cons_append, grow_cons, hfirst]
    simp only [List.nil_append]
    rw [List.cons_append, grow_cons, hsecond]
    exact hgrow
  next => cases hopens

/-- A run that never has a category takes all of its line. -/
theorem grow_unreadable
    (run : List Char) {chars : List Char} (hbreak : '\n' ∉ chars)
    (hnone : ∀ part, part ≠ [] → part <+: chars →
      classify (run ++ part) = none) (behind : List Char) :
    grow start run none line (chars ++ behind) =
      grow start (run ++ chars) none line behind := by
  induction chars generalizing run with
  | nil => simp
  | cons c chars ih =>
      rw [List.mem_cons, not_or] at hbreak
      have hkind := hnone [c] (by simp) ⟨chars, rfl⟩
      have hmove : move run none c = .join none := by
        simp [move, hkind, Ne.symm hbreak.1]
      have hrest : ∀ part, part ≠ [] → part <+: chars →
          classify (run ++ [c] ++ part) = none := by
        intro part _ hpart
        simpa using hnone (c :: part) (by simp)
          ((List.prefix_cons_inj c).mpr hpart)
      rw [List.cons_append, grow_cons, hmove]
      simpa using ih (run ++ [c]) hbreak.2 hrest

end Closing

section Cases

variable (line : Nat) {chars : List Char} (hchars : chars ≠ [])

include hchars

theorem next_eq_grow :
    (⟨line, chars⟩ : Reader).next =
      some (grow line [] none line
        (firstLine chars ++ (firstBreak chars ++ laterLines chars))) := by
  rw [firstLine_append]
  cases chars with
  | nil => exact absurd rfl hchars
  | cons c rest => rfl

theorem next_break (hline : firstLine chars = []) :
    (⟨line, chars⟩ : Reader).next =
      some (.ok ⟨"\n", .space, line⟩, ⟨line + 1, laterLines chars⟩) := by
  have hbreak : firstBreak chars = ['\n'] := by
    rcases firstBreak_cases chars with ⟨hnil, hlater⟩ | hbreak
    · have happend := firstLine_append chars
      rw [hline, hnil, hlater] at happend
      exact absurd happend.symm hchars
    · exact hbreak
  have hkind : classify ['\n'] = some .space := by decide
  rw [next_eq_grow line hchars, hline, hbreak]
  simp [grow, closeAtBreak, hkind, emit, past]

theorem next_comment (hopens : opensComment (firstLine chars) = true) :
    (⟨line, chars⟩ : Reader).next =
      some (.ok ⟨String.ofList (firstLine chars ++ firstBreak chars), .comment,
          line⟩,
        ⟨line + (firstBreak chars).length, laterLines chars⟩) := by
  have hbreak := break_not_mem_firstLine chars
  obtain ⟨found, hgrow⟩ := exists_grow_fresh_comment line line hopens hbreak
    (firstBreak chars ++ laterLines chars)
  rw [next_eq_grow line hchars, hgrow]
  rcases firstBreak_cases chars with ⟨hnil, hlater⟩ | hend
  · rw [hnil, hlater]
    simp [grow, closeAtEnd, hopens, emit]
  · have hcomment : isComment (firstLine chars ++ ['\n']) = true := by
      simp [isComment, opensComment_append hopens, hbreak]
    have hkind : classify (firstLine chars ++ ['\n']) = some .comment := by
      simp [classify, hcomment]
    rw [hend, List.singleton_append, grow_cons,
      move_break_eq_close (.inr hopens)]
    simp [closeAtBreak, hkind, emit, past]

theorem next_unreadable
    (hline : firstLine chars ≠ [])
    (hopens : opensComment (firstLine chars) = false)
    (hnone : ∀ part, part <+: firstLine chars → classify part = none) :
    (⟨line, chars⟩ : Reader).next =
      some (.error ⟨String.ofList (if firstBreak chars = [] then
            firstLine chars else Text.trimEnd (firstLine chars)), line⟩,
        ⟨line + (firstBreak chars).length, laterLines chars⟩) := by
  have hgrow := grow_unreadable line line []
    (break_not_mem_firstLine chars) (fun part _ hpart => hnone part hpart)
    (firstBreak chars ++ laterLines chars)
  rw [next_eq_grow line hchars, hgrow]
  rcases firstBreak_cases chars with ⟨hnil, hlater⟩ | hend
  · rw [hnil, hlater]
    simp [grow, closeAtEnd, hopens]
  · have hkind := classify_break_eq_none hline hopens hnone
    rw [hend, List.singleton_append, grow_cons,
      move_break_eq_close (.inl rfl)]
    simp [closeAtBreak, hkind, past, Text.trimEnd_append_blank _
      (show Text.isBlank '\n' = true by decide)]

end Cases

theorem next_token
    (line : Nat) {chars : List Char}
    (hopens : opensComment (firstLine chars) = false)
    (hsome : ∃ part, part <+: firstLine chars ∧
      (classify part).isSome = true) :
    ∃ piece kind, piece <+: firstLine chars ∧ classify piece = some kind ∧
      (⟨line, chars⟩ : Reader).next =
        some (.ok ⟨String.ofList piece, kind, line⟩,
          ⟨line, chars.drop piece.length⟩) ∧
      (kind ≠ .quoted → Longest (firstLine chars) piece) ∧
      (kind = .quoted → ClosedQuote (firstLine chars) piece) := by
  have hbreak := break_not_mem_firstLine chars
  have hchars := firstLine_append chars
  rcases exists_readsOn_or [] hbreak with
    ⟨piece, rest, hline, hreads, hpiece, hended⟩ | hnone
  · simp only [List.nil_append] at hpiece hended
    obtain ⟨kind, hkind⟩ := Option.isSome_iff_exists.mp hpiece
    rw [hline] at hopens hbreak ⊢
    have hstops : Stops piece
        (rest ++ (firstBreak chars ++ laterLines chars)) := by
      apply stops_of_ended hopens hended
      rcases firstBreak_cases chars with ⟨hnil, hlater⟩ | hend
      · simp [hnil, hlater]
      · simp [hend]
    refine ⟨piece, kind, ⟨rest, rfl⟩, hkind, ?_,
      fun hquoted => longest_of_ended hkind hquoted hbreak hended, ?_⟩
    · have hnext := next_of_piece line hreads hkind
        (opensComment_of_append hopens) hstops
      have htext : piece ++ (rest ++ (firstBreak chars ++ laterLines chars)) =
          chars := by
        rw [← List.append_assoc, ← hline, hchars]
      rw [htext] at hnext
      rw [hnext]
      have hdrop : chars.drop piece.length =
          rest ++ (firstBreak chars ++ laterLines chars) := by
        conv_lhs => rw [← htext]
        exact List.drop_left
      rw [hdrop]
      rfl
    · rintro rfl
      exact closedQuote_of_ended hkind hreads hended
  · obtain ⟨part, hpart, hkind⟩ := hsome
    have hne : part ≠ [] := by
      rintro rfl
      cases hkind
    have hnothing := hnone part hne hpart
    rw [List.nil_append] at hnothing
    rw [hnothing] at hkind
    cases hkind

/-- The next item, by the rest of its line.  A line break alone is a blank, and a
comment takes all of the line.  Otherwise, if some beginning of the line has a
category, the longest of them is the next token, or the quotation up to the last
of the quotes that close it; and if none has one, the line is unreadable.  This
is so exactly if the line is no comment and does not start like a token. -/
theorem next_item_exact (line : Nat) {chars : List Char} (hchars : chars ≠ []) :
    (firstLine chars = [] →
      (⟨line, chars⟩ : Reader).next =
        some (.ok ⟨"\n", .space, line⟩, ⟨line + 1, laterLines chars⟩)) ∧
    (opensComment (firstLine chars) = true →
      (⟨line, chars⟩ : Reader).next =
        some (.ok ⟨String.ofList (firstLine chars ++ firstBreak chars), .comment,
            line⟩,
          ⟨line + (firstBreak chars).length, laterLines chars⟩)) ∧
    (opensComment (firstLine chars) = false →
      (∃ part, part <+: firstLine chars ∧ (classify part).isSome = true) →
      ∃ piece kind, piece <+: firstLine chars ∧ classify piece = some kind ∧
        (⟨line, chars⟩ : Reader).next =
          some (.ok ⟨String.ofList piece, kind, line⟩,
            ⟨line, chars.drop piece.length⟩) ∧
        (kind ≠ .quoted → Longest (firstLine chars) piece) ∧
        (kind = .quoted → ClosedQuote (firstLine chars) piece)) ∧
    (firstLine chars ≠ [] → opensComment (firstLine chars) = false →
      (∀ part, part <+: firstLine chars → classify part = none) →
      (⟨line, chars⟩ : Reader).next =
        some (.error ⟨String.ofList (if firstBreak chars = [] then
              firstLine chars else Text.trimEnd (firstLine chars)), line⟩,
          ⟨line + (firstBreak chars).length, laterLines chars⟩)) ∧
    ((∃ error after,
        (⟨line, chars⟩ : Reader).next = some (.error error, after)) ↔
      firstLine chars ≠ [] ∧ opensComment (firstLine chars) = false ∧
        ¬ StartsToken (firstLine chars)) := by
  have hstarts := startsToken_iff (break_not_mem_firstLine chars)
  refine ⟨next_break line hchars, next_comment line hchars, next_token line,
    next_unreadable line hchars, ?_, ?_⟩
  · rintro ⟨error, after, herror⟩
    have hopens : opensComment (firstLine chars) = false := by
      by_contra hcomment
      rw [next_comment line hchars (by simpa using hcomment)] at herror
      cases herror
    refine ⟨?_, hopens, ?_⟩
    · intro hline
      rw [next_break line hchars hline] at herror
      cases herror
    · intro htoken
      obtain ⟨piece, kind, -, -, hnext, -⟩ :=
        next_token line hopens (hstarts.mp htoken)
      rw [hnext] at herror
      cases herror
  · rintro ⟨hline, hopens, htoken⟩
    refine ⟨_, _, next_unreadable line hchars hline hopens ?_⟩
    intro part hpart
    by_contra hkind
    exact htoken (hstarts.mpr
      ⟨part, hpart, Option.isSome_iff_ne_none.mpr hkind⟩)

/-- A quotation goes on through all the quotes that close it. -/
theorem doubled_quote_read_on :
    "\x22a\x22\x22 b".toList ≠ [] ∧
      ∃ piece kind, piece <+: firstLine "\x22a\x22\x22 b".toList ∧
        classify piece = some kind ∧
        (⟨3, "\x22a\x22\x22 b".toList⟩ : Reader).next =
          some (.ok ⟨String.ofList piece, kind, 3⟩,
            ⟨3, "\x22a\x22\x22 b".toList.drop piece.length⟩) ∧
        (kind ≠ .quoted →
          Longest (firstLine "\x22a\x22\x22 b".toList) piece) ∧
        (kind = .quoted →
          ClosedQuote (firstLine "\x22a\x22\x22 b".toList) piece) :=
  ⟨by decide, (next_item_exact 3 (by decide)).2.2.1 (by decide)
    ⟨"\x22a\x22".toList, by decide, by decide⟩⟩

end Reader

end SelectChain

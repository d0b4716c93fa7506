import SelectChain.Scan
import Mathlib.Tactic

/-!
# The pieces of a scanned text

Scanning cuts a text into one piece for each item.  A run is cut to the longest
beginning that had a category, yet only one character is ever given back, so
nothing is lost only because that beginning is the whole run: outside comments,
a run that has lost its category is one character longer than the beginning.
`Tracked` is this invariant, `grow_accounts` carries it through one item, and
`items_accounts` through all of them.
-/

namespace SelectChain

/-- What an item anywhere in a text says about its piece.  A token is its piece
and has the category of it; an unreadable run was closed by a line break. -/
def Item.Accounts (item : Item) (piece : List Char) : Prop :=
  match item with
  | .ok token =>
      token.text.toList = piece ∧ Lexeme.classify piece = some token.kind
  | .error error =>
      (∃ run, piece = run ++ ['\n'] ∧ '\n' ∉ run) ∧
        error.text.toList = Text.trimEnd piece

/-- What else the last item of a text may say about its piece: it may be a
comment without a line break, or a run that the end of the text closed. -/
def Item.AccountsAtEnd (item : Item) (piece : List Char) : Prop :=
  match item with
  | .ok token =>
      token.text.toList = piece ∧ token.kind = .comment ∧
        Lexeme.opensComment piece = true ∧ '\n' ∉ piece
  | .error error => error.text.toList = piece

namespace Lexeme

theorem opensComment_append
    {run : List Char} (h : opensComment run = true) (more : List Char) :
    opensComment (run ++ more) = true := by
  unfold opensComment at h
  split at h
  · simp [opensComment]
  · simp [opensComment]
  · simp at h

theorem opensComment_of_append
    {run more : List Char} (h : opensComment (run ++ more) = false) :
    opensComment run = false := by
  by_contra hne
  have htrue : opensComment run = true := by simpa using hne
  rw [opensComment_append htrue] at h
  cases h

end Lexeme

namespace Reader

/-- Outside comments, the longest beginning with a category is the whole
run. -/
def Tracked (run : List Char) (found : Option (Nat × Token.Kind)) : Prop :=
  ∀ length kind, found = some (length, kind) →
    Lexeme.opensComment run = true ∨
      length = run.length ∧ Lexeme.classify run = some kind

theorem tracked_none (run : List Char) : Tracked run none := by
  intro length kind hfound
  simp at hfound

theorem tracked_classified
    {run : List Char} {c : Char} {kind : Token.Kind}
    (hkind : Lexeme.classify (run ++ [c]) = some kind) :
    Tracked (run ++ [c]) (some (run.length + 1, kind)) := by
  intro length kind' hfound
  simp only [Option.some.injEq, Prod.mk.injEq] at hfound
  obtain ⟨rfl, rfl⟩ := hfound
  right
  exact ⟨by simp, hkind⟩

theorem tracked_comment
    {run : List Char} (hopens : Lexeme.opensComment run = true)
    (found : Option (Nat × Token.Kind)) : Tracked run found := by
  intro length kind _
  exact Or.inl hopens

theorem Tracked.emit_accounts
    {run : List Char} {length : Nat} {kind : Token.Kind}
    (htracked : Tracked run (some (length, kind)))
    (hopens : Lexeme.opensComment run = false) (start : Nat) :
    Item.Accounts (emit start (run.take length) kind) run := by
  rcases htracked length kind rfl with hcomment | ⟨hlength, hkind⟩
  · rw [hopens] at hcomment
    contradiction
  · subst hlength
    simp [Item.Accounts, emit, hkind]

theorem closeAtBreak_accounts
    (start : Nat) {run : List Char} (hrun : '\n' ∉ run) :
    Item.Accounts (closeAtBreak start run) (run ++ ['\n']) := by
  unfold closeAtBreak
  cases hkind : Lexeme.classify (run ++ ['\n']) with
  | some kind => simp [Item.Accounts, emit, hkind]
  | none =>
      refine ⟨⟨run, rfl, hrun⟩, ?_⟩
      simp

theorem closeAtEnd_accounts
    (start : Nat) {run : List Char} {found : Option (Nat × Token.Kind)}
    (htracked : Tracked run found) (hrun : '\n' ∉ run) :
    Item.Accounts (closeAtEnd start run found) run ∨
      Item.AccountsAtEnd (closeAtEnd start run found) run := by
  unfold closeAtEnd
  cases hopens : Lexeme.opensComment run with
  | true =>
      right
      simp [Item.AccountsAtEnd, emit, hopens, hrun]
  | false =>
      cases found with
      | none =>
          right
          simp [Item.AccountsAtEnd]
      | some found =>
          left
          exact htracked.emit_accounts hopens start

/-- One item: the run and what is read on make its piece, and what is left over
is left to the reader. -/
theorem grow_accounts
    (start : Nat) {run : List Char} {found : Option (Nat × Token.Kind)}
    (line : Nat) (chars : List Char)
    (htracked : Tracked run found) (hrun : '\n' ∉ run) :
    ∃ piece,
      run ++ chars = piece ++ (grow start run found line chars).2.rest ∧
      (Item.Accounts (grow start run found line chars).1 piece ∨
        (grow start run found line chars).2.rest = [] ∧
          Item.AccountsAtEnd (grow start run found line chars).1 piece) := by
  induction chars generalizing run found with
  | nil =>
      refine ⟨run, by simp [grow], ?_⟩
      have hclose := closeAtEnd_accounts start htracked hrun
      simpa [grow] using hclose
  | cons c rest ih =>
      have hassoc : run ++ c :: rest = (run ++ [c]) ++ rest := by simp
      by_cases hc : c = '\n'
      · subst hc
        have hbreak :
            run ++ '\n' :: rest = (run ++ ['\n']) ++ rest ∧
              (Item.Accounts (closeAtBreak start run) (run ++ ['\n']) ∨
                rest = [] ∧
                  Item.AccountsAtEnd (closeAtBreak start run)
                    (run ++ ['\n'])) :=
          ⟨hassoc, Or.inl (closeAtBreak_accounts start hrun)⟩
        cases found with
        | none =>
            refine ⟨run ++ ['\n'], ?_⟩
            simpa only [grow, if_pos, past] using hbreak
        | some found =>
            cases hopens : Lexeme.opensComment run with
            | true =>
                refine ⟨run ++ ['\n'], ?_⟩
                simpa only [grow, hopens, if_pos, past] using hbreak
            | false =>
                refine ⟨run, by simp [grow, hopens], Or.inl ?_⟩
                simpa [grow, hopens] using
                  htracked.emit_accounts hopens start
      · have hrunc : '\n' ∉ run ++ [c] := by
          simp only [List.mem_append, List.mem_singleton, not_or]
          exact ⟨hrun, fun h => hc h.symm⟩
        rw [hassoc]
        cases hkind : Lexeme.classify (run ++ [c]) with
        | some kind =>
            simpa only [grow, hc, if_false, hkind] using
              ih (tracked_classified hkind) hrunc
        | none =>
            cases found with
            | none =>
                simpa only [grow, hc, if_false, hkind] using
                  ih (tracked_none _) hrunc
            | some found =>
                cases hopens : Lexeme.opensComment (run ++ [c]) with
                | true =>
                    simpa only [grow, hc, if_false, hkind, hopens, if_true]
                      using ih (tracked_comment hopens _) hrunc
                | false =>
                    -- The character that ended the run is given back.
                    have hrunOpens := Lexeme.opensComment_of_append hopens
                    refine ⟨run, by simp [grow, hc, hkind, hopens], Or.inl ?_⟩
                    simpa [grow, hc, hkind, hopens] using
                      htracked.emit_accounts hrunOpens start

theorem next_accounts
    {reader after : Reader} {item : Item}
    (h : reader.next = some (item, after)) :
    ∃ piece, piece ≠ [] ∧ reader.rest = piece ++ after.rest ∧
      (item.Accounts piece ∨ after.rest = [] ∧ item.AccountsAtEnd piece) := by
  have hshorter := next_rest_length_lt h
  unfold next at h
  cases hrest : reader.rest with
  | nil => simp [hrest] at h
  | cons c rest =>
      simp only [hrest, Option.some.injEq] at h
      obtain ⟨piece, hpiece, haccounts⟩ :=
        grow_accounts reader.line reader.line (c :: rest)
          (tracked_none []) (by simp)
      rw [h, List.nil_append] at hpiece
      rw [h] at haccounts
      refine ⟨piece, ?_, hpiece, haccounts⟩
      intro hnil
      rw [hrest, hpiece, hnil] at hshorter
      simp at hshorter

theorem items_eq_nil {reader : Reader} (h : reader.rest = []) :
    reader.items = [] := by
  have hnext : reader.next = none := by simp [next, h]
  rw [items]
  split
  · rfl
  · simp_all

theorem items_eq_cons
    {reader after : Reader} {item : Item}
    (h : reader.next = some (item, after)) :
    reader.items = item :: after.items := by
  rw [items]
  split
  · simp_all
  · simp_all

/-- All items: there is one piece for each of them, in order. -/
theorem items_accounts (reader : Reader) :
    ∃ pieces : List (List Char),
      pieces.flatten = reader.rest ∧ [] ∉ pieces ∧
      pieces.length = reader.items.length ∧
      ∀ index item piece,
        reader.items[index]? = some item → pieces[index]? = some piece →
          item.Accounts piece ∨
            index + 1 = reader.items.length ∧ item.AccountsAtEnd piece := by
  induction hlength : reader.rest.length using Nat.strongRecOn
    generalizing reader with
  | ind n ih =>
      cases hnext : reader.next with
      | none =>
          have hrest : reader.rest = [] := by
            unfold next at hnext
            cases h : reader.rest with
            | nil => rfl
            | cons c rest => simp [h] at hnext
          exact ⟨[], by simp [hrest], by simp, by simp [items_eq_nil hrest],
            by simp⟩
      | some step =>
          obtain ⟨item, after⟩ := step
          have hitems := items_eq_cons hnext
          obtain ⟨piece, hne, hpiece, haccounts⟩ := next_accounts hnext
          obtain ⟨pieces, hflat, hnonempty, hcount, hall⟩ :=
            ih after.rest.length (hlength ▸ next_rest_length_lt hnext)
              after rfl
          refine ⟨piece :: pieces, ?_, ?_, ?_, ?_⟩
          · simp [hflat, hpiece]
          · simpa [hnonempty] using hne.symm
          · simp [hitems, hcount]
          · intro index other otherPiece hitem hother
            rw [hitems] at hitem ⊢
            cases index with
            | zero =>
                simp only [List.getElem?_cons_zero, Option.some.injEq]
                  at hitem hother
                subst hitem hother
                rcases haccounts with haccounts | ⟨hend, haccounts⟩
                · exact Or.inl haccounts
                · right
                  exact ⟨by simp [items_eq_nil hend], haccounts⟩
            | succ index =>
                simp only [List.getElem?_cons_succ] at hitem hother
                rcases hall index other otherPiece hitem hother with
                  haccounts | ⟨hlast, haccounts⟩
                · exact Or.inl haccounts
                · right
                  exact ⟨by simp [hlast], haccounts⟩

/-- Scanning loses and invents nothing, also behind unreadable runs: the text
is the concatenation of one non-empty piece per item. -/
theorem ofChars_items_flatten (chars : List Char) :
    ∃ pieces : List (List Char),
      pieces.flatten = chars ∧ [] ∉ pieces ∧
      pieces.length = (ofChars chars).items.length ∧
      ∀ index item piece,
        (ofChars chars).items[index]? = some item →
        pieces[index]? = some piece →
          item.Accounts piece ∨
            index + 1 = (ofChars chars).items.length ∧
              item.AccountsAtEnd piece :=
  items_accounts (ofChars chars)

end Reader

theorem tokensOf_eq_ok
    {items : List Item} {tokens : List Token}
    (h : tokensOf items = .ok tokens) : items = tokens.map .ok := by
  induction items generalizing tokens with
  | nil =>
      simp only [tokensOf, Except.ok.injEq] at h
      simp [← h]
  | cons item rest ih =>
      cases item with
      | error error => simp [tokensOf] at h
      | ok token =>
          cases hrest : tokensOf rest with
          | error error => simp [tokensOf, hrest] at h
          | ok more =>
              simp only [tokensOf, hrest, Except.ok.injEq] at h
              simp [← h, ih hrest]

/-- The category of a token that is no trivia is that of its text. -/
theorem Reader.classify_of_mem_items
    {reader : Reader} {token : Token} (hmem : .ok token ∈ reader.items)
    (htrivia : token.isTrivia = false) :
    Lexeme.classify token.text.toList = some token.kind := by
  obtain ⟨pieces, -, -, hcount, hall⟩ := items_accounts reader
  obtain ⟨index, hindex, hget⟩ := List.mem_iff_getElem.mp hmem
  have hitem : reader.items[index]? = some (.ok token) := by
    simp [hindex, hget]
  have hpiece : pieces[index]? =
      some (pieces.get ⟨index, by simpa [hcount] using hindex⟩) := by
    simp
  rcases hall index _ _ hitem hpiece with
    ⟨htext, hkind⟩ | ⟨-, -, hcomment, -⟩
  · rw [htext]
    exact hkind
  · simp [Token.isTrivia, hcomment, Token.Kind.isTrivia] at htrivia

theorem classify_of_mem_tokenize
    {source : String} {tokens : List Token} {token : Token}
    (h : tokenize source = .ok tokens) (hmem : token ∈ tokens)
    (htrivia : token.isTrivia = false) :
    Lexeme.classify token.text.toList = some token.kind := by
  have hitems : (Reader.ofChars source.toList).items = tokens.map .ok :=
    tokensOf_eq_ok h
  have hitem : .ok token ∈ (Reader.ofChars source.toList).items := by
    rw [hitems]
    exact List.mem_map_of_mem hmem
  exact Reader.classify_of_mem_items hitem htrivia

end SelectChain

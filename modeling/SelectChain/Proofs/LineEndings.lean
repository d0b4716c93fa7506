import SelectChain.Proofs.ScanMoves
import SelectChain.Proofs.StreamedLowering
import Mathlib.Tactic

/-!
# Line endings

A carriage return in front of a line break changes nothing that the grammar sees.
It joins a comment, an unreadable run or a run of blanks, and ends everything else
where the line break would have ended it.  `grow_padded` says so of one item, and
`grammarItems_padded` of all of them.  Only the tokens that are trivia differ, and
on line breaks by themselves the two scans are one token out of step.
-/

namespace SelectChain

/-- Two texts, the second with a carriage return in front of some of the line
breaks. -/
inductive Padded : List Char → List Char → Prop
  | nil : Padded [] []
  | keep {chars chars' : List Char} (c : Char) (h : Padded chars chars') :
      Padded (c :: chars) (c :: chars')
  | pad {chars chars' : List Char} (h : Padded chars chars') :
      Padded ('\n' :: chars) ('\r' :: '\n' :: chars')

/-- A text with a carriage return in front of each line break. -/
def withReturns (source : String) : String :=
  String.ofList (source.toList.flatMap fun c =>
    if c = '\n' then ['\r', '\n'] else [c])

theorem padded_withReturns (source : String) :
    Padded source.toList (withReturns source).toList := by
  rw [withReturns, String.toList_ofList]
  induction source.toList with
  | nil => exact .nil
  | cons c chars ih =>
      rw [List.flatMap_cons]
      split
      next hbreak =>
        subst hbreak
        exact .pad ih
      next => exact .keep c ih

namespace Lexeme

theorem isComment_or_isSpace
    {run : List Char} {kind : Token.Kind} (h : classify run = some kind)
    (htrivia : kind.isTrivia = true) :
    isComment run = true ∨ isSpace run = true := by
  unfold classify at h
  split_ifs at h <;> cases h <;> simp_all [Token.Kind.isTrivia]

theorem classify_of_isSpace
    {run : List Char} (hspace : isSpace run = true) :
    ∃ kind, classify run = some kind ∧ kind.isTrivia = true := by
  obtain ⟨kind, hkind⟩ : ∃ kind, classify run = some kind := by
    unfold classify
    split_ifs <;> exact ⟨_, rfl⟩
  refine ⟨kind, hkind, ?_⟩
  by_contra hne
  have hhead := isSpaceChar_head_of_classify hkind (by simpa using hne)
  cases run with
  | nil => cases hspace
  | cons c rest =>
      simp only [isSpace, List.all_cons, Bool.and_eq_true] at hspace
      rw [hhead c rfl] at hspace
      cases hspace.2.1

theorem not_opensComment_of_isSpace
    {run : List Char} (hspace : isSpace run = true) :
    opensComment run = false := by
  unfold opensComment
  split
  · cases hspace
  · cases hspace
  · rfl

section Returns

variable {run : List Char} (hrun : run ≠ [])

include hrun

/-- Whether a run opens a comment is known from its first two characters. -/
theorem opensComment_append_of_ne
    {more : List Char} (hmore : more.head? ≠ some '/') :
    opensComment (run ++ more) = opensComment run := by
  match run with
  | [first] =>
      unfold opensComment
      split <;> simp_all
  | first :: second :: middle =>
      unfold opensComment
      split <;> simp_all

theorem opensComment_append_return :
    opensComment (run ++ ['\r']) = opensComment run :=
  opensComment_append_of_ne hrun (by simp)

/-- A carriage return has a category only behind blanks. -/
theorem isSpace_of_classify_return {kind : Token.Kind}
    (h : classify (run ++ ['\r']) = some kind) : isSpace run = true := by
  have htrivia := isTrivia_of_classify_blank (by decide) h
  rcases isComment_or_isSpace h htrivia with hcomment | hspace
  · simp [isComment] at hcomment
  · simp only [isSpace, List.all_append, Bool.and_eq_true] at hspace
    simpa [isSpace, hrun] using hspace.2.1

/-- In front of a line break, a carriage return does not change whether a run has
a category. -/
theorem classify_break_return :
    (classify (run ++ ['\r'] ++ ['\n'])).isSome =
      (classify (run ++ ['\n'])).isSome := by
  have hcases : ∀ run : List Char, (classify (run ++ ['\n'])).isSome = true ↔
      isComment (run ++ ['\n']) = true ∨ isSpace (run ++ ['\n']) = true := by
    intro run
    constructor
    · intro hsome
      obtain ⟨kind, hkind⟩ := Option.isSome_iff_exists.mp hsome
      exact isComment_or_isSpace hkind
        (isTrivia_of_classify_blank (by decide) hkind)
    · rintro (hcomment | hspace)
      · simp [classify, hcomment]
      · obtain ⟨kind, hkind, -⟩ := classify_of_isSpace hspace
        rw [hkind]
        rfl
  have hopens : opensComment (run ++ ['\r', '\n']) =
      opensComment (run ++ ['\n']) := by
    rw [opensComment_append_of_ne hrun (by simp),
      opensComment_append_of_ne hrun (by simp)]
  rw [Bool.eq_iff_iff, hcases, hcases]
  simp [isComment, isSpace, isSpaceChar, hopens]

end Returns

end Lexeme

namespace Reader

open Lexeme

theorem grammarItems_emit_trivia
    (start : Nat) (run : List Char) {kind : Token.Kind}
    (h : kind.isTrivia = true) : grammarItems [emit start run kind] = [] := by
  have htrivia : (Token.mk (String.ofList run) kind start).isTrivia = true := h
  exact grammarItems_trivia htrivia []

section Breaks

variable {run : List Char} {found : Option (Nat × Token.Kind)}

theorem move_break_eq_close
    (h : found = none ∨ opensComment run = true) :
    move run found '\n' = .close := by
  rcases h with rfl | hopens
  · rfl
  · cases found <;> simp [move, hopens]

/-- Where a line break closes a run, a carriage return joins it. -/
theorem move_return_eq_join
    (hrun : run ≠ []) (hnone : found = none → classify run = none)
    (h : found = none ∨ opensComment run = true) :
    move run found '\r' = .join found := by
  have hkind : classify (run ++ ['\r']) = none := by
    cases hreturn : classify (run ++ ['\r']) with
    | none => rfl
    | some kind =>
        have hspace := isSpace_of_classify_return hrun hreturn
        rcases h with hfound | hopens
        · obtain ⟨_, hsome, -⟩ := classify_of_isSpace hspace
          rw [hnone hfound] at hsome
          cases hsome
        · rw [not_opensComment_of_isSpace hspace] at hopens
          cases hopens
  rcases h with rfl | hopens
  · simp [move, hkind]
  · cases found <;>
      simp [move, hkind, opensComment_append_return hrun, hopens]

end Breaks

/-- A carriage return at the end of an unreadable line is lost with the line
break. -/
theorem grammarItems_closeAtBreak_return
    (start : Nat) {run : List Char} (hrun : run ≠ []) :
    grammarItems [closeAtBreak start (run ++ ['\r'])] =
      grammarItems [closeAtBreak start run] := by
  have hsome := classify_break_return hrun
  unfold closeAtBreak
  cases hkind : classify (run ++ ['\n']) with
  | some kind =>
      rw [hkind] at hsome
      obtain ⟨kind', hkind'⟩ := Option.isSome_iff_exists.mp hsome
      rw [hkind']
      simp only
      rw [grammarItems_emit_trivia _ _ (isTrivia_of_classify_blank (by decide) hkind),
        grammarItems_emit_trivia _ _ (isTrivia_of_classify_blank (by decide) hkind')]
  | none =>
      rw [hkind] at hsome
      have hnone : classify (run ++ ['\r'] ++ ['\n']) = none := by
        simpa using hsome
      have htrim : Text.trimEnd (run ++ ['\r'] ++ ['\n']) =
          Text.trimEnd (run ++ ['\n']) := by
        rw [Text.trimEnd_append_blank _ (by decide),
          Text.trimEnd_append_blank _ (by decide),
          Text.trimEnd_append_blank _ (by decide)]
      rw [hnone, htrim]

/-- Two items that are the same to the grammar, and two readers on the same line
with such texts in front of them. -/
inductive PaddedStep : Item × Reader → Item × Reader → Prop
  | mk {item item' : Item} {line : Nat} {rest rest' : List Char}
      (hitem : grammarItems [item'] = grammarItems [item])
      (hrest : Padded rest rest') :
      PaddedStep (item, ⟨line, rest⟩) (item', ⟨line, rest'⟩)

section Steps

variable (start line : Nat) {run chars chars' : List Char}

/-- A comment or an unreadable run takes in the carriage return and ends with the
line. -/
theorem paddedStep_of_close
    {found : Option (Nat × Token.Kind)} (h : Padded chars chars')
    (hrun : run ≠ []) (hnone : found = none → classify run = none)
    (hclose : found = none ∨ opensComment run = true) :
    PaddedStep (grow start run found line ('\n' :: chars))
      (grow start run found line ('\r' :: '\n' :: chars')) := by
  have hclose' : found = none ∨ opensComment (run ++ ['\r']) = true := by
    rwa [opensComment_append_return hrun]
  have hbreak : grow start run found line ('\n' :: chars) =
      (closeAtBreak start run, past line '\n' chars) := by
    rw [grow_cons, move_break_eq_close hclose]
  have hreturn : grow start run found line ('\r' :: '\n' :: chars') =
      (closeAtBreak start (run ++ ['\r']), past line '\n' chars') := by
    rw [grow_cons, move_return_eq_join hrun hnone hclose]
    simp only
    rw [grow_cons, move_break_eq_close hclose']
  rw [hbreak, hreturn]
  exact .mk (grammarItems_closeAtBreak_return start hrun) h

/-- A token ends in front of the carriage return, unless it is a run of blanks and
takes it in. -/
theorem paddedStep_of_cut
    {length : Nat} {kind : Token.Kind} (h : Padded chars chars')
    (hrun : run ≠ []) (htracked : Tracked run (some (length, kind)))
    (hopens : opensComment run = false) :
    PaddedStep (grow start run (some (length, kind)) line ('\n' :: chars))
      (grow start run (some (length, kind)) line
        ('\r' :: '\n' :: chars')) := by
  have hopens' : opensComment (run ++ ['\r']) = false := by
    rwa [opensComment_append_return hrun]
  have hbreak : grow start run (some (length, kind)) line ('\n' :: chars) =
      (emit start (run.take length) kind, ⟨line, '\n' :: chars⟩) := by
    rw [grow_cons, move_of_stops hopens (by simp)]
  rw [hbreak]
  cases hkind' : classify (run ++ ['\r']) with
  | none =>
      rw [grow_cons, move_of_stops hopens fun _ => ⟨hkind', hopens'⟩]
      exact .mk rfl (.pad h)
  | some kind' =>
      have hmove : move run (some (length, kind)) '\r' =
          .join (some (run.length + 1, kind')) := by
        simp [move, hkind']
      have hreturn : grow start run (some (length, kind)) line
          ('\r' :: '\n' :: chars') =
            (emit start ((run ++ ['\r']).take (run.length + 1)) kind',
              ⟨line, '\n' :: chars'⟩) := by
        rw [grow_cons, hmove]
        simp only
        rw [grow_cons, move_of_stops hopens' (by simp)]
      -- Both tokens are blanks, though the second is longer.
      have htrivia : kind.isTrivia = true := by
        obtain ⟨other, hother, htrivia⟩ := classify_of_isSpace
          (isSpace_of_classify_return hrun hkind')
        rcases htracked length kind rfl with hcomment | ⟨-, hkind⟩
        · rw [hopens] at hcomment
          cases hcomment
        · rw [hother] at hkind
          cases hkind
          exact htrivia
      have hitem : grammarItems
          [emit start ((run ++ ['\r']).take (run.length + 1)) kind'] =
            grammarItems [emit start (run.take length) kind] := by
        rw [grammarItems_emit_trivia _ _ htrivia,
          grammarItems_emit_trivia _ _
            (isTrivia_of_classify_blank (by decide) hkind')]
      rw [hreturn]
      exact .mk hitem (.keep '\n' h)

/-- One item of two such texts.  An empty run has to start on the same character
in both. -/
theorem grow_padded
    {found : Option (Nat × Token.Kind)} (h : Padded chars chars')
    (hstart : run ≠ [] ∨ chars.head? = chars'.head?)
    (htracked : Tracked run found)
    (hnone : found = none → classify run = none) :
    PaddedStep (grow start run found line chars)
      (grow start run found line chars') := by
  induction h generalizing run found with
  | nil => exact .mk rfl .nil
  | keep c h ih =>
      rw [grow_cons, grow_cons]
      cases hmove : move run found c with
      | close => exact .mk rfl h
      | cut length kind => exact .mk rfl (.keep c h)
      | join found' =>
          apply ih (.inl (by simp))
          · rcases move_eq_join hmove with
              ⟨kind, hkind, rfl⟩ | ⟨-, rfl, rfl | hopens⟩
            · exact tracked_classified hkind
            · exact tracked_none _
            · exact tracked_comment hopens _
          · intro hfound
            rcases move_eq_join hmove with ⟨kind, -, rfl⟩ | ⟨hkind, -⟩
            · cases hfound
            · exact hkind
  | @pad chars chars' h _ =>
      have hrun : run ≠ [] := hstart.resolve_right (by simp)
      by_cases hclose : found = none ∨ opensComment run = true
      · exact paddedStep_of_close start line h hrun hnone hclose
      · rw [not_or, Bool.not_eq_true] at hclose
        obtain ⟨hfound, hopens⟩ := hclose
        obtain ⟨⟨length, kind⟩, rfl⟩ := Option.ne_none_iff_exists'.mp hfound
        exact paddedStep_of_cut start line h hrun htracked hopens

end Steps

theorem grammarItems_break (line : Nat) (rest : List Char) :
    grammarItems (⟨line, '\n' :: rest⟩ : Reader).items =
      grammarItems (⟨line + 1, rest⟩ : Reader).items := by
  have hitems : (⟨line, '\n' :: rest⟩ : Reader).items =
      closeAtBreak line [] :: (⟨line + 1, rest⟩ : Reader).items :=
    items_eq_cons rfl
  have hclose : closeAtBreak line [] = emit line ['\n'] .space := by
    have hkind : classify ['\n'] = some .space := by decide
    simp [closeAtBreak, hkind]
  rw [hitems, hclose]
  exact grammarItems_trivia rfl _

/-- Between two tokens, a carriage return in front of a line break is one more
token for itself. -/
theorem grammarItems_return (line : Nat) (rest : List Char) :
    grammarItems (⟨line, '\r' :: '\n' :: rest⟩ : Reader).items =
      grammarItems (⟨line, '\n' :: rest⟩ : Reader).items := by
  have hkind : classify ['\r'] = some .space := by decide
  have hmove : move [] none '\r' = .join (some (1, .space)) := by
    simp [move, hkind]
  have hgrow : grow line [] none line ('\r' :: '\n' :: rest) =
      (emit line ['\r'] .space, ⟨line, '\n' :: rest⟩) := by
    rw [grow_cons, hmove]
    simp only [List.nil_append]
    rw [grow_cons, move_of_stops rfl (by simp)]
    rfl
  have hnext : (⟨line, '\r' :: '\n' :: rest⟩ : Reader).next =
      some (emit line ['\r'] .space, ⟨line, '\n' :: rest⟩) :=
    congrArg some hgrow
  rw [items_eq_cons hnext]
  exact grammarItems_trivia rfl _

theorem grammarItems_padded
    (line : Nat) {chars chars' : List Char} (h : Padded chars chars') :
    grammarItems (⟨line, chars'⟩ : Reader).items =
      grammarItems (⟨line, chars⟩ : Reader).items := by
  induction hlength : chars.length using Nat.strongRecOn
    generalizing line chars chars' with
  | ind n ih =>
      cases h with
      | nil => rfl
      | @keep chars chars' c h =>
          have hitems : ∀ rest item after,
              grow line [] none line (c :: rest) = (item, after) →
              (⟨line, c :: rest⟩ : Reader).items = [item] ++ after.items :=
            fun _ _ _ hgrow => items_eq_cons (congrArg some hgrow)
          -- The induction goes on behind the item, so it is on the length.
          have hshorter := grow_fresh_rest_length_lt line c chars
          have hstep := grow_padded line line (.keep c h) (.inr rfl)
            (tracked_none []) fun _ => classify_nil
          generalize hgrow : grow line [] none line (c :: chars) = step
            at hstep hshorter
          generalize hgrow' : grow line [] none line (c :: chars') = step'
            at hstep
          cases hstep with
          | mk hitem hrest =>
              rw [hitems _ _ _ hgrow, hitems _ _ _ hgrow', grammarItems_append,
                grammarItems_append, hitem,
                ih _ (hlength ▸ hshorter) _ hrest rfl]
      | @pad chars chars' h =>
          have hshorter : chars.length < n := by simp [← hlength]
          rw [grammarItems_return, grammarItems_break, grammarItems_break]
          exact ih _ hshorter _ h rfl

end Reader

/-! ## What the grammar does not see -/

/-- Both runs see the same tokens on the same lines, and no unreadable run. -/
def Pairing.identical : Pairing where
  SameLine := Eq
  sameLine_refl _ := rfl
  Stops _ := False
  Beyond _ := True
  beyond_advance _ _ := trivial
  beyond_log _ _ _ := trivial

theorem outcome_ofTokens_congr
    {tokens tokens' : List Token}
    (h : grammarTokens tokens = grammarTokens tokens') :
    (Lowering.ofTokens tokens).outcome = (Lowering.ofTokens tokens').outcome := by
  have hdone : Pairing.identical.Follows 0 [] [] := .done
  have hfollows := hdone.prepend (grammarTokens tokens)
  nth_rewrite 3 [h] at hfollows
  rw [List.append_nil, List.append_nil, ← grammarItems_map_ok,
    ← grammarItems_map_ok] at hfollows
  rcases hfollows.outcome with ⟨chain, hleft, hright⟩ |
    ⟨fault, fault', hfault, hleft, hright⟩ | ⟨error, hstops, -⟩
  · exact hleft.trans hright.symm
  · obtain rfl := hfault.eq_of_sameLine fun _ _ => id
    exact hleft.trans hright.symm
  · exact hstops.elim

theorem tokensOf_grammarItems (items : List Item) :
    tokensOf (grammarItems items) = (tokensOf items).map grammarTokens := by
  induction items with
  | nil => rfl
  | cons item items ih =>
      cases item with
      | error error => rfl
      | ok token =>
          cases htrivia : token.isTrivia with
          | true =>
              rw [grammarItems_trivia htrivia, ih, tokensOf]
              cases tokensOf items with
              | error error => rfl
              | ok tokens => simp [Except.map, grammarTokens, htrivia]
          | false =>
              rw [grammarItems_token htrivia, tokensOf, ih, tokensOf]
              cases tokensOf items with
              | error error => rfl
              | ok tokens => simp [Except.map, grammarTokens, htrivia]

/-- Lowering depends on what the grammar sees. -/
theorem lower_congr
    {source source' : String}
    (h : grammarItems (scan source) = grammarItems (scan source')) :
    lower source = lower source' := by
  have htokens : (tokenize source).map grammarTokens =
      (tokenize source').map grammarTokens := by
    rw [tokenize, tokenize, ← tokensOf_grammarItems, ← tokensOf_grammarItems, h]
  cases hsource : tokenize source with
  | ok tokens =>
      cases hsource' : tokenize source' with
      | ok tokens' =>
          rw [hsource, hsource'] at htokens
          rw [lower_eq_ofTokens hsource, lower_eq_ofTokens hsource']
          exact outcome_ofTokens_congr (Except.ok.inj htokens)
      | error error =>
          rw [hsource, hsource'] at htokens
          cases htokens
  | error error =>
      cases hsource' : tokenize source' with
      | ok tokens' =>
          rw [hsource, hsource'] at htokens
          cases htokens
      | error error' =>
          rw [hsource, hsource'] at htokens
          cases htokens
          rw [lower_of_unreadable hsource, lower_of_unreadable hsource']

/-- Line endings are of no account: with a carriage return in front of each line
break a text is lowered to the same text and scopes, or refused for the same
fault on the same line. -/
theorem lowering_unchanged_by_returns (source : String) (target : Target) :
    (Lowering.ofSource (withReturns source)).written target =
      (Lowering.ofSource source).written target := by
  have hitems : grammarItems (scan (withReturns source)) =
      grammarItems (scan source) := by
    rw [scan, scan]
    exact Reader.grammarItems_padded 1 (padded_withReturns source)
  have houtcome : (Lowering.ofSource (withReturns source)).outcome =
      (Lowering.ofSource source).outcome := lower_congr hitems
  rw [Lowering.written, Lowering.written, houtcome]

end SelectChain

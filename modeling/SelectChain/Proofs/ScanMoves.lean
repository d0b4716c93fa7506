import SelectChain.Proofs.Respelling
import Mathlib.Tactic

/-!
# Scanning by single characters

Each character of a text does one of three things to the run in front of it: it
joins the run, it is given back and so ends the run, or it is a line break that
closes the run and belongs to it.  `Reader.move` says which, and `grow_cons` that
scanning does nothing else.  From this follows that scanning looks only one
character beyond a token: `grow_alike` says that an item does not depend on what
follows it, as long as the next character stays what it is or is the first one of
a name before and after.
-/

namespace SelectChain

namespace Lexeme

theorem isDigit_of_isNameStart {c : Char} (h : isNameStart c = true) :
    c.isDigit = false := by
  have halpha : c.isAlpha = (decide ('A'.val ≤ c.val ∧ c.val ≤ 'Z'.val) ||
      decide ('a'.val ≤ c.val) && decide (c.val ≤ 'z'.val)) := rfl
  simp only [isNameStart, halpha, Bool.or_eq_true, Bool.and_eq_true,
    decide_eq_true_eq, beq_iff_eq, UInt32.le_iff_toNat_le] at h
  simp only [Char.isDigit, Bool.and_eq_false_iff, decide_eq_false_iff_not,
    ge_iff_le, UInt32.le_iff_toNat_le]
  rcases h with (h | h) | rfl
  · simp at h ⊢
    omega
  · simp at h ⊢
    omega
  · decide

theorem isNamePart_of_isNameStart {c : Char} (h : isNameStart c = true) :
    isNamePart c = true := by
  simp [isNamePart, h]

theorem isIdentifier_of_mem_reservedWords
    {word : List Char} (h : word ∈ reservedWords) : isIdentifier word = true := by
  have htable : reservedWords.all isIdentifier = true := rfl
  exact List.all_eq_true.mp htable word h

/-- A run that a first character of a name ends is ended by all of them. -/
theorem classify_append_nameStart
    {run : List Char} (hrun : run ≠ []) {c d : Char}
    (hc : isNameStart c = true) (hd : isNameStart d = true)
    (h : classify (run ++ [c]) = none) : classify (run ++ [d]) = none := by
  have hpart := isNamePart_of_isNameStart hd
  -- With `d` the run would be a name, and so it would be with `c`.
  have hidentifier : isIdentifier (run ++ [d]) = false := by
    by_contra hne
    have hwith : isIdentifier (run ++ [c]) = true := by
      cases run with
      | nil => exact absurd rfl hrun
      | cons first middle =>
          have hall : isIdentifier (first :: (middle ++ [d])) = true := by
            simpa using hne
          simp only [isIdentifier, List.all_append, Bool.and_eq_true] at hall
          simp [isIdentifier, hall.1, hall.2.1, isNamePart_of_isNameStart hc]
    have hsome := classify_isSome_of_isIdentifier hwith
    rw [h] at hsome
    cases hsome
  have hcomment : isComment (run ++ [d]) = false := by
    have hbreak : d ≠ '\n' := ne_of_isNamePart hpart (by decide)
    simp [isComment, hbreak]
  have hreserved : isReserved (run ++ [d]) = false := by
    rw [isReserved, List.contains_eq_mem, decide_eq_false_iff_not]
    intro hword
    rw [isIdentifier_of_mem_reservedWords hword] at hidentifier
    cases hidentifier
  have hnumber : isNumber (run ++ [d]) = false := by
    simp [isNumber, isDigit_of_isNameStart hd]
  have hquoted : isQuoted (run ++ [d]) = false := by
    have hquote : d ≠ '\x22' := ne_of_isNamePart hpart (by decide)
    cases run with
    | nil => exact absurd rfl hrun
    | cons first middle => simp [isQuoted, hquote]
  have hsymbol : isSymbol (run ++ [d]) = false := by
    rw [isSymbol, List.contains_eq_mem, decide_eq_false_iff_not]
    intro hmark
    have htable : symbols.all (fun symbol =>
        !symbol.getLast?.any isNamePart) = true := rfl
    have hlast := List.all_eq_true.mp htable _ hmark
    simp [hpart] at hlast
  have hspace : isSpace (run ++ [d]) = false := by
    have hblank : isSpaceChar d = false := by
      simp only [isSpaceChar, Bool.or_eq_false_iff, beq_eq_false_iff_ne]
      refine ⟨⟨⟨⟨?_, ?_⟩, ?_⟩, ?_⟩, ?_⟩ <;>
        exact ne_of_isNamePart hpart (by decide)
    simp [isSpace, hblank]
  simp [classify, hcomment, hreserved, hidentifier, hnumber, hquoted, hsymbol,
    hspace]

theorem opensComment_append_of_isNamePart
    {run : List Char} {c d : Char} (hd : isNamePart d = true)
    (h : opensComment (run ++ [c]) = false) :
    opensComment (run ++ [d]) = false := by
  have hrun := opensComment_of_append h
  match run with
  | [] => exact opensComment_of_isNamePart [] hd
  | [first] =>
      have hslash : d ≠ '/' := ne_of_isNamePart hd (by decide)
      unfold opensComment at hrun ⊢
      split <;> simp_all
  | first :: second :: more =>
      unfold opensComment at hrun ⊢
      split <;> simp_all

end Lexeme

namespace Reader

open Lexeme

/-- What the next character does to a run. -/
inductive Move where
  /-- It is a line break and the last character of the item. -/
  | close
  /-- It is given back, and the run is cut to a beginning with a category. -/
  | cut (length : Nat) (kind : Token.Kind)
  /-- It joins the run. -/
  | join (found : Option (Nat × Token.Kind))

def move (run : List Char) (found : Option (Nat × Token.Kind)) (c : Char) :
    Move :=
  if c = '\n' then
    match found with
    | none => .close
    | some (length, kind) =>
        if opensComment run then .close else .cut length kind
  else
    match classify (run ++ [c]) with
    | some kind => .join (some (run.length + 1, kind))
    | none =>
        match found with
        | none => .join none
        | some (length, kind) =>
            if opensComment (run ++ [c]) then .join (some (length, kind))
            else .cut length kind

section Moves

variable (start line : Nat) {run : List Char}
  {found : Option (Nat × Token.Kind)} {c : Char}

/-- A line break that closes a run, and a character that ends it, leave the rest
of the text alone. -/
theorem grow_cons (rest : List Char) :
    grow start run found line (c :: rest) =
      match move run found c with
      | .close => (closeAtBreak start run, past line c rest)
      | .cut length kind =>
          (emit start (run.take length) kind, ⟨line, c :: rest⟩)
      | .join found => grow start (run ++ [c]) found line rest := by
  rw [grow.eq_def]
  unfold move
  simp only [giveBack_past]
  by_cases hbreak : c = '\n'
  · simp only [hbreak, if_true]
    cases found with
    | none => rfl
    | some pair => cases opensComment run <;> rfl
  · simp only [hbreak, if_false]
    cases classify (run ++ [c]) with
    | some kind => rfl
    | none =>
        cases found with
        | none => rfl
        | some pair => cases opensComment (run ++ [c]) <;> rfl

theorem move_eq_cut {length : Nat} {kind : Token.Kind}
    (h : move run found c = .cut length kind) :
    found = some (length, kind) ∧ opensComment run = false ∧
      (c ≠ '\n' → classify (run ++ [c]) = none ∧
        opensComment (run ++ [c]) = false) := by
  unfold move at h
  split at h
  next hbreak =>
    split at h
    next => cases h
    next =>
      split at h
      next => cases h
      next hopens =>
        cases h
        exact ⟨rfl, by simpa using hopens, fun hne => absurd hbreak hne⟩
  next =>
    split at h
    next => cases h
    next hkind =>
      split at h
      next => cases h
      next =>
        split at h
        next => cases h
        next hopens =>
          cases h
          have hopens : opensComment (run ++ [c]) = false := by
            simpa using hopens
          exact ⟨rfl, opensComment_of_append hopens, fun _ => ⟨hkind, hopens⟩⟩

theorem move_eq_join {found' : Option (Nat × Token.Kind)}
    (h : move run found c = .join found') :
    (∃ kind, classify (run ++ [c]) = some kind ∧
        found' = some (run.length + 1, kind)) ∨
      classify (run ++ [c]) = none ∧ found' = found ∧
        (found = none ∨ opensComment (run ++ [c]) = true) := by
  unfold move at h
  split at h
  next =>
    split at h
    next => cases h
    next => split at h <;> cases h
  next =>
    split at h
    next kind hkind =>
      cases h
      exact .inl ⟨kind, hkind, rfl⟩
    next hkind =>
      split at h
      next =>
        cases h
        exact .inr ⟨hkind, rfl, .inl rfl⟩
      next =>
        split at h
        next hopens =>
          cases h
          exact .inr ⟨hkind, rfl, .inr hopens⟩
        next => cases h

/-- Only a line break closes a run. -/
theorem move_close_eq_break (h : move run found c = .close) : c = '\n' := by
  by_contra hbreak
  unfold move at h
  rw [if_neg hbreak] at h
  split at h
  next => cases h
  next =>
    split at h
    next => cases h
    next => split at h <;> cases h

theorem move_join_ne_break {found' : Option (Nat × Token.Kind)}
    (h : move run found c = .join found') : c ≠ '\n' := by
  intro hbreak
  unfold move at h
  rw [if_pos hbreak] at h
  split at h
  next => cases h
  next => split at h <;> cases h

theorem move_of_stops {length : Nat} {kind : Token.Kind}
    (hopens : opensComment run = false)
    (h : c ≠ '\n' → classify (run ++ [c]) = none ∧
      opensComment (run ++ [c]) = false) :
    move run (some (length, kind)) c = .cut length kind := by
  unfold move
  by_cases hbreak : c = '\n'
  · simp [hbreak, hopens]
  · obtain ⟨hkind, hcomment⟩ := h hbreak
    simp [hbreak, hkind, hcomment]

end Moves

/-! ## What follows a token -/

/-- What a run sees of the text behind it is the same, or the first character
of a name. -/
def StartsAlike (rest rest' : List Char) : Prop :=
  rest.head? = rest'.head? ∨
    ∃ c more c' more', rest = c :: more ∧ rest' = c' :: more' ∧
      isNameStart c = true ∧ isNameStart c' = true

theorem StartsAlike.eq_nil
    {rest' : List Char} (h : StartsAlike [] rest') : rest' = [] := by
  rcases h with hsame | ⟨c, more, c', more', hnil, -⟩
  · simpa using hsame.symm
  · cases hnil

theorem StartsAlike.exists_cons
    {c : Char} {more rest' : List Char} (h : StartsAlike (c :: more) rest') :
    ∃ c' more', rest' = c' :: more' := by
  rcases h with hsame | ⟨_, _, c', more', -, hcons, -⟩
  · cases rest' with
    | nil => cases hsame
    | cons c' more' => exact ⟨c', more', rfl⟩
  · exact ⟨c', more', hcons⟩

theorem StartsAlike.stops
    {run rest rest' : List Char} (halike : StartsAlike rest rest')
    (hrun : run ≠ []) (hstops : Stops run rest) : Stops run rest' := by
  rcases halike with hsame | ⟨c, more, c', more', rfl, rfl, hc, hc'⟩
  · unfold Stops
    rw [← hsame]
    exact hstops
  · intro d hd _
    obtain rfl : c' = d := by simpa using hd
    have hbreak : c ≠ '\n' :=
      ne_of_isNamePart (isNamePart_of_isNameStart hc) (by decide)
    obtain ⟨hkind, hopens⟩ := hstops c rfl hbreak
    exact ⟨classify_append_nameStart hrun hc hc' hkind,
      opensComment_append_of_isNamePart (isNamePart_of_isNameStart hc') hopens⟩

/-- Behind a name nothing changes that would belong to it. -/
theorem StartsAlike.not_isNamePart
    {rest rest' : List Char} (halike : StartsAlike rest rest')
    (h : ∀ c ∈ rest.head?, isNamePart c = false) :
    ∀ c ∈ rest'.head?, isNamePart c = false := by
  rcases halike with hsame | ⟨c, more, _, _, rfl, -, hc, -⟩
  · rwa [← hsame]
  · have hpart := h c rfl
    rw [isNamePart_of_isNameStart hc] at hpart
    cases hpart

/-- A run that leaves all of the text behind it was ended by it. -/
theorem exists_cut_of_grow
    {start line after : Nat} {run more : List Char}
    {found : Option (Nat × Token.Kind)} {item : Item} {c : Char}
    (h : grow start run found line (c :: more) = (item, ⟨after, c :: more⟩)) :
    ∃ length kind, move run found c = .cut length kind ∧
      item = emit start (run.take length) kind ∧ after = line := by
  rw [grow_cons] at h
  cases hmove : move run found c with
  | close =>
      rw [hmove] at h
      simp [past] at h
  | cut length kind =>
      rw [hmove] at h
      cases h
      exact ⟨length, kind, rfl, rfl, rfl⟩
  | join found' =>
      rw [hmove] at h
      have hle := grow_rest_length_le start (run ++ [c]) found' line more
      simp only at h
      rw [h] at hle
      simp at hle

/-- An item does not depend on what follows it, beyond the first character of
that. -/
theorem grow_alike
    {start line after : Nat} {run piece rest rest' : List Char}
    {found : Option (Nat × Token.Kind)} {item : Item}
    (halike : StartsAlike rest rest') (hrun : run ++ piece ≠ [])
    (h : grow start run found line (piece ++ rest) = (item, ⟨after, rest⟩)) :
    grow start run found line (piece ++ rest') =
      (item, ⟨after, rest'⟩) := by
  induction piece generalizing run found with
  | nil =>
      rw [List.append_nil] at hrun
      rw [List.nil_append] at h ⊢
      cases rest with
      | nil =>
          obtain rfl := halike.eq_nil
          exact h
      | cons c more =>
          obtain ⟨c', more', rfl⟩ := halike.exists_cons
          obtain ⟨length, kind, hmove, rfl, rfl⟩ := exists_cut_of_grow h
          obtain ⟨rfl, hopens, hends⟩ := move_eq_cut hmove
          have hstops : Stops run (c :: more) := by
            intro d hd
            cases hd
            exact hends
          rw [grow_cons,
            move_of_stops hopens (halike.stops hrun hstops c' rfl)]
  | cons c piece ih =>
      rw [List.cons_append, grow_cons] at h ⊢
      cases hmove : move run found c with
      | close =>
          rw [hmove] at h
          simp only [past, Prod.mk.injEq, Reader.mk.injEq] at h ⊢
          obtain ⟨hitem, hline, hpiece⟩ := h
          obtain rfl : piece = [] := by simpa using hpiece
          exact ⟨hitem, hline, rfl⟩
      | cut length kind =>
          rw [hmove] at h
          have hlength := congrArg (fun step => step.2.rest.length) h
          simp at hlength
          omega
      | join found' =>
          rw [hmove] at h
          exact ih (by simp) h

theorem next_alike
    {line after : Nat} {piece rest rest' : List Char} {item : Item}
    (halike : StartsAlike rest rest') (hpiece : piece ≠ [])
    (h : (⟨line, piece ++ rest⟩ : Reader).next = some (item, ⟨after, rest⟩)) :
    (⟨line, piece ++ rest'⟩ : Reader).next = some (item, ⟨after, rest'⟩) := by
  have hgrow := grow_alike halike (by simpa using hpiece) (grow_of_next h)
  cases piece with
  | nil => exact absurd rfl hpiece
  | cons c piece => exact congrArg some hgrow

end Reader

end SelectChain

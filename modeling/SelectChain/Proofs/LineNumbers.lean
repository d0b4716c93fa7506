import SelectChain.Proofs.ScanMoves
import Mathlib.Tactic

/-!
# Line numbers and line breaks

The line of a reader goes up when a line break is read and down when it is given
back.  `grow_line` says what comes of that in one item: the item is on the line
where its reading started, and the reader behind it is as many lines further as
there are line breaks in what was taken.  Carried through a run, this fixes the
lines of all items, and it keeps the count from ever falling below 1.

A line break also ends every item.  Whatever stands in front of it, the item read
there is the same for every text behind it, so the items of a text are those up
to a line break followed by those of the text behind it, further down.
-/

namespace SelectChain

def Item.line : Item → Nat
  | .ok token => token.line
  | .error error => error.line

/-- The same item that many lines further down. -/
def Item.shifted (lines : Nat) : Item → Item
  | .ok token => .ok { token with line := token.line + lines }
  | .error error => .error { error with line := error.line + lines }

namespace Reader

open Lexeme

theorem line_closeAtBreak (start : Nat) (run : List Char) :
    (closeAtBreak start run).line = start := by
  unfold closeAtBreak
  cases classify (run ++ ['\n']) <;> rfl

theorem line_closeAtEnd (start : Nat) (run : List Char)
    (found : Option (Nat × Token.Kind)) :
    (closeAtEnd start run found).line = start := by
  unfold closeAtEnd
  cases opensComment run with
  | true => rfl
  | false => cases found <;> rfl

/-! ## The count of lines -/

/-- One item, with the line breaks that it takes. -/
theorem grow_line
    (start line : Nat) (run : List Char) (found : Option (Nat × Token.Kind))
    (chars : List Char) :
    (grow start run found line chars).1.line = start ∧
      ∃ piece, chars = piece ++ (grow start run found line chars).2.rest ∧
        (grow start run found line chars).2.line =
          line + piece.count '\n' := by
  induction chars generalizing run found with
  | nil => exact ⟨line_closeAtEnd start run found, [], rfl, rfl⟩
  | cons c rest ih =>
      rw [grow_cons]
      cases hmove : move run found c with
      | close =>
          refine ⟨line_closeAtBreak start run, [c], rfl, ?_⟩
          simp [past, move_close_eq_break hmove]
      | cut length kind => exact ⟨rfl, [], rfl, rfl⟩
      | join found' =>
          obtain ⟨hitem, piece, hpiece, hline⟩ := ih (run ++ [c]) found'
          refine ⟨hitem, c :: piece, by rw [List.cons_append, ← hpiece], ?_⟩
          rw [List.count_cons_of_ne (move_join_ne_break hmove)]
          exact hline

theorem next_line
    {reader after : Reader} {item : Item} {piece : List Char}
    (h : reader.next = some (item, after))
    (hpiece : reader.rest = piece ++ after.rest) :
    item.line = reader.line ∧
      after.line = reader.line + piece.count '\n' := by
  obtain ⟨hitem, other, hother, hline⟩ :=
    grow_line reader.line reader.line [] none reader.rest
  rw [grow_of_next h] at hitem hother hline
  obtain rfl : piece = other := by
    rw [hpiece] at hother
    exact List.append_cancel_right hother
  exact ⟨hitem, hline⟩

/-- The reader behind the first `count` items, if there are so many. -/
def skip (reader : Reader) : Nat → Option Reader
  | 0 => some reader
  | count + 1 => reader.next.bind fun step => step.2.skip count

theorem items_getElem? (reader : Reader) (index : Nat) :
    reader.items[index]? =
      ((reader.skip index).bind next).map Prod.fst := by
  induction index generalizing reader with
  | zero =>
      cases hnext : reader.next with
      | none => rw [items]; split <;> simp_all [skip]
      | some step => simp [items_eq_cons hnext, skip, hnext]
  | succ index ih =>
      cases hnext : reader.next with
      | none => rw [items]; split <;> simp_all [skip]
      | some step => simp [items_eq_cons hnext, skip, hnext, ih]

/-- What a reader has left of a text, and the number of the line where that
begins. -/
def Placed (chars : List Char) (reader : Reader) : Prop :=
  ∃ before, chars = before ++ reader.rest ∧
    reader.line = 1 + before.count '\n'

theorem Placed.next
    {chars : List Char} {reader after : Reader} {item : Item}
    (h : Placed chars reader) (hnext : reader.next = some (item, after)) :
    Placed chars after := by
  obtain ⟨before, rfl, hline⟩ := h
  obtain ⟨piece, -, hpiece, -⟩ := next_accounts hnext
  refine ⟨before ++ piece, by rw [hpiece, List.append_assoc], ?_⟩
  rw [(next_line hnext hpiece).2, hline, List.count_append, Nat.add_assoc]

theorem Placed.skip
    {chars : List Char} {reader after : Reader} (h : Placed chars reader)
    {count : Nat} (hskip : reader.skip count = some after) :
    Placed chars after := by
  induction count generalizing reader with
  | zero =>
      cases hskip
      exact h
  | succ count ih =>
      obtain ⟨⟨item, middle⟩, hnext, hskip⟩ := Option.bind_eq_some_iff.mp hskip
      exact ih (h.next hnext) hskip

theorem placed_ofChars (chars : List Char) : Placed chars (ofChars chars) :=
  ⟨[], rfl, rfl⟩

/-! ## Giving back -/

/-- How the reading of an item ends: behind the last character that was read, or
by giving this character back to the reader behind it. -/
inductive Ending where
  | behind (reader : Reader)
  | givingBack (c : Char) (reader : Reader)

def Ending.reader : Ending → Reader
  | .behind reader => reader
  | .givingBack c reader => giveBack c reader

/-- The ending of a run that is read on. -/
def ending (run : List Char) (found : Option (Nat × Token.Kind)) (line : Nat) :
    List Char → Ending
  | [] => .behind ⟨line, []⟩
  | c :: rest =>
      match move run found c with
      | .close => .behind (past line c rest)
      | .cut _ _ => .givingBack c (past line c rest)
      | .join found => ending (run ++ [c]) found line rest

theorem grow_ending
    (start line : Nat) (run : List Char) (found : Option (Nat × Token.Kind))
    (chars : List Char) :
    (grow start run found line chars).2 =
      (ending run found line chars).reader := by
  induction chars generalizing run found with
  | nil => rfl
  | cons c rest ih =>
      rw [grow_cons, ending]
      cases move run found c with
      | close => rfl
      | cut length kind => exact (giveBack_past line c rest).symm
      | join found' => exact ih (run ++ [c]) found'

/-- A line break that is given back had been counted. -/
theorem line_lt_of_ending
    {run : List Char} {found : Option (Nat × Token.Kind)} {line : Nat}
    {chars : List Char} {reader : Reader}
    (h : ending run found line chars = .givingBack '\n' reader) :
    line < reader.line := by
  induction chars generalizing run found with
  | nil => cases h
  | cons c rest ih =>
      rw [ending] at h
      cases hmove : move run found c with
      | close =>
          rw [hmove] at h
          cases h
      | cut length kind =>
          rw [hmove] at h
          cases h
          simp [past]
      | join found' =>
          rw [hmove] at h
          exact ih h

/-- Line numbers are exact.  Every item carries the number of the line on which
its first character stands, and a line break is only given back to a reader that
is on the second line or further down. -/
theorem item_lines_exact (chars : List Char) :
    (∀ index item, (ofChars chars).items[index]? = some item →
      ∃ before piece reader after,
        (ofChars chars).skip index = some reader ∧
        reader.next = some (item, after) ∧
        chars = before ++ reader.rest ∧
        piece ≠ [] ∧ reader.rest = piece ++ after.rest ∧
        (item.Accounts piece ∨
          after.rest = [] ∧ item.AccountsAtEnd piece) ∧
        item.line = 1 + before.count '\n') ∧
    ∀ index reader item after, (ofChars chars).skip index = some reader →
      reader.next = some (item, after) →
      after = (ending [] none reader.line reader.rest).reader ∧
      ∀ given, ending [] none reader.line reader.rest =
        .givingBack '\n' given → 2 ≤ given.line := by
  constructor
  · intro index item hitem
    rw [items_getElem?] at hitem
    obtain ⟨⟨other, after⟩, hbind, hother⟩ := Option.map_eq_some_iff.mp hitem
    obtain ⟨reader, hskip, hnext⟩ := Option.bind_eq_some_iff.mp hbind
    obtain rfl : other = item := hother
    obtain ⟨before, hbefore, hline⟩ := (placed_ofChars chars).skip hskip
    obtain ⟨piece, hne, hpiece, haccounts⟩ := next_accounts hnext
    refine ⟨before, piece, reader, after, hskip, hnext, hbefore, hne, hpiece,
      haccounts, ?_⟩
    rw [(next_line hnext hpiece).1, hline]
  · intro index reader item after hskip hnext
    constructor
    · have hgrow := congrArg Prod.snd (grow_of_next hnext)
      exact hgrow.symm.trans (grow_ending _ _ _ _ _)
    · intro given hending
      obtain ⟨before, -, hline⟩ := (placed_ofChars chars).skip hskip
      have hlt := line_lt_of_ending hending
      omega

/-! ## Line breaks separate the items -/

theorem shifted_closeAtBreak (lines start : Nat) (run : List Char) :
    (closeAtBreak start run).shifted lines =
      closeAtBreak (start + lines) run := by
  unfold closeAtBreak
  cases classify (run ++ ['\n']) <;> rfl

theorem shifted_closeAtEnd
    (lines start : Nat) (run : List Char)
    (found : Option (Nat × Token.Kind)) :
    (closeAtEnd start run found).shifted lines =
      closeAtEnd (start + lines) run found := by
  unfold closeAtEnd
  cases opensComment run with
  | true => rfl
  | false => cases found <;> rfl

/-- Reading does not depend on the number of the line. -/
theorem grow_shifted
    (lines start line : Nat) (run : List Char)
    (found : Option (Nat × Token.Kind)) (chars : List Char) :
    grow (start + lines) run found (line + lines) chars =
      ((grow start run found line chars).1.shifted lines,
        ⟨(grow start run found line chars).2.line + lines,
          (grow start run found line chars).2.rest⟩) := by
  induction chars generalizing run found with
  | nil =>
      rw [grow, grow, shifted_closeAtEnd]
  | cons c rest ih =>
      rw [grow_cons, grow_cons]
      cases hmove : move run found c with
      | close =>
          simp only [shifted_closeAtBreak, past, move_close_eq_break hmove,
            if_true, Nat.add_right_comm]
      | cut length kind => rfl
      | join found' => exact ih (run ++ [c]) found'

theorem items_shifted (lines line : Nat) (chars : List Char) :
    (⟨line + lines, chars⟩ : Reader).items =
      (⟨line, chars⟩ : Reader).items.map (Item.shifted lines) := by
  induction hlength : chars.length using Nat.strongRecOn
    generalizing line chars with
  | ind n ih =>
      cases chars with
      | nil => rw [items_eq_nil rfl, items_eq_nil rfl, List.map_nil]
      | cons c rest =>
          have hshorter := grow_fresh_rest_length_lt line c rest
          have hshifted := grow_shifted lines line line [] none (c :: rest)
          have hhere : (⟨line, c :: rest⟩ : Reader).items =
              (grow line [] none line (c :: rest)).1 ::
                (grow line [] none line (c :: rest)).2.items :=
            items_eq_cons rfl
          have hthere : (⟨line + lines, c :: rest⟩ : Reader).items =
              (grow (line + lines) [] none (line + lines) (c :: rest)).1 ::
                (grow (line + lines) [] none (line + lines)
                  (c :: rest)).2.items :=
            items_eq_cons rfl
          rw [hhere, hthere, hshifted, List.map_cons,
            ih _ (hlength ▸ hshorter) _ _ rfl]

/-- What is read in front of a line break is the same for every text behind it:
the item ends with the line break, or it leaves some of the text in front of it
over. -/
theorem grow_before_break
    (start line : Nat) (run : List Char) (found : Option (Nat × Token.Kind))
    (above : List Char) :
    ∃ item after,
      (∀ below, grow start run found line (above ++ '\n' :: below) =
        (item, ⟨after, below⟩)) ∨
      ∃ left, ∀ below, grow start run found line (above ++ '\n' :: below) =
        (item, ⟨after, left ++ '\n' :: below⟩) := by
  induction above generalizing run found with
  | nil =>
      cases hmove : move run found '\n' with
      | close =>
          refine ⟨closeAtBreak start run, line + 1, .inl fun below => ?_⟩
          rw [List.nil_append, grow_cons, hmove]
          rfl
      | cut length kind =>
          refine ⟨emit start (run.take length) kind, line,
            .inr ⟨[], fun below => ?_⟩⟩
          rw [List.nil_append, grow_cons, hmove]
      | join found' => exact absurd rfl (move_join_ne_break hmove)
  | cons c above ih =>
      cases hmove : move run found c with
      | close =>
          refine ⟨closeAtBreak start run, line + 1,
            .inr ⟨above, fun below => ?_⟩⟩
          rw [List.cons_append, grow_cons, hmove]
          simp [past, move_close_eq_break hmove]
      | cut length kind =>
          refine ⟨emit start (run.take length) kind, line,
            .inr ⟨c :: above, fun below => ?_⟩⟩
          rw [List.cons_append, grow_cons, hmove]
      | join found' =>
          obtain ⟨item, after, hread⟩ := ih (run ++ [c]) found'
          refine ⟨item, after, ?_⟩
          simpa only [List.cons_append, grow_cons, hmove] using hread

theorem items_before_break (line : Nat) (above below : List Char) :
    (⟨line, above ++ '\n' :: below⟩ : Reader).items =
      (⟨line, above ++ ['\n']⟩ : Reader).items ++
        (⟨line + (above ++ ['\n']).count '\n', below⟩ : Reader).items := by
  induction hlength : above.length using Nat.strongRecOn
    generalizing line above with
  | ind n ih =>
      have hnext : ∀ below item after,
          grow line [] none line (above ++ '\n' :: below) = (item, after) →
          (⟨line, above ++ '\n' :: below⟩ : Reader).next =
            some (item, after) := by
        intro below item after hgrow
        unfold next
        cases above <;> exact congrArg some hgrow
      obtain ⟨item, after, hclosed | ⟨left, hopen⟩⟩ :=
        grow_before_break line line [] none above
      · have hstep := hnext below _ _ (hclosed below)
        have hpiece : above ++ '\n' :: below = (above ++ ['\n']) ++ below := by
          simp
        have hline : after = line + (above ++ ['\n']).count '\n' :=
          (next_line hstep hpiece).2
        have hend : (⟨after, []⟩ : Reader).items = [] := items_eq_nil rfl
        rw [items_eq_cons hstep, items_eq_cons (hnext [] _ _ (hclosed [])),
          hend, hline]
        rfl
      · have hstep := hnext below _ _ (hopen below)
        obtain ⟨piece, hne, hpiece, -⟩ := next_accounts hstep
        have habove : above = piece ++ left := by
          rw [← List.append_assoc] at hpiece
          exact List.append_cancel_right hpiece
        have hshorter : left.length < n := by
          have hpos := List.length_pos_iff.mpr hne
          rw [← hlength, habove, List.length_append]
          omega
        have hline : after = line + piece.count '\n' :=
          (next_line hstep hpiece).2
        have hcount : line + (above ++ ['\n']).count '\n' =
            after + (left ++ ['\n']).count '\n' := by
          rw [hline, habove, List.append_assoc, List.count_append,
            Nat.add_assoc]
        rw [items_eq_cons hstep, items_eq_cons (hnext [] _ _ (hopen [])),
          ih _ hshorter _ _ rfl, hcount, List.cons_append]

/-- A line break separates the items: those of a text are the ones up to a line
break and then, further down, the ones of the text behind it, whatever stands in
front of it. -/
theorem breaks_separate_items (above below : List Char) :
    (ofChars (above ++ '\n' :: below)).items =
      (ofChars (above ++ ['\n'])).items ++
        (ofChars below).items.map
          (Item.shifted ((above ++ ['\n']).count '\n')) := by
  rw [ofChars, items_before_break, items_shifted]
  rfl

end Reader

end SelectChain

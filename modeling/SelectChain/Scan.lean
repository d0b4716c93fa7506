import SelectChain.Lexeme
import SelectChain.Error

/-!
# Scanning

A token is read character by character, and the run read so far is classified
after each of them.  The length and the category of the longest beginning that
had one are kept.  Once there is such a beginning and the run has no category,
the run is cut to that length and the last character is given back.  A line
break ends every run: it is given back to a run that has such a beginning, and
closes a comment or an unreadable run otherwise.

`Reader.next` reads one item, `scan` all of them; an unreadable run is an item
too, and scanning goes on behind it.
-/

namespace SelectChain

/-- The characters still to be read and the number of the line that the next
of them stands on. -/
structure Reader where
  line : Nat
  rest : List Char
  deriving DecidableEq

/-- A token, or a run that is none. -/
abbrev Item :=
  Except ScanError Token

namespace Reader

/-- Reading starts on line 1. -/
def ofChars (chars : List Char) : Reader :=
  ⟨1, chars⟩

/-- The reader behind `c`, which stands on `line`, when `rest` follows. -/
def past (line : Nat) (c : Char) (rest : List Char) : Reader :=
  ⟨if c = '\n' then line + 1 else line, rest⟩

/-- Gives a character back, so that it is the next one to be read. -/
def giveBack (c : Char) (reader : Reader) : Reader :=
  ⟨if c = '\n' then reader.line - 1 else reader.line, c :: reader.rest⟩

/-- A character that is given back right after it was read leaves no trace. -/
@[simp]
theorem giveBack_past (line : Nat) (c : Char) (rest : List Char) :
    giveBack c (past line c rest) = ⟨line, c :: rest⟩ := by
  by_cases hc : c = '\n' <;> simp [giveBack, past, hc]

def emit (start : Nat) (run : List Char) (kind : Token.Kind) : Item :=
  .ok ⟨String.ofList run, kind, start⟩

/-- The item of a run that the end of the input closes.  A comment on the last
line needs no line break. -/
def closeAtEnd (start : Nat) (run : List Char)
    (found : Option (Nat × Token.Kind)) : Item :=
  if Lexeme.opensComment run then emit start run .comment
  else
    match found with
    | some (length, kind) => emit start (run.take length) kind
    | none => .error ⟨String.ofList run, start⟩

/-- The item of a run that a line break closes and belongs to. -/
def closeAtBreak (start : Nat) (run : List Char) : Item :=
  match Lexeme.classify (run ++ ['\n']) with
  | some kind => emit start (run ++ ['\n']) kind
  | none =>
      .error ⟨String.ofList (Text.trimEnd (run ++ ['\n'])), start⟩

/-- Reads on from a run that started on line `start`, until the run is an item;
`found` is the length and the category of the longest beginning of the run that
has one. -/
def grow (start : Nat) (run : List Char) (found : Option (Nat × Token.Kind))
    (line : Nat) : List Char → Item × Reader
  | [] => (closeAtEnd start run found, ⟨line, []⟩)
  | c :: rest =>
      if c = '\n' then
        match found with
        | none => (closeAtBreak start run, past line c rest)
        | some (length, kind) =>
            if Lexeme.opensComment run then
              (closeAtBreak start run, past line c rest)
            else
              (emit start (run.take length) kind,
                giveBack c (past line c rest))
      else
        match Lexeme.classify (run ++ [c]) with
        | some kind =>
            grow start (run ++ [c]) (some (run.length + 1, kind)) line rest
        | none =>
            match found with
            | none => grow start (run ++ [c]) none line rest
            | some (length, kind) =>
                if Lexeme.opensComment (run ++ [c]) then
                  grow start (run ++ [c]) (some (length, kind)) line rest
                else
                  (emit start (run.take length) kind,
                    giveBack c (past line c rest))

/-- Reads one item, or finds that nothing is left to be read. -/
def next (reader : Reader) : Option (Item × Reader) :=
  match reader.rest with
  | [] => none
  | c :: rest => some (grow reader.line [] none reader.line (c :: rest))

/-! ## Every item takes at least one character -/

theorem grow_rest_length_le
    (start : Nat) (run : List Char) (found : Option (Nat × Token.Kind))
    (line : Nat) (chars : List Char) :
    (grow start run found line chars).2.rest.length ≤ chars.length := by
  induction chars generalizing run found with
  | nil => simp [grow]
  | cons c rest ih =>
      have hstep : ∀ run found,
          (grow start run found line rest).2.rest.length ≤
            (c :: rest).length :=
        fun run found => Nat.le_succ_of_le (ih run found)
      rw [grow.eq_def]
      simp only
      split
      · cases found with
        | none => simp [past]
        | some found =>
            simp only
            split <;> simp [past, giveBack]
      · split
        · exact hstep _ _
        · cases found with
          | none => exact hstep _ _
          | some found =>
              simp only
              split
              · exact hstep _ _
              · simp [past, giveBack]

theorem grow_fresh_rest_length_lt
    (line : Nat) (c : Char) (rest : List Char) :
    (grow line [] none line (c :: rest)).2.rest.length <
      (c :: rest).length := by
  have hstep : ∀ run found,
      (grow line run found line rest).2.rest.length < (c :: rest).length :=
    fun run found => Nat.lt_succ_of_le (grow_rest_length_le _ run found _ _)
  rw [grow.eq_def]
  simp only
  split
  · simp [past]
  · split
    · exact hstep _ _
    · exact hstep _ _

theorem next_rest_length_lt
    {reader after : Reader} {item : Item}
    (h : reader.next = some (item, after)) :
    after.rest.length < reader.rest.length := by
  unfold next at h
  cases hrest : reader.rest with
  | nil => simp [hrest] at h
  | cons c rest =>
      rw [hrest] at h
      have hlt := grow_fresh_rest_length_lt reader.line c rest
      simp only [Option.some.injEq] at h
      rw [h] at hlt
      exact hlt

/-- All items up to the end of the input. -/
def items (reader : Reader) : List Item :=
  match _h : reader.next with
  | none => []
  | some (item, after) => item :: after.items
termination_by reader.rest.length
decreasing_by exact next_rest_length_lt _h

end Reader

def scan (source : String) : List Item :=
  (Reader.ofChars source.toList).items

/-- The tokens of a list of items, or its first unreadable run. -/
def tokensOf : List Item → Except ScanError (List Token)
  | [] => .ok []
  | .error error :: _ => .error error
  | .ok token :: rest =>
      match tokensOf rest with
      | .ok tokens => .ok (token :: tokens)
      | .error error => .error error

/-- The tokens in front of the first unreadable run. -/
def readableTokens : List Item → List Token
  | .ok token :: rest => token :: readableTokens rest
  | _ => []

/-- The tokens of a text, if all of it can be read. -/
def tokenize (source : String) : Except ScanError (List Token) :=
  tokensOf (scan source)

end SelectChain

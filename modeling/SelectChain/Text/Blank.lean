/-!
# Blank characters

The characters with the Unicode property `White_Space`, and the removal of
such characters from the end of a text.
-/

namespace SelectChain.Text

/-- The code points of the 25 blank characters, as closed ranges in
increasing order. -/
def blankRanges : List (Nat × Nat) :=
  [(0x0009, 0x000d), (0x0020, 0x0020), (0x0085, 0x0085), (0x00a0, 0x00a0),
    (0x1680, 0x1680), (0x2000, 0x200a), (0x2028, 0x2029), (0x202f, 0x202f),
    (0x205f, 0x205f), (0x3000, 0x3000)]

/-- Whether a character has the property `White_Space`. -/
def isBlank (c : Char) : Bool :=
  blankRanges.any fun range => range.1 ≤ c.toNat && c.toNat ≤ range.2

/-- A run of characters without the blanks at its end. -/
def trimEnd (run : List Char) : List Char :=
  (run.reverse.dropWhile isBlank).reverse

/-- Trimming leaves alone a run whose last character is not blank. -/
theorem trimEnd_append_singleton
    (run : List Char) {c : Char} (hc : isBlank c = false) :
    trimEnd (run ++ [c]) = run ++ [c] := by
  simp [trimEnd, hc]

theorem trimEnd_append_blank
    (run : List Char) {c : Char} (hc : isBlank c = true) :
    trimEnd (run ++ [c]) = trimEnd run := by
  simp [trimEnd, hc]

end SelectChain.Text

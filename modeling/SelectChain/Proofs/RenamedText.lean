import SelectChain.Proofs.ScanMoves
import Mathlib.Tactic

/-!
# Names replaced in a text

A name in a text can be replaced by another name where it stands, and scanning
finds the same tokens on the same lines, with the new names in them.  Names that
stand right behind a dot are fields or calls and are kept.
-/

namespace SelectChain

open Grammar

/-- A change of names that keeps different names apart. -/
structure Renaming where
  image : Name → Name
  injective : Function.Injective image

namespace Renaming

def identity : Renaming :=
  ⟨id, Function.injective_id⟩

variable (naming : Renaming)

/-- The new spelling of a text: names change, and whatever is no name stays as
it is. -/
def spelling (text : String) : String :=
  if h : Lexeme.classify text.toList = some .identifier then
    (naming.image ⟨text, h⟩).text
  else text

@[simp] theorem spelling_name (name : Name) :
    naming.spelling name.text = (naming.image name).text := by
  rw [spelling, dif_pos name.valid]

theorem spelling_of_ne
    {text : String} (h : Lexeme.classify text.toList ≠ some .identifier) :
    naming.spelling text = text := by
  rw [spelling, dif_neg h]

theorem classify_spelling (text : String) :
    Lexeme.classify (naming.spelling text).toList =
      Lexeme.classify text.toList := by
  by_cases h : Lexeme.classify text.toList = some .identifier
  · rw [spelling, dif_pos h, h]
    exact (naming.image ⟨text, h⟩).valid
  · rw [naming.spelling_of_ne h]

theorem spelling_injective : Function.Injective naming.spelling := by
  intro text other heq
  have hkind := congrArg (fun text : String => Lexeme.classify text.toList) heq
  simp only [classify_spelling] at hkind
  by_cases h : Lexeme.classify text.toList = some .identifier
  · have h' : Lexeme.classify other.toList = some .identifier := hkind ▸ h
    rw [spelling, spelling, dif_pos h, dif_pos h'] at heq
    have himage : naming.image ⟨text, h⟩ = naming.image ⟨other, h'⟩ := by
      cases hleft : naming.image ⟨text, h⟩
      cases hright : naming.image ⟨other, h'⟩
      rw [hleft, hright] at heq
      cases heq
      rfl
    exact congrArg Name.text (naming.injective himage)
  · have h' : Lexeme.classify other.toList ≠ some .identifier := hkind ▸ h
    rwa [naming.spelling_of_ne h, naming.spelling_of_ne h'] at heq

def token (token : Token) : Token :=
  { token with text := naming.spelling token.text }

/-- Tokens with the names among them changed, but for those right behind a dot;
`kept` says whether the first token that matters stays as it is, too. -/
def tokensFrom (kept : Bool) : List Token → List Token
  | [] => []
  | token :: rest =>
      if token.isTrivia then token :: tokensFrom kept rest
      else
        (if kept then token else naming.token token) ::
          tokensFrom (token.text == ".") rest

/-- The tokens of a pipeline with other names.  Its session comes first and is
none of its names, and neither are the calls and fields behind a dot. -/
def tokens : List Token → List Token :=
  naming.tokensFrom true

/-- The text with these tokens, all else as it was. -/
def source (tokens : List Token) : String :=
  String.join ((naming.tokens tokens).map (·.text))

end Renaming

namespace Reader

open Lexeme

/-- A token takes its text, which is not empty. -/
theorem next_eq_ok
    {reader after : Reader} {token : Token}
    (h : reader.next = some (.ok token, after)) :
    token.text.toList ≠ [] ∧
      reader.rest = token.text.toList ++ after.rest := by
  obtain ⟨piece, hne, hpiece, haccounts⟩ := next_accounts h
  have htext : token.text.toList = piece := by
    rcases haccounts with ⟨htext, -⟩ | ⟨-, htext, -⟩ <;> exact htext
  rw [htext]
  exact ⟨hne, hpiece⟩

/-- No name is followed by a character that would belong to it. -/
theorem not_isNamePart_of_next
    {reader after : Reader} {token : Token}
    (h : reader.next = some (.ok token, after))
    (hkind : classify token.text.toList = some .identifier) :
    ∀ c ∈ after.rest.head?, isNamePart c = false := by
  obtain ⟨-, hpiece⟩ := next_eq_ok h
  generalize token.text.toList = piece at hkind hpiece
  have hidentifier := isIdentifier_of_classify hkind
  have hread : grow reader.line [] none reader.line (piece ++ after.rest) =
      grow reader.line piece (some (piece.length, .identifier)) reader.line
        after.rest :=
    grow_readsOn reader.line reader.line after.rest (by simp)
      (readsOn_of_isIdentifier hidentifier) hkind
  have hgrow := grow_of_next h
  rw [hpiece, hread] at hgrow
  intro c hc
  obtain ⟨more, hrest⟩ : ∃ more, after.rest = c :: more := by
    cases hafter : after.rest with
    | nil => simp [hafter] at hc
    | cons d more =>
        obtain rfl : d = c := by simpa [hafter] using hc
        exact ⟨more, rfl⟩
  obtain ⟨line, rest⟩ := after
  obtain rfl : rest = c :: more := hrest
  obtain ⟨length, kind, hmove, -, -⟩ := exists_cut_of_grow hgrow
  by_contra hne
  have hpart : isNamePart c = true := by simpa using hne
  have hbreak : c ≠ '\n' := ne_of_isNamePart hpart (by decide)
  have hnone := ((move_eq_cut hmove).2.2 hbreak).1
  have hlonger : isIdentifier (piece ++ [c]) = true := by
    cases piece with
    | nil => cases hidentifier
    | cons first middle =>
        simp only [isIdentifier, Bool.and_eq_true] at hidentifier
        simp [isIdentifier, hidentifier, hpart]
  have hsome := classify_isSome_of_isIdentifier hlonger
  rw [hnone] at hsome
  cases hsome

theorem exists_next_of_items
    {reader : Reader} {item : Item} {items : List Item}
    (h : reader.items = item :: items) :
    ∃ after, reader.next = some (item, after) ∧ after.items = items := by
  cases hnext : reader.next with
  | none =>
      rw [Reader.items] at h
      split at h
      next => cases h
      next hsome =>
        rw [hnext] at hsome
        cases hsome
  | some step =>
      obtain ⟨first, after⟩ := step
      rw [items_eq_cons hnext] at h
      cases h
      exact ⟨after, rfl, rfl⟩

theorem rest_eq_nil_of_items {reader : Reader} (h : reader.items = []) :
    reader.rest = [] := by
  obtain ⟨pieces, hflat, -, hcount, -⟩ := items_accounts reader
  rw [h, List.length_nil, List.length_eq_zero_iff] at hcount
  rw [← hflat, hcount]
  rfl

theorem text_ne_nil_of_items
    {reader : Reader} {tokens : List Token}
    (h : reader.items = tokens.map .ok) {token : Token} (hmem : token ∈ tokens) :
    token.text.toList ≠ [] := by
  apply items_induction (fun _ => True) (fun token => token.text.toList ≠ [])
    _ trivial (h ▸ List.mem_map_of_mem hmem)
  intro reader after item _ hnext
  refine ⟨?_, trivial⟩
  rintro token rfl
  exact (next_eq_ok hnext).1

/-- A text without unreadable runs is made of the texts of its tokens. -/
theorem rest_eq_flatMap
    {reader : Reader} {tokens : List Token}
    (h : reader.items = tokens.map .ok) :
    reader.rest = tokens.flatMap (·.text.toList) := by
  induction tokens generalizing reader with
  | nil => exact rest_eq_nil_of_items h
  | cons token tokens ih =>
      obtain ⟨after, hnext, hafter⟩ := exists_next_of_items h
      rw [(next_eq_ok hnext).2, ih hafter]
      rfl

end Reader

namespace Renaming

open Lexeme Reader

variable (naming : Renaming)

theorem startsAlike_spelling
    {text : String} (htext : text.toList ≠ []) (rest rest' : List Char) :
    StartsAlike (text.toList ++ rest)
      ((naming.spelling text).toList ++ rest') := by
  by_cases hname : classify text.toList = some .identifier
  · have hstart : ∀ name : Name, ∃ c more,
        name.text.toList = c :: more ∧ isNameStart c = true := by
      intro name
      have hidentifier := isIdentifier_of_classify name.valid
      cases hchars : name.text.toList with
      | nil =>
          rw [hchars] at hidentifier
          cases hidentifier
      | cons c more =>
          rw [hchars, isIdentifier, Bool.and_eq_true] at hidentifier
          exact ⟨c, more, rfl, hidentifier.1⟩
    obtain ⟨c, more, hchars, hc⟩ := hstart ⟨text, hname⟩
    obtain ⟨c', more', hchars', hc'⟩ := hstart (naming.image ⟨text, hname⟩)
    have hchars : text.toList = c :: more := hchars
    right
    rw [spelling, dif_pos hname, hchars, hchars']
    exact ⟨c, more ++ rest, c', more' ++ rest', rfl, rfl, hc, hc'⟩
  · left
    rw [naming.spelling_of_ne hname, List.head?_append_of_ne_nil _ htext,
      List.head?_append_of_ne_nil _ htext]

theorem startsAlike_tokensFrom
    (kept : Bool) {tokens : List Token}
    (h : ∀ token ∈ tokens, token.text.toList ≠ []) :
    StartsAlike (tokens.flatMap (·.text.toList))
      ((naming.tokensFrom kept tokens).flatMap (·.text.toList)) := by
  cases tokens with
  | nil => exact .inl rfl
  | cons token tokens =>
      have htext := h token (.head _)
      have hsame : ∀ rest rest' : List Char,
          StartsAlike (token.text.toList ++ rest)
            (token.text.toList ++ rest') := by
        intro rest rest'
        left
        rw [List.head?_append_of_ne_nil _ htext,
          List.head?_append_of_ne_nil _ htext]
      rw [tokensFrom]
      split
      · exact hsame _ _
      · cases kept with
        | true => exact hsame _ _
        | false => exact naming.startsAlike_spelling htext _ _

theorem items_name
    (line : Nat) (name : Name) {rest : List Char}
    (hrest : ∀ c ∈ rest.head?, isNamePart c = false) :
    (⟨line, name.text.toList ++ rest⟩ : Reader).items =
      .ok ⟨name.text, .identifier, line⟩ ::
        (⟨line, rest⟩ : Reader).items := by
  have hidentifier := isIdentifier_of_classify name.valid
  have hstops : Stops name.text.toList rest := by
    cases hchars : name.text.toList with
    | nil =>
        rw [hchars] at hidentifier
        cases hidentifier
    | cons first middle =>
        apply stops_of_isNamePart middle _ hrest
        apply isNamePart_of_isIdentifier hidentifier
        rw [hchars]
        exact .head _
  rw [items_of_piece line (readsOn_of_isIdentifier hidentifier) name.valid
    (opensComment_of_classify name.valid rfl) hstops, emit,
    String.ofList_toList]

/-- Scanning finds the new names in the place of the old ones. -/
theorem items_tokensFrom
    {line : Nat} {chars : List Char} {tokens : List Token}
    (h : (⟨line, chars⟩ : Reader).items = tokens.map .ok) (kept : Bool) :
    (⟨line, (naming.tokensFrom kept tokens).flatMap (·.text.toList)⟩ :
      Reader).items = (naming.tokensFrom kept tokens).map .ok := by
  induction tokens generalizing line chars kept with
  | nil => exact items_eq_nil rfl
  | cons token tokens ih =>
      obtain ⟨⟨line', rest⟩, hnext, hafter⟩ := exists_next_of_items h
      obtain ⟨htext, hchars⟩ := next_eq_ok hnext
      have halike := fun kept => naming.startsAlike_tokensFrom kept
        fun token hmem => text_ne_nil_of_items hafter hmem
      rw [← rest_eq_flatMap hafter] at halike
      simp only at hchars halike
      subst hchars
      have hsame : ∀ kept,
          (⟨line, token.text.toList ++
            (naming.tokensFrom kept tokens).flatMap (·.text.toList)⟩ :
              Reader).items =
            .ok token :: (naming.tokensFrom kept tokens).map .ok := by
        intro kept
        rw [items_eq_cons (next_alike (halike kept) htext hnext),
          ih hafter kept]
      rw [tokensFrom]
      split
      · exact hsame kept
      next htrivia =>
        cases kept with
        | true => exact hsame _
        | false =>
            by_cases hname : classify token.text.toList = some .identifier
            · have hends := not_isNamePart_of_next hnext hname
              have hfirst := items_name line ⟨token.text, hname⟩ hends
              rw [h] at hfirst
              obtain ⟨htoken, hrest⟩ := List.cons.inj hfirst
              have hrenamed : naming.token token =
                  ⟨(naming.image ⟨token.text, hname⟩).text, .identifier,
                    line⟩ := by
                have hkind : token.kind = .identifier :=
                  congrArg Token.kind (Except.ok.inj htoken)
                have hline : token.line = line :=
                  congrArg Token.line (Except.ok.inj htoken)
                rw [Renaming.token, spelling, dif_pos hname, hkind, hline]
              rw [if_neg (by simp), hrenamed, List.flatMap_cons, List.map_cons,
                items_name line _ ((halike _).not_isNamePart hends),
                ih hrest.symm]
            · have hkept : naming.token token = token := by
                rw [Renaming.token, naming.spelling_of_ne hname]
              rw [if_neg (by simp), hkept]
              exact hsame _

/-- A text with other names has the tokens with these names. -/
theorem tokenize_source
    {source : String} {tokens : List Token}
    (h : tokenize source = .ok tokens) :
    tokenize (naming.source tokens) = .ok (naming.tokens tokens) := by
  have hitems : (⟨1, source.toList⟩ : Reader).items = tokens.map .ok :=
    tokensOf_eq_ok h
  have hchars : (naming.source tokens).toList =
      (naming.tokens tokens).flatMap (·.text.toList) := by
    rw [Renaming.source, String.toList_join, List.flatMap_map]
  have hscan : scan (naming.source tokens) =
      (naming.tokens tokens).map .ok := by
    rw [scan, hchars]
    exact naming.items_tokensFrom hitems true
  rw [tokenize, hscan, tokensOf_map_ok]

end Renaming

end SelectChain

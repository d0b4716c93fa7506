/-!
# JSON reports

The part of JSON that reports need: null, strings, arrays and objects.  The keys
of an object are sorted by code point, which is also their order by UTF-8 bytes.
`Json.pretty` and `Json.compact` are the two written forms.
-/

namespace SelectChain

inductive Json where
  | null
  | str (text : String)
  | arr (elements : List Json)
  | obj (members : List (String × Json))

namespace Json

/-! ## Objects -/

/-- Puts a member in its place by key; an equal key loses its old value. -/
def insertMember (member : String × Json) :
    List (String × Json) → List (String × Json)
  | [] => [member]
  | head :: rest =>
      if member.1 < head.1 then member :: head :: rest
      else if member.1 = head.1 then member :: rest
      else head :: insertMember member rest

/-- The object with the given members, the later of two with one key. -/
def object (members : List (String × Json)) : Json :=
  .obj (members.foldl (fun sorted member => insertMember member sorted) [])

/-! ## Strings -/

/-- A number below 256 as two digits in base sixteen. -/
def twoHexDigits (code : Nat) : String :=
  String.ofList [Nat.digitChar (code / 16), Nat.digitChar (code % 16)]

/-- Quotes, backslashes and the first 32 characters are escaped, all else is
written as it is. -/
def escapeChar (c : Char) : String :=
  if c = '\x22' then "\\\x22"
  else if c = '\\' then "\\\\"
  else if c = '\n' then "\\n"
  else if c = '\r' then "\\r"
  else if c = '\t' then "\\t"
  else if c = '\x08' then "\\b"
  else if c = '\x0c' then "\\f"
  else if c.toNat < 0x20 then "\\u00" ++ twoHexDigits c.toNat
  else c.toString

def quote (text : String) : String :=
  "\x22" ++ String.join (text.toList.map escapeChar) ++ "\x22"

/-! ## Written forms -/

mutual

def compact : Json → String
  | .null => "null"
  | .str text => quote text
  | .arr elements => "[" ++ ",".intercalate (compactElements elements) ++ "]"
  | .obj members =>
      "\x7b" ++ ",".intercalate (compactMembers members) ++ "\x7d"

def compactElements : List Json → List String
  | [] => []
  | element :: rest => compact element :: compactElements rest

def compactMembers : List (String × Json) → List String
  | [] => []
  | (key, value) :: rest =>
      (quote key ++ ":" ++ compact value) :: compactMembers rest

end

/-- The start of a line inside `depth` brackets: two blanks for each. -/
def newLine (depth : Nat) : String :=
  String.ofList ('\n' :: List.replicate (2 * depth) ' ')

/-- The parts of an array or object on lines of their own between its
brackets, or the bare brackets if there are none. -/
def bracketed (left right : String) (depth : Nat) : List String → String
  | [] => left ++ right
  | parts =>
      left ++ newLine (depth + 1) ++
        ("," ++ newLine (depth + 1)).intercalate parts ++
        newLine depth ++ right

mutual

/-- The indented form inside `depth` brackets. -/
def prettyAt (depth : Nat) : Json → String
  | .null => "null"
  | .str text => quote text
  | .arr elements => bracketed "[" "]" depth (prettyElements depth elements)
  | .obj members =>
      bracketed "\x7b" "\x7d" depth (prettyMembers depth members)

def prettyElements (depth : Nat) : List Json → List String
  | [] => []
  | element :: rest =>
      prettyAt (depth + 1) element :: prettyElements depth rest

def prettyMembers (depth : Nat) : List (String × Json) → List String
  | [] => []
  | (key, value) :: rest =>
      (quote key ++ ": " ++ prettyAt (depth + 1) value) ::
        prettyMembers depth rest

end

/-- The form with one part per line, indented by two blanks. -/
def pretty (json : Json) : String :=
  prettyAt 0 json

end Json

end SelectChain

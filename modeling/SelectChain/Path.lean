/-!
# Paths and output names

A path is a sequence of segments between slashes.  Empty segments and single
dots stand for the directory they are in, so they never name a file; a double
dot does not either.  The output of a file goes beside it, under a name made
from the stem of its own.
-/

namespace SelectChain

/-- The text between two slashes of a path. -/
abbrev Segment :=
  List Char

namespace Path

/-- The segments of a path; there is always at least one. -/
def segments : List Char → List Segment
  | [] => [[]]
  | c :: rest =>
      if c = '/' then [] :: segments rest
      else
        match segments rest with
        | [] => [[c]]
        | first :: more => (c :: first) :: more

def join : List Segment → List Char
  | [] => []
  | [segment] => segment
  | segment :: more => segment ++ '/' :: join more

theorem segments_ne_nil (path : List Char) : segments path ≠ [] := by
  cases path with
  | nil => simp [segments]
  | cons c rest =>
      rw [segments]
      split
      · simp
      · split <;> simp

theorem join_cons
    (segment : Segment) {more : List Segment} (hmore : more ≠ []) :
    join (segment :: more) = segment ++ '/' :: join more := by
  cases more with
  | nil => exact absurd rfl hmore
  | cons next rest => rfl

def byteLength : List Char → Nat
  | [] => 0
  | c :: rest => c.utf8Size + byteLength rest

/-- The double dot, which leads to the parent directory. -/
def parentSegment : Segment :=
  ['.', '.']

/-- Whether a segment stands for the directory it is in. -/
def isVoid (segment : Segment) : Bool :=
  segment == [] || segment == ['.']

/-- The beginning of a path that its directory keeps in any case: the root, or
a single dot in front. -/
def anchor : List Char → List Char
  | '/' :: _ => ['/']
  | ['.'] => ['.']
  | '.' :: '/' :: _ => ['.']
  | _ => []

/-- A path, taken apart into the text of its directory and a file name. -/
structure Location where
  parent : List Char
  name : Segment
  deriving DecidableEq

/-- Takes a path apart, unless its last segment that counts is missing or a
double dot.  Segments that stand for their own directory are dropped on both
sides of the name, and kept further left. -/
def locate? (path : List Char) : Option Location :=
  let body := segments (path.drop (anchor path).length)
  match body.reverse.dropWhile isVoid with
  | [] => none
  | name :: earlier =>
      if name = parentSegment then none
      else
        some
          ⟨anchor path ++ join (earlier.dropWhile isVoid).reverse, name⟩

def Location.path (location : Location) : List Char :=
  if location.parent = [] ∨ location.parent.getLast? = some '/' then
    location.parent ++ location.name
  else location.parent ++ '/' :: location.name

/-- What stands before and behind the last dot of a name. -/
def splitAtLastDot? : Segment → Option (List Char × List Char)
  | [] => none
  | c :: rest =>
      match splitAtLastDot? rest with
      | some (before, behind) => some (c :: before, behind)
      | none => if c = '.' then some ([], rest) else none

/-- The name up to its last dot; a dot in front does not count. -/
def stem (name : Segment) : List Char :=
  match splitAtLastDot? name with
  | some (c :: before, _) => c :: before
  | _ => name

/-- The name behind its last dot; a dot in front does not count. -/
def extension? (name : Segment) : Option (List Char) :=
  match splitAtLastDot? name with
  | some (_ :: _, behind) => some behind
  | _ => none

def outputExtension : String :=
  ".scala"

/-- What stands between the stem and the extension, if nothing else is asked
for. -/
def standardSuffix : String :=
  "_output_in_dataframe"

def outputName (suffix : List Char) (name : Segment) : List Char :=
  stem name ++ suffix ++ outputExtension.toList

def outputChars? (suffix path : List Char) : Option (List Char) :=
  (locate? path).map fun location =>
    Location.path { location with name := outputName suffix location.name }

def output? (suffix path : String) : Option String :=
  (outputChars? suffix.toList path.toList).map String.ofList

end Path

end SelectChain

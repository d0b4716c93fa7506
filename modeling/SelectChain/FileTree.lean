import SelectChain.Path

/-!
# Files

`FileStore` is what the program asks of the world: reading and writing whole
files.  `FileTree` is a store of plain values.  A path is followed segment by
segment, and every segment, also an empty one or a dot, needs a directory to
stand in.  Names and paths have a greatest length in bytes.
-/

namespace SelectChain

/-- Why a file cannot be read or written. -/
inductive FileFault where
  | missing
  | notADirectory
  | isADirectory
  | nameTooLong
  | nulInPath
  | notText
  /-- Any other fault that the system reports. -/
  | system (details : String) (code : Nat)
  deriving DecidableEq

def FileFault.message : FileFault → String
  | .missing => "No such file or directory (os error 2)"
  | .notADirectory => "Not a directory (os error 20)"
  | .isADirectory => "Is a directory (os error 21)"
  | .nameTooLong => "File name too long (os error 36)"
  | .nulInPath => "file name contained an unexpected NUL byte"
  | .notText => "stream did not contain valid UTF-8"
  | .system details code =>
      details ++ " (os error " ++ toString code ++ ")"

/-- Reading and writing whole files by path. -/
class FileStore (m : Type → Type) where
  read : String → m (Except FileFault ByteArray)
  write : String → ByteArray → m (Except FileFault Unit)

def textOf (content : ByteArray) : Except FileFault String :=
  match String.fromUTF8? content with
  | some text => .ok text
  | none => .error .notText

/-! ## Places -/

/-- Where a path starts out: the root, or the working directory and the
directories above it. -/
inductive Anchor where
  | root
  | ancestor (level : Nat)
  deriving DecidableEq

/-- A place in the tree: names from an anchor downwards. -/
structure Place where
  anchor : Anchor
  names : List Segment
  deriving DecidableEq

namespace Place

def here : Place :=
  ⟨.ancestor 0, []⟩

def child (place : Place) (name : Segment) : Place :=
  { place with names := place.names ++ [name] }

/-- The directory that a place is in; the root is in itself. -/
def parent (place : Place) : Place :=
  match place.names, place.anchor with
  | [], .root => place
  | [], .ancestor level => ⟨.ancestor (level + 1), []⟩
  | _ :: _, _ => { place with names := place.names.dropLast }

def startOf : List Char → Place
  | '/' :: _ => ⟨.root, []⟩
  | _ => here

/-- The place that a segment leads to from a directory. -/
def follow (place : Place) (segment : Segment) : Place :=
  if Path.isVoid segment then place
  else if segment = Path.parentSegment then place.parent
  else place.child segment

end Place

/-! ## Trees -/

inductive Node where
  | directory
  | file (content : ByteArray)

/-- What is known of each place; the first entry for a place counts. -/
structure FileTree where
  nodes : List (Place × Node)

namespace FileTree

def empty : FileTree :=
  ⟨[]⟩

/-- What is at a place; anchors are directories. -/
def node? (tree : FileTree) (place : Place) : Option Node :=
  if place.names = [] then some .directory
  else tree.nodes.lookup place

def set (tree : FileTree) (place : Place) (node : Node) : FileTree :=
  ⟨(place, node) :: tree.nodes.filter (·.1 ≠ place)⟩

theorem node?_set_self
    (tree : FileTree) {place : Place} (node : Node)
    (hplace : place.names ≠ []) :
    (tree.set place node).node? place = some node := by
  simp [node?, set, hplace]

/-- Nothing else changes. -/
theorem node?_set_of_ne
    (tree : FileTree) {place other : Place} (node : Node)
    (hother : other ≠ place) :
    (tree.set place node).node? other = tree.node? other := by
  have hhead : (other == place) = false := by simpa using hother
  simp only [node?, set, List.lookup_cons, hhead]
  congr 1
  induction tree.nodes with
  | nil => rfl
  | cons entry rest ih =>
      by_cases hentry : entry.1 = place
      · have hskip : (other == entry.1) = false := by
          simpa [hentry] using hother
        rw [List.filter_cons_of_neg (by simpa using hentry), ih,
          List.lookup_cons, hskip]
      · rw [List.filter_cons_of_pos (by simpa using hentry),
          List.lookup_cons, List.lookup_cons, ih]

def nameLimit : Nat :=
  255

def pathLimit : Nat :=
  4095

/-- The place that a segment leads to, if there is a directory to follow it
from and it is not too long to be a name there. -/
def step (tree : FileTree) (place : Place) (segment : Segment) :
    Except FileFault Place :=
  match tree.node? place with
  | none => .error .missing
  | some (.file _) => .error .notADirectory
  | some .directory =>
      if nameLimit < Path.byteLength segment then .error .nameTooLong
      else .ok (place.follow segment)

def walk (tree : FileTree) (place : Place) :
    List Segment → Except FileFault Place
  | [] => .ok place
  | segment :: more =>
      match tree.step place segment with
      | .ok next => tree.walk next more
      | .error fault => .error fault

/-- The place that a path leads to, whether or not something is there.  The
empty path leads nowhere, and no path has a NUL in it. -/
def resolve (tree : FileTree) (path : List Char) : Except FileFault Place :=
  if path.contains '\x00' then .error .nulInPath
  else if path = [] then .error .missing
  else if pathLimit < Path.byteLength path then .error .nameTooLong
  else tree.walk (Place.startOf path) (Path.segments path)

def read (tree : FileTree) (path : String) : Except FileFault ByteArray :=
  match tree.resolve path.toList with
  | .error fault => .error fault
  | .ok place =>
      match tree.node? place with
      | none => .error .missing
      | some .directory => .error .isADirectory
      | some (.file content) => .ok content

def write (tree : FileTree) (path : String) (content : ByteArray) :
    Except FileFault FileTree :=
  match tree.resolve path.toList with
  | .error fault => .error fault
  | .ok place =>
      match tree.node? place with
      | some .directory => .error .isADirectory
      | _ => .ok (tree.set place (.file content))

instance : FileStore (StateM FileTree) where
  read path := fun tree => (tree.read path, tree)
  write path content := fun tree =>
    match tree.write path content with
    | .ok after => (.ok (), after)
    | .error fault => (.error fault, tree)

/-! ## Setting up and listing -/

/-- Follows segments and makes the directories that are missing. -/
def makeDirectories (tree : FileTree) (place : Place) :
    List Segment → FileTree × Place
  | [] => (tree, place)
  | segment :: more =>
      let next := place.follow segment
      let tree :=
        if (tree.node? next).isNone then tree.set next .directory else tree
      tree.makeDirectories next more

def withDirectory (tree : FileTree) (path : String) : FileTree :=
  (tree.makeDirectories (Place.startOf path.toList)
    (Path.segments path.toList)).1

/-- The tree with a file at a path, in directories made for it. -/
def withFile (tree : FileTree) (path : String) (content : ByteArray) :
    FileTree :=
  let segments := Path.segments path.toList
  let (tree, directory) :=
    tree.makeDirectories (Place.startOf path.toList) segments.dropLast
  tree.set (directory.follow (segments.getLast?.getD [])) (.file content)

/-- The files below the working directory, with their paths from there. -/
def files (tree : FileTree) : List (String × ByteArray) :=
  tree.nodes.filterMap fun
    | (⟨.ancestor 0, names⟩, .file content) =>
        some (String.ofList (Path.join names), content)
    | _ => none

end FileTree

end SelectChain

import SelectChain.FileTree
import SelectChain.Pipeline

/-!
# Lowering files

A file is read, lowered as one unit and written beside itself.  Writing comes
last, so a fault of any kind leaves the store as it was.
-/

namespace SelectChain

structure FileOptions where
  target : Target
  /-- What the name of the output has behind the stem of the input. -/
  suffix : String
  /-- Whether the outcome is shown and no file is written. -/
  toStdout : Bool
  deriving DecidableEq

structure FileOutcome where
  input : String
  /-- The file written, if any. -/
  output : Option String
  chain : Chain
  deriving DecidableEq

inductive FileError where
  | read (path : String) (fault : FileFault)
  | lower (path : String) (fault : Fault)
  | unnamed (path : String)
  | write (path : String) (fault : FileFault)
  deriving DecidableEq

def FileError.message : FileError → String
  | .read path fault => "Could not read " ++ path ++ ": " ++ fault.message
  | .lower path fault => path ++ ": parsing error: " ++ fault.message
  | .unnamed path => "Cannot derive an output file name from " ++ path
  | .write path fault =>
      "Could not create output file " ++ path ++ ": " ++ fault.message

def outputPath (suffix path : String) : Except FileError String :=
  match Path.output? suffix path with
  | some output => .ok output
  | none => .error (.unnamed path)

section

variable {m : Type → Type} [Monad m] [FileStore m]

def readSource (path : String) : m (Except FileError String) := do
  match ← FileStore.read path with
  | .error fault => return .error (.read path fault)
  | .ok content =>
      match textOf content with
      | .error fault => return .error (.read path fault)
      | .ok source => return .ok source

/-- Writes the text of a chain beside the file that it comes from, unless it
is only shown. -/
def writeChain (options : FileOptions) (input : String) (chain : Chain) :
    m (Except FileError (Option String)) := do
  if options.toStdout then
    return .ok none
  else
    match outputPath options.suffix input with
    | .error error => return .error error
    | .ok output =>
        match ← FileStore.write output (chain.text options.target).toUTF8 with
        | .error fault => return .error (.write output fault)
        | .ok _ => return .ok (some output)

/-- Lowers one file; the events come with the outcome. -/
def lowerFile (options : FileOptions) (input : String) :
    m (Except FileError FileOutcome × List Event) := do
  match ← readSource input with
  | .error error => return (.error error, [])
  | .ok source =>
      let lowering := Lowering.ofSource source
      match lowering.outcome with
      | .error fault =>
          return (.error (.lower input fault),
            lowering.events ++ [.fileFailed input fault])
      | .ok chain =>
          match ← writeChain options input chain with
          | .error error => return (.error error, lowering.events)
          | .ok output =>
              return (.ok ⟨input, output, chain⟩,
                lowering.events ++ [.fileDone input chain.stages.length])

end

end SelectChain

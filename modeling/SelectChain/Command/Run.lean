import SelectChain.Command.Arguments
import SelectChain.Command.Reference

/-!
# Carrying out commands

What each command shows and writes.  Files are lowered one after the other, and
none is kept from its turn by a fault of another.
-/

namespace SelectChain

inductive CommandError where
  | lowering (fault : Fault)
  | file (error : FileError)
  | input (fault : FileFault)
  | noInput
  | filesFailed (failed total : Nat)
  deriving DecidableEq

def CommandError.message : CommandError → String
  | .lowering fault => "Parsing error: " ++ fault.message
  | .file error => error.message
  | .input fault => "IO error: " ++ fault.message
  | .noInput =>
      "No input provided. Pass a pipeline as an argument or pipe it to stdin."
  | .filesFailed failed total =>
      toString failed ++ " of " ++ toString total ++
        " file(s) failed to translate"

/-- What a run of the program leaves behind, its files apart. -/
structure Transcript where
  stdout : String
  stderr : String
  events : List Event
  exitCode : Nat
  deriving DecidableEq

namespace Transcript

def success (stdout : String) : Transcript :=
  ⟨stdout, "", [], 0⟩

def failure (error : CommandError) : Transcript :=
  ⟨"", error.message ++ "\n", [], 1⟩

end Transcript

/-- Lowers one text as a command does. -/
def checkSource (source : String) : Except CommandError Chain :=
  match lower source with
  | .ok chain => .ok chain
  | .error fault => .error (.lowering fault)

/-! ## Reports -/

def ReportOptions.showChain (report : ReportOptions) (target : Target)
    (chain : Chain) : String :=
  if report.json then (chain.toJson target).pretty ++ "\n"
  else
    chain.text target ++ "\n" ++
      if report.symbols then chain.report else ""

def FileOutcome.toJson (target : Target) (outcome : FileOutcome) : Json :=
  .object
    (outcome.chain.members target ++
      [("input", .str outcome.input),
        ("written_to",
          match outcome.output with
          | some path => .str path
          | none => .null)])

def ReportOptions.showOutcome (report : ReportOptions)
    (options : FileOptions) (outcome : FileOutcome) : String :=
  if report.json then (outcome.toJson options.target).pretty ++ "\n"
  else
    "Parsing was successful: " ++ outcome.input ++
      (match outcome.output with
        | some path => " -> " ++ path
        | none => "") ++
      "\n" ++
      (if options.toStdout then outcome.chain.text options.target ++ "\n"
        else "") ++
      if report.symbols then outcome.chain.report else ""

/-! ## Batches of files -/

/-- What a number of files leave behind, the files themselves apart. -/
structure Batch where
  stdout : String
  stderr : String
  events : List Event
  failed : Nat
  deriving DecidableEq

namespace Batch

def empty : Batch :=
  ⟨"", "", [], 0⟩

def ofFile (report : ReportOptions) (options : FileOptions) :
    Except FileError FileOutcome × List Event → Batch
  | (.ok outcome, events) =>
      ⟨report.showOutcome options outcome, "", events, 0⟩
  | (.error error, events) =>
      ⟨"", (CommandError.file error).message ++ "\n", events, 1⟩

def append (first second : Batch) : Batch :=
  ⟨first.stdout ++ second.stdout, first.stderr ++ second.stderr,
    first.events ++ second.events, first.failed + second.failed⟩

/-- A batch fails if one of its files does. -/
def transcript (batch : Batch) (total : Nat) : Transcript :=
  if batch.failed = 0 then
    ⟨batch.stdout, batch.stderr, batch.events, 0⟩
  else
    ⟨batch.stdout,
      batch.stderr ++
        (CommandError.filesFailed batch.failed total).message ++ "\n",
      batch.events, 1⟩

end Batch

section

variable {m : Type → Type} [Monad m] [FileStore m]

def lowerEach (report : ReportOptions) (options : FileOptions) :
    List String → m Batch
  | [] => return .empty
  | file :: more => do
      let outcome ← lowerFile options file
      let rest ← lowerEach report options more
      return (Batch.ofFile report options outcome).append rest

/-- The text to check: the one given, or else the standard input.  A terminal
gives no input. -/
def sourceText (readInput : m (Option ByteArray)) :
    Option String → m (Except CommandError String)
  | some source => return .ok source
  | none => do
      match ← readInput with
      | none => return .error .noInput
      | some content =>
          match textOf content with
          | .ok source => return .ok source
          | .error fault => return .error (.input fault)

def Command.run (readInput : m (Option ByteArray)) :
    Command → m Transcript
  | .lowerFiles files options report => do
      let batch ← lowerEach report options files
      return batch.transcript files.length
  | .check source target report => do
      match ← sourceText readInput source with
      | .error error => return .failure error
      | .ok source =>
          let events := (Lowering.ofSource source).events
          match checkSource source with
          | .error error => return { Transcript.failure error with events }
          | .ok chain =>
              let shown := report.showChain target chain
              return { Transcript.success shown with events }
  | .grammar => return .success Command.reference

/-! ## Whole runs -/

def versionLine : String :=
  "rdd2df 0.2.0\n"

def usageText : String :=
  "Usage: rdd2df [-v] translate [OPTIONS] FILES...\n" ++
    "       rdd2df [-v] check [OPTIONS] [SOURCE]\n" ++
    "       rdd2df grammar\n" ++
    "Options: --symbols --json --namespace NAME --inline\n" ++
    "         translate only: --stdout --suffix SUFFIX\n"

/-- The transcript of a run without a command. -/
def Stop.transcript : Stop → Transcript
  | .usage => ⟨"", usageText, [], 2⟩
  | .help => .success usageText
  | .version => .success versionLine

def runCommandLine (environment : String → Option String)
    (readInput : m (Option ByteArray)) (words : List String) :
    m Transcript :=
  match Invocation.read environment words with
  | .error stop => return stop.transcript
  | .ok invocation => invocation.command.run readInput

end

end SelectChain

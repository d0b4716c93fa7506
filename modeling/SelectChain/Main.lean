import SelectChain.Command.Run

/-!
# The program

The outermost layer: files, standard streams and the environment of the system.
-/

namespace SelectChain.Program

/-- The number of a system error; some calls report it negated. -/
def errorNumber (code : UInt32) : Nat :=
  if code.toNat < 0x80000000 then code.toNat else 0x100000000 - code.toNat

/-- A numbered system error as a fault of the store. -/
def faultOfCode (code : UInt32) (details : String) : FileFault :=
  match errorNumber code with
  | 2 => .missing
  | 20 => .notADirectory
  | 21 => .isADirectory
  | 36 => .nameTooLong
  | number => .system details.capitalize number

def faultOf : IO.Error → FileFault
  | .noFileOrDirectory _ code details => faultOfCode code details
  | .noSuchThing _ code details => faultOfCode code details
  | .inappropriateType _ code details => faultOfCode code details
  | .permissionDenied _ code details => faultOfCode code details
  | .resourceExhausted _ code details => faultOfCode code details
  | .invalidArgument _ code details => faultOfCode code details
  | error => .system (toString error) 0

def attempt {α : Type} (action : IO α) : IO (Except FileFault α) := do
  match ← action.toBaseIO with
  | .ok value => return .ok value
  | .error error => return .error (faultOf error)

instance : FileStore IO where
  read path := attempt (IO.FS.readBinFile path)
  write path content := attempt (IO.FS.writeBinFile path content)

/-- All of the standard input, unless it is a terminal. -/
def readInput : IO (Option ByteArray) := do
  let stdin ← IO.getStdin
  if ← stdin.isTty then
    return none
  else
    return some (← stdin.readBinToEnd)

def logLine (event : Event) : String :=
  event.level.label ++ " " ++ event.message ++
    String.join (event.fields.map fun field => " " ++ field.1 ++ "=" ++ field.2)

def isShown (verbosity : Nat) (event : Event) : Bool :=
  match event.level with
  | .trace => 2 ≤ verbosity
  | .debug => 1 ≤ verbosity
  | .info => 1 ≤ verbosity
  | .warn => 1 ≤ verbosity

/-- The values of the environment variables that settings look at. -/
def readEnvironment : IO (String → Option String) := do
  let session ← IO.getEnv (Command.Setting.environmentName .session)
  let suffix ← IO.getEnv (Command.Setting.environmentName .suffix)
  return fun name =>
    if name = Command.Setting.environmentName .session then session
    else if name = Command.Setting.environmentName .suffix then suffix
    else none

end SelectChain.Program

open SelectChain in
def main (words : List String) : IO UInt32 := do
  let environment ← Program.readEnvironment
  let transcript : Transcript ←
    runCommandLine environment Program.readInput words
  let verbosity :=
    match Invocation.read environment words with
    | .ok invocation => invocation.verbosity
    | .error _ => 0
  let stderr ← IO.getStderr
  for event in transcript.events.filter (Program.isShown verbosity) do
    stderr.putStrLn (Program.logLine event)
  (← IO.getStdout).putStr transcript.stdout
  stderr.putStr transcript.stderr
  return transcript.exitCode.toUInt32

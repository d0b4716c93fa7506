import SelectChain.FileLowering

/-!
# Command lines

The words of a command line are read one after the other.  In front of the
command stand only general options; behind it come the switches and settings
that the command allows, mixed with its operands.  A double dash makes all
further words operands, and so does the command `help`.  A word that does not
fit is refused where it stands, and a request for help or for the version ends
the reading where it is met, so the earlier of the two decides.
-/

namespace SelectChain

/-- What a report shows beside the chain. -/
structure ReportOptions where
  symbols : Bool
  json : Bool
  deriving DecidableEq

inductive Command where
  | lowerFiles
      (files : List String) (options : FileOptions) (report : ReportOptions)
  /-- Lowers one text, given here or read from the standard input. -/
  | check (source : Option String) (target : Target) (report : ReportOptions)
  | grammar
  deriving DecidableEq

/-- A command and how much of the log is shown with it. -/
structure Invocation where
  verbosity : Nat
  command : Command
  deriving DecidableEq

inductive Stop where
  | usage
  | help
  | version
  deriving DecidableEq

namespace Command

/-- The commands, without their options. -/
inductive Form where
  | lowerFiles
  | check
  | grammar
  | help
  deriving DecidableEq

/-- Options that are given or not. -/
inductive Switch where
  | symbols
  | json
  | inline
  | stdout
  deriving DecidableEq

/-- Options with a value. -/
inductive Setting where
  | session
  | suffix
  deriving DecidableEq

def Form.ofWord? : String → Option Form
  | "translate" => some .lowerFiles
  | "check" => some .check
  | "grammar" => some .grammar
  | "help" => some .help
  | _ => none

def Switch.ofName? : String → Option Switch
  | "symbols" => some .symbols
  | "json" => some .json
  | "inline" => some .inline
  | "stdout" => some .stdout
  | _ => none

def Setting.ofName? : String → Option Setting
  | "namespace" => some .session
  | "suffix" => some .suffix
  | _ => none

def Setting.environmentName : Setting → String
  | .session => "RDD2DF_NAMESPACE"
  | .suffix => "RDD2DF_SUFFIX"

/-- The value of a setting that is given nowhere. -/
def Setting.standard : Setting → String
  | .session => Target.standard.session
  | .suffix => Path.standardSuffix

def Form.allowsSwitch : Form → Switch → Bool
  | .lowerFiles, _ => true
  | .check, switch => switch != .stdout
  | .grammar, _ | .help, _ => false

def Form.allowsSetting : Form → Setting → Bool
  | .lowerFiles, _ => true
  | .check, setting => setting == .session
  | .grammar, _ | .help, _ => false

/-- Whether a command takes a word as an operand behind those it has: any
number of files with a name, one text, no word at all, or one command to tell
about. -/
def Form.takesOperand (form : Form) (operands : List String)
    (word : String) : Bool :=
  match form with
  | .lowerFiles => word != ""
  | .check => operands.isEmpty
  | .grammar => false
  | .help => operands.isEmpty && (Form.ofWord? word).isSome

/-- What has been read of a command line. -/
structure Arguments where
  verbosity : Nat
  form : Option Form
  switches : List Switch
  settings : List (Setting × String)
  /-- A setting whose value is the next word. -/
  pending : Option Setting
  /-- Whether all further words are operands. -/
  literal : Bool
  operands : List String
  deriving DecidableEq

namespace Arguments

def empty : Arguments :=
  ⟨0, none, [], [], none, false, []⟩

def moreVerbose (args : Arguments) : Arguments :=
  { args with verbosity := args.verbosity + 1 }

/-- A single dash is an operand like any other. -/
def looksLikeOption : List Char → Bool
  | '-' :: _ :: _ => true
  | _ => false

def addSwitch (args : Arguments) (form : Form) (switch : Switch)
    (value : Option String) : Except Stop Arguments :=
  if form.allowsSwitch switch && !args.switches.contains switch &&
      value.isNone then
    .ok { args with switches := switch :: args.switches }
  else .error .usage

def addSetting (args : Arguments) (form : Form) (setting : Setting)
    (value : Option String) : Except Stop Arguments :=
  if form.allowsSetting setting &&
      (args.settings.lookup setting).isNone then
    match value with
    | some value =>
        .ok { args with settings := (setting, value) :: args.settings }
    | none => .ok { args with pending := some setting }
  else .error .usage

/-- An option of a command, by its long name. -/
def readOption (args : Arguments) (name : String) (value : Option String) :
    Except Stop Arguments :=
  match args.form with
  | none => .error .usage
  | some form =>
      match Switch.ofName? name, Setting.ofName? name with
      | some switch, _ => args.addSwitch form switch value
      | none, some setting => args.addSetting form setting value
      | none, none => .error .usage

/-- The version can be asked for only in front of a command. -/
def askVersion (args : Arguments) : Except Stop Arguments :=
  .error (if args.form.isNone then .version else .usage)

/-- A long option behind its dashes.  A value may follow an equals sign. -/
def readLong (args : Arguments) (chars : List Char) :
    Except Stop Arguments :=
  let name := String.ofList (chars.takeWhile (· != '='))
  match name, chars.dropWhile (· != '=') with
  | "verbose", [] => .ok args.moreVerbose
  | "help", [] => .error .help
  | "version", [] => args.askVersion
  | _, [] => args.readOption name none
  | _, _ :: value => args.readOption name (some (String.ofList value))

/-- Short options behind their common dash. -/
def readShort (args : Arguments) : List Char → Except Stop Arguments
  | [] => .ok args
  | 'v' :: more => args.moreVerbose.readShort more
  | 'h' :: _ => .error .help
  | 'V' :: _ => args.askVersion
  | _ :: _ => .error .usage

def readPlain (args : Arguments) (word : String) : Except Stop Arguments :=
  match args.form with
  | some form =>
      if form.takesOperand args.operands word then
        .ok { args with operands := args.operands ++ [word] }
      else .error .usage
  | none =>
      match Form.ofWord? word with
      | some form =>
          .ok { args with form := some form, literal := form == .help }
      | none => .error .usage

def readWord (args : Arguments) (word : String) : Except Stop Arguments :=
  match args.pending with
  | some setting =>
      if looksLikeOption word.toList then .error .usage
      else
        .ok
          { args with
            settings := (setting, word) :: args.settings, pending := none }
  | none =>
      if args.literal then args.readPlain word
      else
        match word.toList with
        | ['-', '-'] =>
            if args.form.isNone then .error .usage
            else .ok { args with literal := true }
        | '-' :: '-' :: c :: more => args.readLong (c :: more)
        | '-' :: c :: more => args.readShort (c :: more)
        | _ => args.readPlain word

def readAll (args : Arguments) : List String → Except Stop Arguments
  | [] => .ok args
  | word :: more =>
      match args.readWord word with
      | .ok args => args.readAll more
      | .error stop => .error stop

/-- The value of a setting: from the command line, else from the environment,
else the standard one. -/
def setting (args : Arguments) (environment : String → Option String)
    (setting : Setting) : String :=
  match args.settings.lookup setting with
  | some value => value
  | none => (environment setting.environmentName).getD setting.standard

def target (args : Arguments) (environment : String → Option String) :
    Target :=
  ⟨args.setting environment .session,
    if args.switches.contains .inline then .inline else .stacked⟩

def report (args : Arguments) : ReportOptions :=
  ⟨args.switches.contains .symbols, args.switches.contains .json⟩

def fileOptions (args : Arguments) (environment : String → Option String) :
    FileOptions :=
  ⟨args.target environment, args.setting environment .suffix,
    args.switches.contains .stdout⟩

/-- The command of a whole command line, if nothing is missing. -/
def command (args : Arguments) (environment : String → Option String) :
    Except Stop Command :=
  match args.pending, args.form with
  | some _, _ => .error .usage
  | none, none => .error .usage
  | none, some .lowerFiles =>
      if args.operands.isEmpty then .error .usage
      else
        .ok
          (.lowerFiles args.operands (args.fileOptions environment)
            args.report)
  | none, some .check =>
      .ok (.check args.operands.head? (args.target environment) args.report)
  | none, some .grammar => .ok .grammar
  | none, some .help => .error .help

end Arguments

end Command

/-- Reads a command line; `environment` has the environment variables. -/
def Invocation.read (environment : String → Option String)
    (words : List String) : Except Stop Invocation :=
  match Command.Arguments.empty.readAll words with
  | .error stop => .error stop
  | .ok args =>
      match args.command environment with
      | .ok command => .ok ⟨args.verbosity, command⟩
      | .error stop => .error stop

end SelectChain

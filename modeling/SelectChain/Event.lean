import SelectChain.Error
import SelectChain.Text.Quoted
import SelectChain.Token

/-!
# Log events

What is worth a line in the log, from a single token up to a finished file.
Each event has a level, a message and named fields in a fixed order.
-/

namespace SelectChain

inductive Level where
  | trace
  | debug
  | info
  | warn
  deriving DecidableEq

def Level.label : Level → String
  | .trace => "TRACE"
  | .debug => "DEBUG"
  | .info => "INFO"
  | .warn => "WARN"

inductive Event where
  | scanned (token : Token)
  | unitScanned (tokens : Nat)
  | streamScanned (tokens : Nat)
  | bound (name text : String)
  | compiled (parameter : String) (columns : Nat) (text : String)
  | lowered (stages : Nat)
  | fileFailed (input : String) (fault : Fault)
  | fileDone (input : String) (stages : Nat)
  deriving DecidableEq

namespace Event

def level : Event → Level
  | .scanned _ => .trace
  | .unitScanned _ | .streamScanned _ | .bound .. | .compiled ..
  | .lowered _ => .debug
  | .fileFailed .. => .warn
  | .fileDone .. => .info

def message : Event → String
  | .scanned _ => "scanned token"
  | .unitScanned _ => "scanned translation unit"
  | .streamScanned _ => "scanned character stream"
  | .bound .. => "bound name"
  | .compiled .. => "compiled transformation"
  | .lowered _ => "pipeline translated"
  | .fileFailed .. => "translation failed"
  | .fileDone .. => "translated file"

/-- The fields behind the message, in order. -/
def fields : Event → List (String × String)
  | .scanned token =>
      [("line", toString token.line), ("kind", token.kind.label),
        ("text", Text.quoted token.text)]
  | .unitScanned tokens => [("tokens", toString tokens)]
  | .streamScanned tokens => [("tokens", toString tokens)]
  | .bound name text => [("name", name), ("text", text)]
  | .compiled parameter columns text =>
      [("parameter", parameter), ("columns", toString columns),
        ("text", text)]
  | .lowered stages => [("transformations", toString stages)]
  | .fileFailed input fault => [("input", input), ("kind", fault.kind)]
  | .fileDone input stages =>
      [("input", input), ("transformations", toString stages)]

/-- Whether an event tells of a single token. -/
def isScan : Event → Bool
  | .scanned _ => true
  | _ => false

end Event

end SelectChain

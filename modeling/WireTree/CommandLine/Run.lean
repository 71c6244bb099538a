import WireTree.CommandLine.Arguments
import WireTree.Tools
import WireTree.WhiteSpace

/-!
# Running the tools

What a tool answers to its arguments and its input.

* `CommandLine.run` gives the exit code and what is written to the two outputs. How standard input
  and files are read is given to it, so that it can be run on plain values as well.
* Success exits with 0, failure with 1 and misuse with 2.
* The packing tool takes white space off the ends of its input; its output is a buffer. The
  validating tool fails if the buffer does not pass the check, without a word on the error output.
-/

namespace WireTree.CommandLine

/-- What a tool leaves behind. -/
structure Outcome where
  exit : Nat
  stdout : List UInt8 := []
  stderr : String := ""
  deriving DecidableEq, Repr

/-- Success with some text. -/
def Outcome.text (s : String) : Outcome :=
  { exit := 0, stdout := Utf8.encode s }

/-- Failure with an error message. -/
def Outcome.failure (e : ToolError) : Outcome :=
  { exit := 1, stderr := e.message ++ "\n" }

/-- Misuse of a tool. -/
def Outcome.misuse (tool : Tool) : Outcome :=
  { exit := 2, stderr := "usage: " ++ tool.name ++ " [OPTIONS]\n" }

/-- The version of the tools. -/
def version : String := "0.1.0"

/-- Packs the text on standard input. -/
def runPack (stdin : List UInt8) : Outcome :=
  match Utf8.decode? stdin with
  | none => .failure (.file .notUtf8)
  | some text =>
    match pack (WhiteSpace.trim text) with
    | .ok bytes => { exit := 0, stdout := bytes }
    | .error e => .failure e

/-- Unpacks the buffer on standard input. -/
def runUnpack (s : Settings) (stdin : List UInt8) : Outcome :=
  match unpack s.options stdin with
  | .ok text => .text (text ++ "\n")
  | .error e => .failure e

/-- Checks a buffer, if it could be read, and reports on it as far as it is told to. -/
def runValidate (s : Settings) (input : Except FileError (List UInt8)) : Outcome :=
  match input with
  | .error e => .failure (.file e)
  | .ok bytes =>
    let i := inspect s.options bytes
    let size := if s.has .size then s!"{i.declared}\n" else ""
    let explanation := if s.has .explain then i.explain ++ "\n" else ""
    { exit := if i.isValid then 0 else 1, stdout := Utf8.encode (size ++ explanation) }

/-- Runs a tool. The validating tool reads the file that it is given, and otherwise, as the other
tools always do, standard input. -/
def run {m : Type → Type} [Monad m] (tool : Tool) (args : List String) (stdin : m (List UInt8))
    (readFile : String → m (Except FileError (List UInt8))) : m Outcome :=
  match parse tool args with
  | .misuse => return .misuse tool
  | .help => return .text ("usage: " ++ tool.name ++ " [OPTIONS]\n")
  | .version => return .text (tool.name ++ " " ++ version ++ "\n")
  | .run s =>
    match tool, s.file with
    | .pack, _ => return runPack (← stdin)
    | .unpack, _ => return runUnpack s (← stdin)
    | .validate, none => return runValidate s (.ok (← stdin))
    | .validate, some path => return runValidate s (← readFile path)

end WireTree.CommandLine

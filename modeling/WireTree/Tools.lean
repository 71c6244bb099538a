import WireTree.Decode
import WireTree.Encode
import WireTree.Json.Printer
import WireTree.Json.Reader

/-!
# Tools

What the three command-line tools do, without their command lines.

* `pack` turns JSON text into a buffer.
* `unpack` turns a buffer into JSON text for people. The buffer is checked first, unless unknown
  tags are to be read as null, which no check lets pass.
* `inspect` reports on a buffer: its declared size, its length and whether it passes the check.
-/

namespace WireTree

/-- Why a file could not be read. -/
inductive FileError where
  | notFound
  | isDirectory
  | notUtf8
  | other (message : String)
  deriving DecidableEq, Repr

/-- The wording of a file error. -/
def FileError.message : FileError → String
  | notFound => "No such file or directory (os error 2)"
  | isDirectory => "Is a directory (os error 21)"
  | notUtf8 => "stream did not contain valid UTF-8"
  | other message => message

/-- Why a tool failed. -/
inductive ToolError where
  /-- The text is not JSON. -/
  | json
  /-- The input could not be read. -/
  | file (e : FileError)
  /-- The buffer is refused. -/
  | decode (e : DecodeError)
  /-- The tree cannot be written. -/
  | encode (e : EncodeError)
  deriving DecidableEq, Repr

namespace ToolError

/-- The stable name of the cause. -/
def code : ToolError → String
  | json => "INVALID_JSON"
  | file _ => "IO"
  | decode e => e.code
  | encode e => e.code

/-- The wording of the error. -/
def message : ToolError → String
  | json => "invalid JSON text"
  | file e => e.message
  | decode e => "invalid BOS buffer: " ++ e.message
  | encode e => e.message

end ToolError

/-- Encodes a JSON text. -/
def pack (text : String) : Except ToolError (List UInt8) :=
  match Json.ofText? text with
  | none => .error .json
  | some j => ((AppendBuffer.empty AppendBuffer.defaultChunk).encodeJson j).1.mapError .encode

/-- Decodes a buffer into JSON text for people. -/
def unpack (o : Options) (bytes : List UInt8) : Except ToolError String := do
  if o.unknownTags = .reject then
    (check o bytes).mapError ToolError.decode
  let j ← (decodeJson o bytes).mapError ToolError.decode
  return j.pretty

/-- A report on a buffer. -/
structure Inspection where
  /-- What the header declares, and zero if it is cut off. -/
  declared : UInt32
  /-- The number of bytes there are. -/
  length : Nat
  result : Except DecodeError Unit

namespace Inspection

/-- Whether the buffer passes the check. -/
def isValid (i : Inspection) : Bool :=
  i.result.isOk

/-- The report as one line. -/
def explain (i : Inspection) : String :=
  match i.result with
  | .ok () => s!"valid: declared size {i.declared} ({i.length} bytes supplied)"
  | .error e => s!"invalid [{e.code}]: {e.message}"

end Inspection

/-- Reports on a buffer. -/
def inspect (o : Options) (bytes : List UInt8) : Inspection where
  declared := declaredSize bytes
  length := bytes.length
  result := check o bytes

end WireTree

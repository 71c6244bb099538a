import WireTree.CommandLine.Run

/-!
# The program

The first argument names a tool, and the others are the arguments of that tool.
-/

namespace WireTree

/-- Reads a stream to its end. -/
partial def readAll (stream : IO.FS.Stream) (before : ByteArray) : IO ByteArray := do
  let chunk ← stream.read 65536
  if chunk.isEmpty then return before else readAll stream (before ++ chunk)

/-- The bytes of a file. -/
def readFile (path : String) : IO (Except FileError (List UInt8)) := do
  try
    return .ok (← IO.FS.readBinFile path).data.toList
  catch
    | .noFileOrDirectory .. => return .error .notFound
    | .inappropriateType .. => return .error .isDirectory
    | e => return .error (.other (toString e))

end WireTree

/-- Runs the tool that the first argument names. -/
def main (args : List String) : IO UInt32 := do
  match args with
  | [] => return 2
  | name :: args =>
    match WireTree.Tool.ofName? name with
    | none => return 2
    | some tool =>
      let stdin := do return (← WireTree.readAll (← IO.getStdin) .empty).data.toList
      let outcome ← WireTree.CommandLine.run tool args stdin WireTree.readFile
      (← IO.getStdout).write ⟨outcome.stdout.toArray⟩
      (← IO.getStderr).putStr outcome.stderr
      return UInt32.ofNat outcome.exit

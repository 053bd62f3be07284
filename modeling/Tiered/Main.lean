import Tiered.CommandLine

/-!
The program: its input and output, files and exit code.
-/
namespace Tiered.CommandLine

/-- The reason of a failure, with the number the system gives it. -/
def reason (e : IO.Error) : String :=
  match e with
  | .noFileOrDirectory _ code details | .permissionDenied (some _) code details
  | .inappropriateType (some _) code details | .invalidArgument (some _) code details =>
    details ++ " (os error " ++ toString code ++ ")"
  | e => toString e

def decode (bytes : ByteArray) : Except String String :=
  match String.fromUTF8? bytes with
  | some text => .ok text
  | none => .error "stream did not contain valid UTF-8"

/-- All bytes of a stream. -/
partial def readToEnd (stream : IO.FS.Stream) (read : ByteArray) : IO ByteArray := do
  let more ← stream.read 65536
  if more.isEmpty then return read
  readToEnd stream (read ++ more)

def caught {α : Type} (action : IO (Except String α)) : IO (Except String α) := do
  try action catch e => return .error (reason e)

def system : World IO where
  input := caught do return decode (← readToEnd (← IO.getStdin) .empty)
  load path := caught do return decode (← IO.FS.readBinFile path)
  save path text := caught do return .ok (← IO.FS.writeFile path text)

end Tiered.CommandLine

def main (args : List String) : IO UInt32 := do
  let outcome ← Tiered.CommandLine.run Tiered.CommandLine.system args
  IO.print outcome.output
  if let some line := outcome.errorLine then IO.eprintln line
  if outcome.exitCode = 2 then IO.eprint Tiered.CommandLine.usage
  return outcome.exitCode.toUInt32

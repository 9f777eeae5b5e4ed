/-
  CssLexer.Main — the command on a real terminal: reads the source, prints the report.
-/

import CssLexer.Command

namespace CssLexer.Command

/-- Everything that a stream still holds, behind the bytes already read. -/
partial def drain (stream : IO.FS.Stream) (before : ByteArray) : IO ByteArray := do
  let bytes ← stream.read 65536
  if bytes.isEmpty then return before else drain stream (before ++ bytes)

def decodeBytes (bytes : ByteArray) : Except ReadFailure Text :=
  match String.fromUTF8? bytes with
  | some s => .ok s.toList
  | none => .error .invalidEncoding

def failureOf : IO.Error → ReadFailure
  | .noFileOrDirectory .. => .notFound
  | .inappropriateType .. => .isDirectory
  | e => .other (toString e)

def readSource : Source → IO (Except ReadFailure Text)
  | .inline css => return .ok css
  | .file path => do
    try return decodeBytes (← IO.FS.readBinFile (String.ofList path))
    catch e => return .error (failureOf e)
  | .standardInput => do
    try return decodeBytes (← drain (← IO.getStdin) .empty)
    catch e => return .error (failureOf e)

/-- Whether warnings are printed in colour, as far as the terminal and the environment go. -/
def warningsInColor : IO Bool := do
  match ← IO.getEnv "FORCE_COLOR" with
  | some force => return force != "0" && force != "false"
  | none => return (← IO.getEnv "NO_COLOR").isNone && (← (← IO.getStderr).isTty)

end CssLexer.Command

open CssLexer.Command in
def main (arguments : List String) : IO UInt32 := do
  let report ← run readSource (← warningsInColor) (arguments.map String.toList)
  IO.eprint (String.ofList report.stderr)
  IO.print (String.ofList report.stdout)
  return report.exit.toUInt32

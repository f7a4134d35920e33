import Formula.CommandLine

namespace Formula

partial def readLine (stdin : IO.FS.Stream) (line : List UInt8) : IO (List UInt8) := do
  let bytes ← stdin.read 1
  match bytes.toList with
  | [] => return line.reverse
  | b :: _ => if b = Text.newline then return (b :: line).reverse else readLine stdin (b :: line)

partial def interact (stdin stdout stderr : IO.FS.Stream) (t : Turn) : IO UInt32 := do
  stdout.putStr t.output
  stdout.flush
  match t.next with
  | .exit code reports =>
    stderr.putStr (Report.renderAll reports)
    return code.toUInt32
  | .read s =>
    match Text.takeLine (← readLine stdin []) with
    | some (line, _) => interact stdin stdout stderr (s.hear line)
    | none => return 0

end Formula

def main (args : List String) : IO UInt32 := do
  let stdout ← IO.getStdout
  let stderr ← IO.getStderr
  match Formula.Options.ofArgs args with
  | .ok o => Formula.interact (← IO.getStdin) stdout stderr o.start
  | .error stop =>
    let transcript := stop.transcript
    stdout.putStr transcript.stdout
    stderr.putStr transcript.stderr
    return transcript.code.toUInt32

import Reckon.Session

namespace Reckon.Session

partial def readLine (input : IO.FS.Stream) (line : List UInt8) : IO (List UInt8) := do
  let bytes ← input.read 1
  match bytes.data.toList with
  | [] => return line.reverse
  | byte :: _ => if byte = 10 then return (byte :: line).reverse else readLine input (byte :: line)

partial def converse (input output : IO.FS.Stream) : IO UInt32 := do
  output.putStr (String.ofList prompt)
  output.flush
  let line ← readLine input []
  if line.isEmpty then return 0
  match answer? line with
  | none => return 1
  | some answer =>
    output.putStr (String.ofList answer)
    converse input output

end Reckon.Session

def main : IO UInt32 := do
  Reckon.Session.converse (← IO.getStdin) (← IO.getStdout)

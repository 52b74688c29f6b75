import Reckon.Parse

namespace Reckon.Session

def prompt : List Char := "> ".toList

def places : Nat := 5

-- A blank line is refused here, although as an expression it would be zero.
def response (line : List Char) : List Char :=
  let expression := Text.trim line
  if expression = [] then "Error: No expression on the input".toList
  else match evaluate expression with
    | .ok value => Scalar.placesText places value
    | .error fault => "Error: ".toList ++ fault.message

def lines : List UInt8 → List (List UInt8)
  | [] => []
  | byte :: rest =>
    if byte = 10 then [byte] :: lines rest
    else match lines rest with
      | [] => [[byte]]
      | line :: later => (byte :: line) :: later

structure Transcript where
  output : List Char
  code : Nat
  deriving DecidableEq

def answer? (line : List UInt8) : Option (List Char) :=
  (Text.ofOctets? line).map fun s => response s ++ ['\n']

-- The prompt also stands before the end of the input and before a line that ends the session.
def transcript : List (List UInt8) → Transcript
  | [] => ⟨prompt,0⟩
  | line :: later =>
    match answer? line with
    | none => ⟨prompt,1⟩
    | some answer =>
      let rest := transcript later
      ⟨prompt ++ answer ++ rest.output,rest.code⟩

def run (input : List UInt8) : Transcript := transcript (lines input)

end Reckon.Session

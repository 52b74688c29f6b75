import Reckon.Parse

namespace Reckon

inductive Stored where
  | null
  | boolean (value : Bool)
  | integer (value : Int)
  | floating (value : Float)
  | text (value : List Char)
  | sequence
  | mapping

structure Expression (α : Type) where
  text : List Char
  root : Tree α

inductive LoadError where
  | unreadable (fault : ParseError)
  | unexpected (found : Stored)

namespace LoadError

def expected : List Char := "a str that can be parsed by `splitex` crate".toList

-- A store refuses what is no text in its own words, given what was found and what was expected.
def message (refusal : Stored → List Char → List Char) : LoadError → List Char
  | unreadable fault => "Parse error - ".toList ++ fault.message
  | unexpected found => refusal found expected

end LoadError

namespace Expression
variable {α : Type}

def read (α : Type) [Constant α] (s : List Char) : Except ParseError (Expression α) :=
  (parse α s).map fun root => ⟨s,root⟩

-- Reading where the wanted type is known from elsewhere.
def ofText [Constant α] (s : List Char) : Except ParseError (Expression α) := read α s

def eval [Scalar α] (e : Expression α) : α := e.root.eval

def equal [Scalar α] (e f : Expression α) : Bool := e.text = f.text && e.root.equal f.root

def store (e : Expression α) : Stored := .text e.text

def load (α : Type) [Constant α] : Stored → Except LoadError (Expression α)
  | .text s => (read α s).mapError .unreadable
  | other => .error (.unexpected other)

end Expression
end Reckon

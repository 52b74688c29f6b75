import Reckon.Parse

namespace Reckon

-- Positions are byte offsets.
inductive Event where
  | splitting (text : List Char) (position : Nat) (op : Operator)
  | stripping (before after : List Char)
  | evaluated (text : List Char) (value : Float)

namespace Event

inductive Level where
  | trace
  | debug
  deriving DecidableEq

def level : Event → Level
  | splitting .. => .trace
  | stripping .. => .trace
  | evaluated .. => .debug

def message : Event → List Char
  | splitting text position op =>
    "splitting '".toList ++ text ++ "' at ".toList ++ (digits position).map Digit.char ++
      " by '".toList ++ [op.symbol] ++ "'".toList
  | stripping before after =>
    "stripped brackets of '".toList ++ before ++ "' to '".toList ++ after ++ "'".toList
  | evaluated text value =>
    "evaluated '".toList ++ text ++ "' to ".toList ++ Scalar.text value

end Event

namespace Dissection

def succeeds : Dissection → Bool
  | empty => true
  | digitless => false
  | leaf s => (Numeral.ofChars? s).isSome
  | stripped _ inner => inner.succeeds
  | split _ left right => left.succeeds && right.succeeds

def events (s : List Char) : Dissection → List Event
  | stripped pair inner => .stripping s (strip s pair) :: inner.events (strip s pair)
  | split cut left right =>
    .splitting s (Text.byteLength (s.take cut.point)) cut.op ::
      (left.events (s.take cut.point) ++
        if left.succeeds then right.events (s.drop (cut.point + 1)) else [])
  | _ => []

end Dissection

def report (s : List Char) : List Event :=
  let clean := Text.removeBlanks s
  (dissect clean).events clean ++
    match evaluate s with
    | .ok value => [.evaluated s value]
    | .error _ => []

end Reckon

/-! # Spans

The part of a file a tree was read from, as two byte offsets; the second one is exclusive.
A span says where something stands, it does not promise to be in order: the length of an
inverted span is an error, not zero.
-/
namespace CoreTree
set_option autoImplicit false

structure Span where
  start : Nat
  stop : Nat
deriving DecidableEq, Inhabited

namespace Span

def nowhere : Span := ⟨0, 0⟩

/-- The least span that starts no later than either and stops no earlier than either. -/
def merge (a b : Span) : Span := ⟨min a.start b.start, max a.stop b.stop⟩

def isEmpty (s : Span) : Bool := s.start == s.stop

inductive LengthError where
  | inverted
deriving DecidableEq

def LengthError.message : LengthError → String
  | .inverted => "attempt to subtract with overflow"

def length (s : Span) : Except LengthError Nat :=
  if s.start ≤ s.stop then .ok (s.stop - s.start) else .error .inverted

def text (s : Span) : String := s!"{s.start}..{s.stop}"

end Span

end CoreTree

/-!
# Source ranges
-/
namespace TurtleScript

/-- The bytes from `start` up to but not including `stop`. -/
structure Span where
  start : Nat := 0
  stop : Nat := 0
deriving DecidableEq, Repr, Inhabited

namespace Span

/-- The smallest range that covers both. -/
def cover (a b : Span) : Span := ⟨min a.start b.start, max a.stop b.stop⟩

/-- A range that ends before it starts has no bytes. -/
def length (s : Span) : Nat := s.stop - s.start

def isEmpty (s : Span) : Bool := s.length = 0

def text (s : Span) : String := s!"{s.start}..{s.stop}"

end Span

end TurtleScript

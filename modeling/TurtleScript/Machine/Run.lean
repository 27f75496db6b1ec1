import TurtleScript.Machine.Step

/-!
# Runs

A run starts with the boot code, an empty stack and the globals, arrays and host state
that the run before left. It takes at most as many steps as its budget; the step that
ends it counts.
-/
namespace TurtleScript

/-- How a run ended. -/
inductive Ending where
  | finished (steps : Nat) (value : Option Value)
  | stopped (why : Stop)
deriving DecidableEq, Repr

namespace Machine

variable {σ : Type}

/-- Steps until the end, at most `left` of them; the rest of the budget is spent. -/
def advance (m : Machine σ) (budget : Nat) : (left : Nat) → State σ → Ending × State σ
  | 0, s => (.stopped (.fault (.stepLimit budget)), s)
  | left + 1, s =>
    match m.step s with
    | .ok .running s => m.advance budget left s
    | .ok (.halted value) s => (.finished (budget - left) value, s)
    | .error stop s => (.stopped stop, s)

/-- The state in which a run starts. -/
def boot (globals : Array Value) (heap : Heap) (host : σ) : State σ := { globals, heap, host }

def run (m : Machine σ) (budget : Nat) (globals : Array Value) (heap : Heap) (host : σ) :
    Ending × State σ :=
  m.advance budget budget (boot globals heap host)

end Machine

end TurtleScript

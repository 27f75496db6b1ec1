import Mathlib.Algebra.Group.Int.Defs
import Mathlib.Algebra.Group.Nat.Defs
import TurtleScript.Code.Generate
import TurtleScript.Machine.Run
import TurtleScript.Proofs.Monad
import TurtleScript.Proofs.Semantics.Evaluation

/-!
# Steps inside an activation

While a function runs, the frames below it and the stack under its base stay as they are.
What changes is the next instruction, its locals, the values above the base and the store.
The lemmas here say what each piece of an instruction does to these.
-/
namespace TurtleScript

open Semantics (Store)

namespace Machine

variable {σ : Type} {m : Machine σ} {s s₁ s₂ s' : State σ} {k n : Nat}

/-- `k` steps that all leave the machine running. -/
inductive Runs (m : Machine σ) : Nat → State σ → State σ → Prop where
  | refl (s : State σ) : Runs m 0 s s
  | step {k : Nat} {s s₁ s₂ : State σ} :
      m.step s = .ok .running s₁ → Runs m k s₁ s₂ → Runs m (k + 1) s s₂

theorem Runs.one (h : m.step s = .ok .running s') : Runs m 1 s s' := .step h (.refl s')

theorem Runs.trans (h : Runs m k s s₁) (h' : Runs m n s₁ s₂) : Runs m (k + n) s s₂ := by
  induction h with
  | refl => rwa [Nat.zero_add]
  | step hs _ ih =>
    rw [Nat.add_right_comm]
    exact .step hs (ih h')

theorem advance_runs (h : Runs m k s s') (budget left : Nat) :
    m.advance budget (k + left) s = m.advance budget left s' := by
  induction h with
  | refl => rw [Nat.zero_add]
  | step hs _ ih =>
    rw [Nat.add_right_comm, advance, hs]
    exact ih

end Machine

/-- The machine with a stack, the topmost value first, and a store in place of its own. -/
def State.atop {σ : Type} (frame : Frame) (callers : List Frame) (stack : List Value)
    (s : Store σ) : State σ where
  stack := stack.reverse.toArray
  frame := frame
  callers := callers
  globals := s.globals
  heap := s.heap
  host := s.host

/-- A number of values that fits in 32 bits can be added to any base. -/
theorem Exec.not_overflows {n : Nat} (hn : n < 2 ^ 32) (base : Nat) :
    ¬ UInt64.size ≤ min base Exec.capacity + n := by
  have := Nat.min_le_right base Exec.capacity
  have hcapacity : Exec.capacity = 2 ^ 63 - 1 := rfl
  have hsize : UInt64.size = 2 ^ 64 := rfl
  omega

/-- Values are popped together down to the base of the frame. -/
theorem Exec.popMany_over {σ : Type} {frame : Frame} {callers : List Frame} {under : List Value}
    {s : Store σ} (op : Opcode) (args : List Value) (hargs : args.length < 2 ^ 32)
    (hbase : frame.base ≤ under.length) :
    Exec.popMany args.length op (State.atop frame callers (args.reverse ++ under) s) =
      .ok args.toArray (State.atop frame callers under s) := by
  have hstack : (args.reverse ++ under).reverse.toArray = under.reverse.toArray ++ args.toArray := by
    simp
  have hlast (xs ys : Array Value) :
      (xs ++ ys).extract xs.size (xs.size + ys.size) = ys ∧ (xs ++ ys).shrink xs.size = xs := by
    simp [Array.extract_append]
  obtain ⟨htaken, hrest⟩ := hlast under.reverse.toArray args.toArray
  rw [Exec.popMany, if_neg (not_overflows hargs _), if_neg (by simp [State.atop]; omega)]
  simp only [State.atop, hstack, Array.size_append, List.size_toArray, Nat.add_sub_cancel]
    at htaken hrest ⊢
  rw [htaken, hrest]

/-- A function that runs, with everything that it leaves alone: the stack under its base,
the topmost value first, and the frames below. -/
structure Activation where
  function : FunctionDef
  under : List Value
  caller : Frame
  callers : List Frame

namespace Activation

variable {σ : Type}

/-- The machine before instruction `next`, with the values `temps` above the base, the
topmost first. -/
def state (a : Activation) (next : Nat) (locals : Array Value) (temps : List Value)
    (s : Store σ) : State σ :=
  .atop { function := some a.function, next, locals, base := a.under.length }
    (a.caller :: a.callers) (temps ++ a.under) s

variable {a : Activation} {next : Nat} {locals : Array Value} {temps : List Value} {s : Store σ}

theorem push_state (v : Value) :
    Exec.push v (a.state next locals temps s) = .ok () (a.state next locals (v :: temps) s) := by
  refine congrArg (EStateM.Result.ok ()) ?_
  simp [state, State.atop]

theorem pop_state (op : Opcode) (v : Value) :
    Exec.pop op (a.state next locals (v :: temps) s) = .ok v (a.state next locals temps s) := by
  rw [Exec.pop, if_neg (by simp [state, State.atop])]
  simp [state, State.atop]

theorem popMany_state (op : Opcode) (args : List Value) (hargs : args.length < 2 ^ 32) :
    Exec.popMany args.length op (a.state next locals (args.reverse ++ temps) s) =
      .ok args.toArray (a.state next locals temps s) := by
  rw [state, List.append_assoc]
  exact Exec.popMany_over op args hargs (by simp)

theorem popDouble_state (op : Opcode) (d : Double) :
    Exec.popDouble op (a.state next locals (.double d :: temps) s) =
      .ok d (a.state next locals temps s) :=
  EStateM.bind_ok (pop_state op (.double d))

theorem popBool_state (op : Opcode) (b : Bool) :
    Exec.popBool op (a.state next locals (.boolean b :: temps) s) =
      .ok b (a.state next locals temps s) :=
  EStateM.bind_ok (pop_state op (.boolean b))

theorem popInt_state (op : Opcode) (n : Int64) :
    Exec.popInt op (a.state next locals (.int n :: temps) s) =
      .ok n (a.state next locals temps s) :=
  EStateM.bind_ok (pop_state op (.int n))

end Activation

theorem index?_operand {n : Nat} (h : n < 2 ^ 31) : Int32.index? (Generate.operand n) = some n := by
  have hint : (Generate.operand n).toInt = n := Int32.toInt_ofNat_of_lt h
  rw [Int32.index?, hint, if_pos (Int.natCast_nonneg n), Int.toNat_natCast]

theorem announced_operand {n : Nat} (h : n < 2 ^ 31) :
    Machine.announced (Generate.operand n) = n := by
  rw [Machine.announced, index?_operand h, Option.getD_some]

namespace Machine

variable {σ : Type} {m : Machine σ}

/-- The step at an instruction that does not end the program. -/
theorem step_state {a : Activation} {next : Nat} {locals : Array Value} {temps : List Value}
    {s : Store σ} {i : Instr} (hi : a.function.code[next]? = some i) (hne : i ≠ .halt) :
    m.step (a.state next locals temps s) =
      (m.execute next i >>= fun _ => pure .running) (a.state (next + 1) locals temps s) := by
  have hfetch : m.fetch (a.state next locals temps s) =
      .ok (i, next) (a.state (next + 1) locals temps s) := by
    have hcode : (m.code (a.state next locals temps s).frame)[
        (a.state next locals temps s).frame.next]? = some i := hi
    simp only [fetch, hcode]
    rfl
  exact (EStateM.bind_ok hfetch).trans (congrFun (if_neg hne) _)

section Variables

variable {a : Activation} {next n : Nat} {locals : Array Value} {temps : List Value} {s : Store σ}
  {v : Value}

theorem loadLocal_state (hn : n < 2 ^ 31) (hv : locals[n]? = some v) :
    loadLocal (Generate.operand n) (a.state next locals temps s) =
      .ok () (a.state next locals (v :: temps) s) := by
  have hget : (Int32.index? (Generate.operand n)).bind
      ((a.state next locals temps s).frame.locals[·]?) = some v := by
    rw [index?_operand hn, Option.bind_some]
    exact hv
  simp only [loadLocal, hget]
  exact Activation.push_state v

theorem storeLocal_state (hn : n < 2 ^ 31) (hsize : n < locals.size) :
    storeLocal (Generate.operand n) (a.state next locals (v :: temps) s) =
      .ok () (a.state next (locals.setIfInBounds n v) temps s) := by
  refine (EStateM.bind_ok (Activation.pop_state ..)).trans ?_
  have hlt : n < (a.state next locals temps s).frame.locals.size := hsize
  simp only [index?_operand hn, if_pos hlt]
  rfl

theorem loadGlobal_state (hn : n < 2 ^ 31) (hv : s.globals[n]? = some v) :
    loadGlobal (Generate.operand n) (a.state next locals temps s) =
      .ok () (a.state next locals (v :: temps) s) := by
  have hget : (Int32.index? (Generate.operand n)).bind
      ((a.state next locals temps s).globals[·]?) = some v := by
    rw [index?_operand hn, Option.bind_some]
    exact hv
  simp only [loadGlobal, hget]
  exact Activation.push_state v

theorem storeGlobal_state (hn : n < 2 ^ 31) (hsize : n < s.globals.size) :
    storeGlobal (Generate.operand n) (a.state next locals (v :: temps) s) =
      .ok () (a.state next locals temps
        { s with globals := s.globals.setIfInBounds n v }) := by
  refine (EStateM.bind_ok (Activation.pop_state ..)).trans ?_
  have hlt : n < (a.state next locals temps s).globals.size := hsize
  simp only [index?_operand hn, if_pos hlt]
  rfl

end Variables

/-- An instruction that only replaces the values on top of the stack. -/
def Rewrites (m : Machine σ) (i : Instr) (before after : List Value) : Prop :=
  ∀ (here : Nat) (a : Activation) (next : Nat) (locals : Array Value) (rest : List Value)
    (s : Store σ), m.execute here i (a.state next locals (before ++ rest) s) =
      .ok () (a.state next locals (after ++ rest) s)

theorem Rewrites.frame {i : Instr} {before after : List Value} (h : m.Rewrites i before after)
    (below : List Value) : m.Rewrites i (before ++ below) (after ++ below) := by
  intro here a next locals rest s
  rw [List.append_assoc, List.append_assoc]
  exact h here a next locals (below ++ rest) s

theorem rewrites_loadConst {n : Nat} {c : Constant} (hn : n < 2 ^ 31)
    (hc : m.module.constants[n]? = some c) :
    m.Rewrites (.loadConst (Generate.operand n)) [] [.ofConstant c] := by
  intro here a next locals rest s
  have hget : (Int32.index? (Generate.operand n)).bind (m.module.constants[·]?) = some c := by
    rw [index?_operand hn, Option.bind_some, hc]
  change m.loadConst _ _ = _
  simp only [loadConst, hget]
  exact Activation.push_state _

theorem rewrites_pushInt (n : Int32) : m.Rewrites (.pushInt n) [] [.int n.toInt64] :=
  fun _ _ _ _ _ _ => Activation.push_state _

theorem rewrites_pop (v : Value) : m.Rewrites .pop [v] [] := by
  intro here a next locals rest s
  change discard (Exec.pop .pop) _ = _
  change EStateM.map _ _ _ = _
  simp only [EStateM.map]
  rw [List.singleton_append, Activation.pop_state]
  rfl

theorem rewrites_dup (v : Value) : m.Rewrites .dup [v] [v, v] := fun _ _ _ _ _ _ =>
  (EStateM.bind_ok (Activation.pop_state ..)).trans <|
    (EStateM.bind_ok (Activation.push_state v)).trans (Activation.push_state v)

theorem rewrites_toInt (d : Double) : m.Rewrites .toInt [.double d] [.int d.truncate] :=
  fun _ _ _ _ _ _ => (EStateM.bind_ok (Activation.popDouble_state ..)).trans
    (Activation.push_state _)

theorem rewrites_intMul (x y : Int64) : m.Rewrites .intMul [.int y, .int x] [.int (x * y)] :=
  fun _ _ _ _ _ _ => (EStateM.bind_ok (Activation.popInt_state ..)).trans <|
    (EStateM.bind_ok (Activation.popInt_state ..)).trans (Activation.push_state _)

theorem rewrites_intAdd (ref : Nat) (offset : Int64) :
    m.Rewrites .intAdd [.int offset, .array ref] [.address ref offset] :=
  fun _ _ _ _ _ _ => (EStateM.bind_ok (Activation.popInt_state ..)).trans <|
    (EStateM.bind_ok (Activation.pop_state ..)).trans (Activation.push_state _)

theorem rewrites_arith (op : Arith) (x y : Double) :
    m.Rewrites (.arith op) [.double y, .double x] [.double (match op with
      | .add => x.add y
      | .sub => x.sub y
      | .mul => x.mul y
      | .div => x.div y
      | .mod => x.rem y)] :=
  fun _ _ _ _ _ _ => (EStateM.bind_ok (Activation.popDouble_state ..)).trans <|
    (EStateM.bind_ok (Activation.popDouble_state ..)).trans (Activation.push_state _)

theorem rewrites_compare (op : Comparison) (x y : Double) :
    m.Rewrites (.compare op) [.double y, .double x] [.boolean (match op with
      | .lt => x.less y
      | .gt => y.less x
      | .le => x.lessEqual y
      | .ge => y.lessEqual x)] :=
  fun _ _ _ _ _ _ => (EStateM.bind_ok (Activation.popDouble_state ..)).trans <|
    (EStateM.bind_ok (Activation.popDouble_state ..)).trans (Activation.push_state _)

theorem rewrites_logic (op : Connective) (x y : Bool) :
    m.Rewrites (.logic op) [.boolean y, .boolean x] [.boolean (match op with
      | .and => x && y
      | .or => x || y)] :=
  fun _ _ _ _ _ _ => (EStateM.bind_ok (Activation.popBool_state ..)).trans <|
    (EStateM.bind_ok (Activation.popBool_state ..)).trans (Activation.push_state _)

theorem rewrites_eq {x y : Value} (hx : x.isScalar) (hy : y.isScalar) :
    m.Rewrites .eq [y, x] [.boolean (Semantics.same x y)] := by
  rw [← Semantics.scalarEqual_eq_same hx hy]
  have hscalar {v : Value} (hv : v.isScalar) (s : State σ) : requireScalar v s = .ok () s := by
    cases v <;> first | rfl | cases hv
  exact fun _ _ _ _ _ _ => (EStateM.bind_ok (Activation.pop_state ..)).trans <|
    (EStateM.bind_ok (Activation.pop_state ..)).trans <|
    (EStateM.bind_ok (hscalar hx _)).trans <| (EStateM.bind_ok (hscalar hy _)).trans
    (Activation.push_state _)

/-- The instruction of an operator does what the operator means. -/
theorem rewrites_operator {op : BinaryOp} {a b v : Value} (h : Semantics.operate op a b = some v) :
    m.Rewrites (Generate.operator op) [b, a] [v] := by
  revert h
  fun_cases Semantics.operate op a b <;> intro h <;> cases h
  case case1 x y => exact rewrites_arith .add x y
  case case2 x y => exact rewrites_arith .sub x y
  case case3 x y => exact rewrites_arith .mul x y
  case case4 x y => exact rewrites_arith .div x y
  case case5 x y => exact rewrites_arith .mod x y
  case case6 x y => exact rewrites_compare .lt x y
  case case7 x y => exact rewrites_compare .gt x y
  case case8 x y => exact rewrites_compare .le x y
  case case9 x y => exact rewrites_compare .ge x y
  case case10 hscalar => exact rewrites_eq hscalar.1 hscalar.2
  case case12 x y => exact rewrites_logic .and x y
  case case13 x y => exact rewrites_logic .or x y

end Machine

end TurtleScript

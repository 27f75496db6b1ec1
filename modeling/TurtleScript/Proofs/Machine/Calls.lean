import TurtleScript.Compile
import TurtleScript.Proofs.Machine.Memory

/-!
# Calls and returns

A call takes the arguments from the stack, gives every other slot its starting value and
runs the body in an activation of its own. A return takes the stack down to where the call
found it, with the value on top if there is one.
-/
namespace TurtleScript

open Semantics (Store Eval Exit World Invoke)

namespace Machine

variable {σ α : Type} {m : Machine σ}

theorem shrink_under (temps under : List Value) :
    (temps ++ under).reverse.toArray.shrink under.length = under.reverse.toArray := by
  simp

theorem ret_state {a : Activation} {next : Nat} {locals : Array Value} {temps : List Value}
    {s : Store σ} (v : Option Value) :
    ret (if v.isSome then 1 else 0) (a.state next locals (v.toList ++ temps) s) =
      if v = none ∧ a.function.returnType ≠ Kind.empty.id then
        .error (.fault (.missingReturnValue a.function.name)) (a.state next locals temps s)
      else .ok () (resume a v s) := by
  have hstack : (a.state next locals temps s).stack.shrink
      (a.state next locals temps s).frame.base = a.under.reverse.toArray :=
    shrink_under temps a.under
  cases v with
  | none =>
    by_cases hdue : (none : Option Value) = none ∧ a.function.returnType ≠ Kind.empty.id
    · exact (if_pos hdue).trans (if_pos hdue).symm
    · refine (if_neg hdue).trans (Eq.trans ?_ (if_neg hdue).symm)
      refine congrArg (EStateM.Result.ok ()) ?_
      rw [Option.toList_none, List.nil_append, hstack]
      rfl
  | some v =>
    have hpop : (some <$> Exec.pop .ret : Exec σ (Option Value))
        (a.state next locals ((some v).toList ++ temps) s) =
        .ok (some v) (a.state next locals temps s) := by
      change EStateM.map some (Exec.pop .ret) _ = _
      simp only [EStateM.map, Option.toList_some, List.singleton_append, Activation.pop_state]
    have hdue : ¬ (some v = none ∧ a.function.returnType ≠ Kind.empty.id) := nofun
    refine (EStateM.bind_ok hpop).trans <| (if_neg hdue).trans (Eq.trans ?_ (if_neg hdue).symm)
    refine congrArg (EStateM.Result.ok ()) ?_
    rw [hstack]
    simp [resume, State.atop, Activation.state]

/-- The instruction that returns with `v` leads back to the caller, unless a value is due. -/
theorem returns_ret {a : Activation} {next : Nat} {locals : Array Value} {temps : List Value}
    {s : Store σ} {v : Option Value}
    (hi : a.function.code[next]? = some (.ret (if v.isSome then 1 else 0))) :
    Returns m a (a.state next locals (v.toList ++ temps) s) v s := by
  have hstep : m.step (a.state next locals (v.toList ++ temps) s) = _ := step_state hi (by simp)
  have hret : m.execute next (.ret (if v.isSome then 1 else 0))
      (a.state (next + 1) locals (v.toList ++ temps) s) = _ := ret_state v
  rw [EStateM.bind_apply, hret] at hstep
  rw [Returns]
  by_cases hnone : v = none ∧ a.function.returnType ≠ Kind.empty.id
  · rw [if_pos hnone] at hstep ⊢
    exact ⟨0, _, _, .refl _, hstep, rfl, rfl, rfl⟩
  · rw [if_neg hnone] at hstep ⊢
    exact ⟨1, .one hstep⟩

theorem Setting.Sim.ret {z : Setting σ} {c next : Nat} {ghost : Nat → Option Value}
    {v : Option Value} {q : α → Spot}
    (hi : z.code[next]? = some (.ret (if v.isSome then 1 else 0))) :
    z.Sim c ⟨next, ghost, v.toList⟩ (throw (.returned v)) q := by
  intro s rest st hst
  obtain ⟨locals, -, rfl⟩ := hst
  exact returns_ret hi

section Calls

variable {frame : Frame} {callers : List Frame} {under : List Value} {s : Store σ}

/-- The slots of a function start as the evaluator's do. -/
theorem fillSlots_over (htypes : m.module.types = TypeDef.catalogue) (locals : Array Value)
    (slots : List VariableDef) (types : List Ty) (h : slots.map (·.typeId) = types.map Ty.id) :
    m.fillSlots locals slots (State.atop frame callers under s) =
      .ok (World.fill s.heap locals types).1
        (State.atop frame callers under { s with heap := (World.fill s.heap locals types).2 }) := by
  induction slots generalizing types locals s with
  | nil =>
    obtain rfl : types = [] := List.map_eq_nil_iff.mp h.symm
    rfl
  | cons slot slots ih =>
    cases types with
    | nil => cases h
    | cons type types =>
      obtain ⟨hslot, hslots⟩ := List.cons_eq_cons.mp h
      have htype : m.module.type? slot.typeId = some (TypeDef.standard type.kind) := by
        rw [show slot.typeId = type.id from hslot, Module.type?, htypes, Ty.id]
        cases type.kind <;> rfl
      rw [fillSlots, htype]
      exact ih (s := { s with heap := (s.heap.defaultOf type.kind).2 }) _ types hslots

theorem call_over {f : FunctionDef} {id : Nat} {args : List Value} {types : List Ty}
    (htypes : m.module.types = TypeDef.catalogue)
    (hcallee : m.callee? (Generate.operand id) = some f) (hargs : args.length < 2 ^ 31)
    (hcount : f.paramCount.toNat = args.length)
    (hslots : (f.slots.drop args.length).map (·.typeId) = types.map Ty.id)
    (hbase : frame.base ≤ under.length) :
    m.call (Generate.operand id) (Generate.operand args.length)
        (State.atop frame callers (args.reverse ++ under) s) =
      .ok () (Activation.state ⟨f, under, frame, callers⟩ 0
        (World.fill s.heap args.toArray types).1 []
        { s with heap := (World.fill s.heap args.toArray types).2 }) := by
  simp only [call, hcallee, announced_operand hargs]
  have hnot : ¬ args.length ≠ f.paramCount.toNat := fun h => h hcount.symm
  refine (congrFun (if_neg hnot) _).trans ?_
  refine (EStateM.bind_ok (Exec.popMany_over _ args (by omega) hbase)).trans <|
    (EStateM.bind_ok (fillSlots_over htypes _ _ types hslots)).trans ?_
  refine congrArg (EStateM.Result.ok ()) ?_
  simp [Activation.state, State.atop]

/-- What the machine does from a call in `st` where the evaluator comes to a result. The
caller goes on with its own locals. -/
def CallOutcome (m : Machine σ) (fuel : Nat) (frame : Frame) (callers : List Frame)
    (under : List Value) (locals : Array Value) (st : State σ) :
    EStateM.Result Exit (Store σ) (Option Value) → Prop
  | .ok v s => s.locals = locals ∧
      ∃ k, 1 ≤ k ∧ Runs m k st (State.atop frame callers (v.toList ++ under) s)
  | .error (.returned _) _ => False
  | .error (.stopped why) s => Stops m st why s
  | .error .exhausted _ => ∃ k st', fuel ≤ k ∧ Runs m k st st'
  | .error .stuck _ => True

/-- What the machine does from the start of a body. -/
def BodyOutcome (m : Machine σ) (fuel : Nat) (a : Activation) (st : State σ) :
    EStateM.Result Exit (Store σ) (Option Value) → Prop
  | .ok v s => Returns m a st v s
  | .error (.returned v) s => Returns m a st v s
  | .error (.stopped why) s => Stops m st why s
  | .error .exhausted _ => ∃ k st', fuel ≤ k ∧ Runs m k st st'
  | .error .stuck _ => True

/-- A machine that calls functions as `invoke` runs them. -/
def Invokes (m : Machine σ) (fuel : Nat) (invoke : Invoke σ) : Prop :=
  ∀ (id : Nat) (args : List Value) (frame : Frame) (callers : List Frame) (under : List Value)
    (s : Store σ) (st : State σ), id < 2 ^ 31 → args.length < 2 ^ 31 →
    frame.base ≤ under.length →
    m.step st = (m.call (Generate.operand id) (Generate.operand args.length) >>=
      fun _ => pure .running) (State.atop frame callers (args.reverse ++ under) s) →
    CallOutcome m fuel frame callers under s.locals st (invoke id args s)

theorem id_eq_empty (t : Ty) : t.id = Kind.empty.id ↔ t = .empty := by
  cases t <;> simp only [Ty.id, Ty.kind, reduceCtorEq, iff_false] <;> decide

theorem returns_call {a : Activation} {st st₁ : State σ} {v : Option Value} {result : Ty}
    {fuel : Nat} {locals : Array Value} {name : String} (hstep : m.step st = .ok .running st₁)
    (hresult : a.function.returnType = result.id) (hname : a.function.name = name)
    (h : Returns m a st₁ v s) :
    CallOutcome m fuel a.caller a.callers a.under locals st
      (if v = none ∧ result ≠ .empty then
        .error (.stopped (.fault (.missingReturnValue name))) s
      else .ok v { s with locals }) := by
  rw [Returns, hresult, hname] at h
  simp only [ne_eq, id_eq_empty] at h ⊢
  by_cases hdue : v = none ∧ ¬ result = .empty
  · rw [if_pos hdue] at h ⊢
    exact h.before (.one hstep)
  · rw [if_neg hdue] at h ⊢
    obtain ⟨k, hk⟩ := h
    exact ⟨rfl, 1 + k, Nat.le_add_right 1 k, (Runs.one hstep).trans hk⟩

/-- A body that was entered by a call carries out the activation. -/
theorem activate_call {w : World σ} {record : FunctionRecord} {result : Ty} {args : List Value}
    {body : Eval σ (Option Value)} {a : Activation} {st : State σ} {fuel : Nat}
    {locals : Array Value} {heap : Heap}
    (hfill : World.fill s.heap args.toArray ((w.slotTypes record).drop args.length) =
      (locals, heap))
    (hresult : a.function.returnType = result.id) (hname : a.function.name = record.name)
    (hstep : m.step st = .ok .running (a.state 0 locals [] { s with locals, heap }))
    (hbody : BodyOutcome m fuel a (a.state 0 locals [] { s with locals, heap })
      (body { s with locals, heap })) :
    CallOutcome m (fuel + 1) a.caller a.callers a.under s.locals st
      (w.activate record result args body s) := by
  rw [World.activate]
  by_cases hcount : args.length ≠ record.paramCount
  · rw [if_pos hcount]
    exact trivial
  · rw [if_neg hcount, hfill]
    dsimp only
    cases hr : body { s with locals, heap } with
    | ok v s' =>
      rw [hr] at hbody
      exact returns_call hstep hresult hname hbody
    | error e s' =>
      rw [hr] at hbody
      match e, hbody with
      | .returned v, hbody => exact returns_call hstep hresult hname hbody
      | .stopped why, hbody => exact Stops.before (.one hstep) hbody
      | .exhausted, hbody =>
        obtain ⟨k, st', hk, hrun⟩ := hbody
        exact ⟨1 + k, st', by omega, (Runs.one hstep).trans hrun⟩
      | .stuck, _ => exact trivial

theorem Setting.Sim.call {z : Setting σ} {next id : Nat} {ghost : Nat → Option Value}
    {invoke : Invoke σ} {args : List Value} (hinvoke : Invokes z.machine z.fuel invoke)
    (hid : id < 2 ^ 31) (hargs : args.length < 2 ^ 31)
    (hi : z.code[next]? = some (.call (Generate.operand id) (Generate.operand args.length))) :
    z.Sim 1 ⟨next, ghost, args.reverse⟩ (invoke id args)
      fun v => ⟨next + 1, ghost, v.toList⟩ := by
  intro s rest st hst
  obtain ⟨locals, hagrees, rfl⟩ := hst
  let frame : Frame :=
    { function := some z.activation.function, next := next + 1, locals,
      base := z.activation.under.length }
  have hstep : z.machine.step (z.activation.state next locals (args.reverse ++ rest) s) =
      (z.machine.call (Generate.operand id) (Generate.operand args.length) >>=
        fun _ => Pure.pure .running)
        (State.atop frame (z.activation.caller :: z.activation.callers)
          (args.reverse ++ (rest ++ z.activation.under)) s) := by
    rw [← List.append_assoc]
    exact step_state hi (by simp)
  have hcall := hinvoke id args frame _ (rest ++ z.activation.under) s _ hid hargs
    (by simp [frame]) hstep
  cases hr : invoke id args s with
  | ok v s' =>
    rw [hr] at hcall
    obtain ⟨hlocals, k, hk, hrun⟩ := hcall
    rw [← List.append_assoc] at hrun
    exact ⟨k, _, hk, hrun, locals, hlocals ▸ hagrees, rfl⟩
  | error e s' =>
    rw [hr] at hcall
    match e, hcall with
    | .stopped why, hcall => exact hcall
    | .exhausted, hcall => exact hcall
    | .stuck, _ => exact trivial

end Calls

end Machine

end TurtleScript

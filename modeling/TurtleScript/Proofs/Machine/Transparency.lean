import TurtleScript.Proofs.Machine.Framing

/-!
# Calls are transparent

Between a call and the return that ends it, the machine works above the stack that the call
left, and the return finds the frames below as they were. This holds of any code: the bases
of the frames never decrease from the bottom to the top, and no function pops below its own.
-/
namespace TurtleScript

variable {σ : Type}

/-- The state with the next instruction taken. -/
def State.fetched (s : State σ) : State σ := { s with frame := s.frame.after }

namespace Instr

/-- The instruction stays in the function that runs. -/
def isLocal : Instr → Bool
  | call _ _ | ret _ => false
  | _ => true

end Instr

namespace Machine

open Exec

variable {m : Machine σ} {s s' : State σ}

/-- The instruction that the next step takes. -/
def next? (m : Machine σ) (s : State σ) : Option Instr := (m.code s.frame)[s.frame.next]?

theorem execute_inside (here : Nat) {i : Instr} (hi : i.isLocal = true) :
    Inside (m.execute here i) := by
  cases i with
  | call | ret => cases hi
  | jump kind delta => exact jump_inside here kind delta
  | callNative native argc => exact callNative_inside native argc
  | _ => exact (execute_piece {} here rfl).inside

theorem call_blind (id argc : Int32) : Blind (m.call id argc) := by
  rw [call]
  refine (Inside.orFault _ _).blind.bind fun f => ?_
  have henter : Blind (σ := σ) (do
      let args ← popMany (announced argc) .call
      let locals ← m.fillSlots args (f.slots.drop (announced argc))
      modify fun s =>
        { s with
          frame := { function := some f, locals, base := s.stack.size }
          callers := s.frame :: s.callers }) := by
    refine (Inside.popMany _ _).blind.bind fun args => ?_
    refine (fillSlots_piece _ _ : Piece False 0 0 _).inside.blind.bind fun locals => ?_
    refine .of_eq fun s under below => congrArg (EStateM.Result.ok ()) ?_
    simp [State.above, Frame.raise]
  dsimp only
  split
  · exact (Inside.throw _).blind.bind fun _ => henter
  · exact henter

/-- What a call does: it takes the arguments off the stack and enters the callee. -/
theorem call_eq_ok {id argc : Int32} (h : m.call id argc s = .ok () s') :
    ∃ f under args, m.callee? id = some f ∧ s.stack = under ++ args ∧
      args.size = f.paramCount.toNat ∧ s.frame.base ≤ under.size ∧ s'.stack = under ∧
      s'.callers = s.frame :: s.callers ∧ s'.frame.function = some f ∧ s'.frame.next = 0 ∧
      s'.frame.base = under.size := by
  rw [call] at h
  obtain ⟨f, s₁, hf, hk⟩ := EStateM.bind_eq_ok h
  obtain ⟨hcallee, rfl⟩ := orFault_eq_ok hf
  dsimp only at hk
  split at hk
  · obtain ⟨_, _, hfault, -⟩ := EStateM.bind_eq_ok hk
    cases hfault
  · rename_i hcount
    obtain ⟨args, s₂, hargs, hk₂⟩ := EStateM.bind_eq_ok hk
    obtain ⟨under, hstack, hsize, hbase, rfl⟩ := popMany_eq_ok hargs
    obtain ⟨locals, s₃, hlocals, hk₃⟩ := EStateM.bind_eq_ok hk₂
    obtain ⟨heap, rfl⟩ := fillSlots_eq_ok hlocals
    cases hk₃
    exact ⟨f, under, args, hcallee, hstack, hsize.trans (Decidable.not_not.mp hcount), hbase, rfl,
      rfl, rfl, rfl, rfl⟩

/-- A call that enters a function announces as many arguments as it has parameters. -/
theorem call_announced {id argc : Int32} {f : FunctionDef} (h : m.call id argc s = .ok () s')
    (hf : m.callee? id = some f) : announced argc = f.paramCount.toNat := by
  refine Decidable.byContradiction fun hne => ?_
  rw [call, hf] at h
  obtain ⟨_, _, ⟨⟩, hk⟩ := EStateM.bind_eq_ok h
  dsimp only at hk
  rw [if_pos hne] at hk
  cases hk

/-- The end of a return: back to the frame below, with a value or without. -/
def comeBack (value : Option Value) : Exec σ Unit := fun s =>
  match s.frame.function, s.callers with
  | some f, caller :: callers =>
    if value = none ∧ f.returnType ≠ Kind.empty.id then
      fault (.missingReturnValue f.name) s
    else
      let stack := s.stack.shrink s.frame.base
      let stack := match value with
        | some v => stack.push v
        | none => stack
      .ok () { s with stack, frame := caller, callers }
  | _, _ => fault (.stackUnderflow .ret) s

theorem ret_eq (count : Int32) : (ret count : Exec σ Unit) =
    if count = 1 then some <$> pop .ret >>= comeBack else comeBack none := rfl

theorem comeBack_eq_ok {value : Option Value} (h : comeBack value s = .ok () s') :
    s.callers = s'.frame :: s'.callers ∧
      s'.stack = s.stack.shrink s.frame.base ++ value.toArray := by
  rw [comeBack] at h
  split at h
  case h_2 => cases h
  case h_1 f caller callers hfunction hcallers =>
    split at h
    case isTrue => cases h
    case isFalse =>
      cases h
      refine ⟨hcallers, ?_⟩
      cases value with
      | none => simp
      | some v => simp

/-- What a return does: it goes back to the frame below with what lies under its base. -/
theorem ret_eq_ok {count : Int32} (h : ret count s = .ok () s') :
    s.callers = s'.frame :: s'.callers ∧
      (count ≠ 1 → s'.stack = s.stack.shrink s.frame.base) ∧
      (count = 1 → ∃ v, s.stack.back? = some v ∧ s.frame.base < s.stack.size ∧
        s'.stack = (s.stack.shrink s.frame.base).push v) := by
  rw [ret_eq] at h
  by_cases hcount : count = 1
  · rw [if_pos hcount] at h
    obtain ⟨value, s₁, hvalue, hback⟩ := EStateM.bind_eq_ok h
    obtain ⟨v, hpop, rfl⟩ := EStateM.map_eq_ok hvalue
    obtain ⟨hv, hbase, rfl⟩ := pop_eq_ok hpop
    obtain ⟨hcallers, hstack⟩ := comeBack_eq_ok hback
    refine ⟨hcallers, fun hne => absurd hcount hne, fun _ => ⟨v, hv, hbase, ?_⟩⟩
    rw [hstack, shrink_pop hbase]
    simp
  · rw [if_neg hcount] at h
    obtain ⟨hcallers, hstack⟩ := comeBack_eq_ok h
    exact ⟨hcallers, fun _ => by simpa using hstack, fun heq => absurd heq hcount⟩

/-- A return to a frame that was entered above `under` does not see what is below. -/
theorem comeBack_above {value : Option Value} (hs : s.callers ≠ []) (under : Array Value)
    (below : List Frame) :
    comeBack value (s.above under below) = mapState (·.above under below) (comeBack value s) := by
  cases hcallers : s.callers with
  | nil => contradiction
  | cons caller callers =>
    have habove : (s.above under below).callers =
        caller.raise under.size :: (callers.map (Frame.raise under.size) ++ below) := by
      simp [State.above, hcallers]
    cases hfunction : s.frame.function with
    | none =>
      have hnone : (s.above under below).frame.function = none := hfunction
      simp only [comeBack, hfunction, hnone]
      rfl
    | some f =>
      have hsome : (s.above under below).frame.function = some f := hfunction
      simp only [comeBack, hfunction, hcallers, hsome, habove]
      split
      · rfl
      · refine congrArg (EStateM.Result.ok ()) ?_
        have hshrink := shrink_append under s.stack s.frame.base
        cases value with
        | none => simp only [State.above, Frame.raise, hshrink]
        | some v => simp only [State.above, Frame.raise, hshrink, Array.push_append]

theorem ret_above {count : Int32} (hs : s.callers ≠ []) (under : Array Value) (below : List Frame) :
    ret count (s.above under below) = mapState (·.above under below) (ret count s) := by
  rw [ret_eq]
  split
  · rw [bind_map_left, EStateM.bind_apply, EStateM.bind_apply, Inside.pop_above]
    cases hpop : pop .ret s with
    | error stop s₁ => rfl
    | ok v s₁ =>
      obtain ⟨-, -, rfl⟩ := pop_eq_ok hpop
      exact comeBack_above (s := { s with stack := s.stack.pop }) hs under below
  · exact comeBack_above hs under below

/-- A step that leaves the machine running is an instruction other than the last. -/
theorem fetch_of_some {i : Instr} (h : m.next? s = some i) :
    m.fetch s = .ok (i, s.frame.next) s.fetched := by
  rw [next?] at h
  simp only [fetch, h]
  rfl

theorem fetch_of_none (h : m.next? s = none) :
    m.fetch s = fault (.fellOffEnd (s.frame.function.map (·.name))) s := by
  rw [next?] at h
  simp only [fetch, h]

theorem step_running : m.step s = .ok .running s' ↔
    ∃ i, m.next? s = some i ∧ i ≠ .halt ∧ m.execute s.frame.next i s.fetched = .ok () s' := by
  constructor
  · intro h
    obtain ⟨⟨i, here⟩, s₁, hi, hk⟩ := EStateM.bind_eq_ok h
    cases hnext : m.next? s with
    | none => cases (fetch_of_none hnext).symm.trans hi
    | some i =>
      cases (fetch_of_some hnext).symm.trans hi
      by_cases hne : i = .halt
      · cases (congrFun (if_pos hne) _).symm.trans hk
      · obtain ⟨u, s₁, hrun, hdone⟩ :=
          EStateM.bind_eq_ok ((congrFun (if_neg hne) _).symm.trans hk)
        cases hdone
        exact ⟨i, rfl, hne, hrun⟩
  · rintro ⟨i, hnext, hne, hrun⟩
    refine (EStateM.bind_ok (fetch_of_some hnext)).trans ?_
    exact (congrFun (if_neg hne) _).trans (EStateM.bind_ok hrun)

/-- What a step does to the bases of the frames. -/
inductive Moves (s s' : State σ) : Prop where
  | stay : s'.bases = s.bases → Moves s s'
  | enter : s'.bases = s'.stack.size :: s.bases → Moves s s'
  | leave : s.bases = s.frame.base :: s'.bases → Moves s s'

theorem step_moves (hs : s.frame.base ≤ s.stack.size) (h : m.step s = .ok .running s') :
    s.frame.base ≤ s'.stack.size ∧ Moves s s' := by
  obtain ⟨i, -, -, hrun⟩ := step_running.mp h
  by_cases hi : i.isLocal = true
  · have hstays := (execute_inside (m := m) s.frame.next hi).stays s.fetched hs
    rw [hrun] at hstays
    replace hstays : Stays s.fetched s' := hstays
    refine ⟨hstays.base_le, .stay ?_⟩
    rw [State.bases_eq, State.bases_eq, hstays.base, hstays.callers]
    rfl
  · cases i with
    | call id argc =>
      obtain ⟨f, under, args, -, -, -, hbase, rfl, hcallers, -, -, hentry⟩ := call_eq_ok hrun
      refine ⟨hbase, .enter ?_⟩
      rw [State.bases_eq, hentry, hcallers]
      rfl
    | ret count =>
      obtain ⟨hcallers, hplain, hvalue⟩ := ret_eq_ok hrun
      have hsize : (s.stack.shrink s.frame.base).size = s.frame.base := by
        rw [Array.size_shrink]
        omega
      refine ⟨?_, .leave ?_⟩
      · by_cases hcount : count = 1
        · obtain ⟨v, -, -, hstack⟩ := hvalue hcount
          rw [hstack, Array.size_push]
          exact Nat.le_succ_of_le (Nat.le_of_eq hsize.symm)
        · rw [hplain hcount]
          exact Nat.le_of_eq hsize.symm
      · replace hcallers : s.callers = s'.frame :: s'.callers := hcallers
        rw [State.bases_eq, hcallers]
        rfl
    | _ => exact absurd rfl hi

/-- The bases stay in order. -/
theorem step_nested (hs : s.Nested) (h : m.step s = .ok .running s') : s'.Nested := by
  obtain ⟨hle, hmoves⟩ := step_moves hs.top h
  have hbases := hs.ordered
  cases hmoves with
  | stay hstay =>
    rw [← hstay] at hbases
    have hsame : s'.frame.base = s.frame.base := (List.cons.inj hstay).1
    exact .of_top hbases (hsame ▸ hle)
  | enter henter =>
    refine .of_top ?_ (Nat.le_of_eq (List.cons.inj henter).1)
    rw [henter]
    refine .cons (fun base hmem => ?_) hbases
    exact Nat.le_trans (hs.le_top hmem) hle
  | leave hleave =>
    rw [hleave, List.pairwise_cons] at hbases
    refine .of_top hbases.2 (Nat.le_trans ?_ hle)
    exact hbases.1 _ List.mem_cons_self

/-- The bases are in order in every state that a run goes through. -/
theorem Runs.nested {k : Nat} (h : Runs m k s s') (hs : s.Nested) : s'.Nested := by
  induction h with
  | refl => exact hs
  | step hstep _ ih => exact ih (step_nested hs hstep)

/-- The outermost function was entered with an empty stack. -/
def Grounded (s : State σ) : Prop := s.bases.getLast? = some 0

theorem step_grounded (hs : s.Nested) (hg : Grounded s) (h : m.step s = .ok .running s') :
    Grounded s' := by
  rw [Grounded] at hg ⊢
  cases (step_moves hs.top h).2 with
  | stay hstay => rw [hstay, hg]
  | enter henter => rw [henter, State.bases_eq, List.getLast?_cons_cons, ← State.bases_eq, hg]
  | leave hleave => rwa [hleave, State.bases_eq s', List.getLast?_cons_cons, ← State.bases_eq] at hg

/-- Steps during which at least `depth` frames lie below the innermost one. -/
inductive Within (m : Machine σ) (depth : Nat) (s : State σ) : State σ → Prop where
  | refl : depth ≤ s.callers.length → Within m depth s s
  | step {s₁ s₂ : State σ} : Within m depth s s₁ → m.step s₁ = .ok .running s₂ →
      depth ≤ s₂.callers.length → Within m depth s s₂

/-- A step above a part of the stack: it is a step without that part, or the return that
goes back to the frames below. -/
theorem step_above {under : Array Value} {below : List Frame} {t : State σ}
    (h : m.step (s.above under below) = .ok .running t) :
    (∃ s', m.step s = .ok .running s' ∧ t = s'.above under below) ∨
      s.callers = [] ∧ ∃ count, m.next? s = some (.ret count) ∧
        ret count (s.fetched.above under below) = .ok () t := by
  obtain ⟨i, hnext, hne, hrun⟩ := step_running.mp h
  replace hnext : m.next? s = some i := hnext
  replace hrun : m.execute s.frame.next i (s.fetched.above under below) = .ok () t := hrun
  have hback (h : ∃ s', m.execute s.frame.next i s.fetched = .ok () s' ∧ t = s'.above under below) :
      ∃ s', m.step s = .ok .running s' ∧ t = s'.above under below := by
    obtain ⟨s', hs', ht⟩ := h
    exact ⟨s', step_running.mpr ⟨i, hnext, hne, hs'⟩, ht⟩
  by_cases hi : i.isLocal = true
  · exact .inl (hback ((execute_inside s.frame.next hi).blind hrun))
  · cases i with
    | call id argc => exact .inl (hback (call_blind id argc hrun))
    | ret count =>
      by_cases hcallers : s.callers = []
      · exact .inr ⟨hcallers, count, hnext, hrun⟩
      · have habove : ret count _ = _ := ret_above (s := s.fetched) hcallers under below
        exact .inl (hback (mapState_eq_ok (habove.symm.trans hrun)))
    | _ => exact absurd rfl hi

theorem callers_above {under : Array Value} {below : List Frame} (h : s.callers = []) :
    (s.fetched.above under below).callers = below := by
  simp [State.above, State.fetched, h]

/-- Until it comes back to the frames below, a function runs as if they were not there. -/
theorem Within.above {s₀ u : State σ} {under : Array Value} {below : List Frame}
    (h : Within m below.length (s₀.above under below) u) (hn : s₀.Nested) (hg : Grounded s₀) :
    ∃ v : State σ, u = v.above under below ∧ v.Nested ∧ Grounded v := by
  induction h with
  | refl => exact ⟨s₀, rfl, hn, hg⟩
  | step _ hstep hdepth ih =>
    obtain ⟨v, rfl, hvn, hvg⟩ := ih
    rcases step_above hstep with ⟨v', hv', rfl⟩ | ⟨hcallers, count, -, hret⟩
    · exact ⟨v', rfl, step_nested hvn hv', step_grounded hvn hvg hv'⟩
    · -- after this return there would be fewer frames
      have hbelow := (ret_eq_ok hret).1
      rw [callers_above hcallers] at hbelow
      rw [hbelow, List.length_cons] at hdepth
      omega

/-- What holds between a call in `s`, by which the machine came to `entered`, and the return
that ends it: no step in between sees the stack that the call left, and the return goes back
to the frames of the call with that stack and its value. -/
structure Transparent (m : Machine σ) (s entered : State σ) (under : Array Value) : Prop where
  inside : ∀ u, Within m (s.callers.length + 1) entered u →
    ∃ v : State σ, u = v.above under (s.frame.after :: s.callers) ∧
      ∀ u', m.step u = .ok .running u' → s.callers.length < u'.callers.length →
        ∃ v', m.step v = .ok .running v' ∧ u' = v'.above under (s.frame.after :: s.callers)
  ended : ∀ u t, Within m (s.callers.length + 1) entered u → m.step u = .ok .running t →
    t.callers.length ≤ s.callers.length →
      t.frame = s.frame.after ∧ t.callers = s.callers ∧
        ∃ count, m.next? u = some (.ret count) ∧ (count ≠ 1 → t.stack = under) ∧
          (count = 1 → ∃ v, u.stack.back? = some v ∧ under.size < u.stack.size ∧
            t.stack = under.push v)

/-- The state that a call enters, without the stack and the frames below. -/
def State.alone (s : State σ) : State σ :=
  { s with stack := #[], frame := { s.frame with base := 0 }, callers := [] }

theorem transparent_of_entered {entered : State σ} {under : Array Value}
    (hstack : entered.stack = under) (hcallers : entered.callers = s.frame.after :: s.callers)
    (hbase : entered.frame.base = under.size) : Transparent m s entered under := by
  have halone : entered = (State.alone entered).above under (s.frame.after :: s.callers) := by
    rw [State.above, State.alone, Frame.raise, ← hbase, ← hcallers, ← hstack]
    simp
  have hnested : (State.alone entered).Nested := .of_top (List.pairwise_singleton _ _) (Nat.le_refl 0)
  have habove (u : State σ) (hu : Within m (s.callers.length + 1) entered u) :
      ∃ v : State σ, u = v.above under (s.frame.after :: s.callers) ∧ v.Nested ∧ Grounded v := by
    rw [halone] at hu
    exact hu.above hnested rfl
  constructor
  · intro u hu
    obtain ⟨v, rfl, -, -⟩ := habove u hu
    refine ⟨v, rfl, fun u' hu' hdepth => ?_⟩
    rcases step_above hu' with hv | ⟨hempty, count, -, hret⟩
    · exact hv
    · have hbelow := (ret_eq_ok hret).1
      rw [callers_above hempty] at hbelow
      rw [(List.cons.inj hbelow).2] at hdepth
      omega
  · intro u t hu ht hdepth
    obtain ⟨v, rfl, hvn, hvg⟩ := habove u hu
    rcases step_above ht with ⟨v', -, rfl⟩ | ⟨hempty, count, hnext, hret⟩
    · simp only [State.above, List.length_append, List.length_cons] at hdepth
      omega
    · obtain ⟨hbelow, hplain, hvalue⟩ := ret_eq_ok hret
      rw [callers_above hempty] at hbelow
      obtain ⟨hframe, hrest⟩ := List.cons.inj hbelow
      have hzero : v.frame.base = 0 := by
        rw [Grounded, State.bases_eq, hempty] at hvg
        exact Option.some.inj hvg
      have hground : (v.fetched.above under (s.frame.after :: s.callers)).frame.base = under.size := by
        change under.size + v.frame.base = under.size
        rw [hzero, Nat.add_zero]
      have hshrink : (under ++ v.stack).shrink under.size = under := by
        simp
      rw [hground] at hplain hvalue
      refine ⟨hframe.symm, hrest.symm, count, hnext, fun hcount => ?_, fun hcount => ?_⟩
      · exact (hplain hcount).trans hshrink
      · obtain ⟨w, hback, hsize, hstack⟩ := hvalue hcount
        exact ⟨w, hback, hsize, hstack.trans (congrArg (·.push w) hshrink)⟩

theorem call_transparent {entered : State σ} {id argc : Int32}
    (hnext : m.next? s = some (.call id argc)) (h : m.step s = .ok .running entered) :
    ∃ f under args, m.callee? id = some f ∧ s.stack = under ++ args ∧
      args.size = f.paramCount.toNat ∧ entered.frame.function = some f ∧
      Transparent m s entered under := by
  obtain ⟨i, hi, -, hrun⟩ := step_running.mp h
  cases hnext.symm.trans hi
  obtain ⟨f, under, args, hf, hstack, hsize, -, hunder, hcallers, hfunction, -, hbase⟩ :=
    call_eq_ok hrun
  exact ⟨f, under, args, hf, hstack, hsize, hfunction,
    transparent_of_entered hunder hcallers hbase⟩

theorem nested_boot (globals : Array Value) (heap : Heap) (host : σ) :
    (boot globals heap host).Nested :=
  .of_top (List.pairwise_singleton _ _) (Nat.le_refl _)

/-- In every state that a run goes through the bases of the frames are in order, and a call
from such a state is transparent. -/
theorem run_transparent (m : Machine σ) (globals : Array Value) (heap : Heap) (host : σ) (k : Nat)
    (s : State σ) (h : Runs m k (boot globals heap host) s) :
    s.Nested ∧ ∀ id argc entered, m.next? s = some (.call id argc) →
      m.step s = .ok .running entered →
        ∃ f under args, m.callee? id = some f ∧ s.stack = under ++ args ∧
          args.size = f.paramCount.toNat ∧ entered.frame.function = some f ∧
          Transparent m s entered under :=
  ⟨h.nested (nested_boot globals heap host), fun _ _ _ hnext hstep => call_transparent hnext hstep⟩

/-- A function that calls another one with an argument above a value of its own. -/
def caller : FunctionDef where
  id := 0
  name := "main"
  returnType := Kind.empty.id
  paramCount := 0
  slots := []
  code := #[.pushInt 7, .loadConst 0, .call 1 1, .halt]

/-- A function that leaves its argument on the stack beside the value that it returns. -/
def untidy : FunctionDef where
  id := 1
  name := "twice"
  returnType := Kind.boolean.id
  paramCount := 1
  slots := [⟨Kind.boolean.id, "b"⟩]
  code := #[.loadLocal 0, .dup, .ret 1]

def untidyMachine : Machine Unit where
  natives := #[]
  module :=
    { name := "", vendor := "", version := {}, entryPoint := 0, constants := #[.boolean true]
      types := TypeDef.catalogue, functions := #[caller, untidy] }

/-- The machine in `caller`. -/
def callerState (next : Nat) (stack : Array Value) : State Unit where
  stack := stack
  frame := { function := some caller, next, base := 1 }
  callers := [{ next := 2 }]
  globals := #[]
  heap := {}
  host := ()

/-- The machine in `untidy`, above the value of `caller`. -/
def untidyState (next : Nat) (stack : Array Value) : State Unit where
  stack := #[.int 0, .int 7] ++ stack
  frame := { function := some untidy, next, locals := #[.boolean true], base := 2 }
  callers := [{ function := some caller, next := 3, base := 1 }, { next := 2 }]
  globals := #[]
  heap := {}
  host := ()

theorem run_transparent_untidy :
    Runs untidyMachine 4 (boot #[] {} ()) (callerState 2 #[.int 0, .int 7, .boolean true]) ∧
    (callerState 2 #[.int 0, .int 7, .boolean true]).Nested ∧
    Within untidyMachine 2 (untidyState 0 #[]) (untidyState 2 #[.boolean true, .boolean true]) ∧
    ∃ f under args, untidyMachine.callee? 1 = some f ∧
      #[.int 0, .int 7, .boolean true] = under ++ args ∧ args.size = f.paramCount.toNat ∧
      (untidyState 0 #[]).frame.function = some f ∧
      Transparent untidyMachine (callerState 2 #[.int 0, .int 7, .boolean true]) (untidyState 0 #[])
        under ∧
      ∃ t v, untidyMachine.step (untidyState 2 #[.boolean true, .boolean true]) = .ok .running t ∧
        t.frame = (callerState 3 #[]).frame ∧ t.callers = (callerState 3 #[]).callers ∧
        (untidyState 2 #[.boolean true, .boolean true]).stack.back? = some v ∧
        t.stack = under.push v := by
  have hboot : untidyMachine.step (boot #[] {} ()) =
      .ok .running { stack := #[.int 0], frame := { next := 1 }, globals := #[], heap := {},
                     host := () } := rfl
  have henter : untidyMachine.step { stack := #[.int 0], frame := { next := 1 }, globals := #[],
                                     heap := {}, host := () } =
      .ok .running (callerState 0 #[.int 0]) := rfl
  have hpush : untidyMachine.step (callerState 0 #[.int 0]) =
      .ok .running (callerState 1 #[.int 0, .int 7]) := rfl
  have hruns : Runs untidyMachine 4 (boot #[] {} ())
      (callerState 2 #[.int 0, .int 7, .boolean true]) :=
    .step hboot <| .step henter <| .step hpush <| .step rfl <| .refl _
  have hload : untidyMachine.step (untidyState 0 #[]) =
      .ok .running (untidyState 1 #[.boolean true]) := rfl
  have hdup : untidyMachine.step (untidyState 1 #[.boolean true]) =
      .ok .running (untidyState 2 #[.boolean true, .boolean true]) := rfl
  have hret : untidyMachine.step (untidyState 2 #[.boolean true, .boolean true]) =
      .ok .running (callerState 3 #[.int 0, .int 7, .boolean true]) := rfl
  have hwithin : Within untidyMachine 2 (untidyState 0 #[])
      (untidyState 2 #[.boolean true, .boolean true]) :=
    .step (.step (.refl (Nat.le_refl 2)) hload (Nat.le_refl 2)) hdup (Nat.le_refl 2)
  obtain ⟨hnested, hcall⟩ := run_transparent untidyMachine #[] {} () 4 _ hruns
  obtain ⟨f, under, args, hf, hstack, hsize, hfunction, htransparent⟩ :=
    hcall 1 1 (untidyState 0 #[]) rfl rfl
  -- the argument that was left on the stack is gone after the return
  obtain ⟨hframe, hcallers, count, hnext, -, hvalue⟩ :=
    htransparent.ended _ _ hwithin hret (Nat.le_refl 1)
  obtain ⟨v, hback, -, hunder⟩ := hvalue (Instr.ret.inj (Option.some.inj hnext)).symm
  exact ⟨hruns, hnested, hwithin, f, under, args, hf, hstack, hsize, hfunction, htransparent,
    _, v, hret, hframe, hcallers, hback, hunder⟩

end Machine

end TurtleScript

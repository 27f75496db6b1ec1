import TurtleScript.Proofs.Code.Segments
import TurtleScript.Proofs.Machine.Steps

/-!
# Code that carries out an evaluation

A computation of the evaluator is matched with a stretch of code: if the evaluator comes to
a value, the machine comes from one spot to another; if it returns, the machine goes back
to the caller; if it stops, the machine stops with the same store; if its fuel runs out,
the machine goes on for at least as many steps. Where the evaluator is stuck nothing is said.

The locals of the machine are those of the evaluator, except for the hidden slots of loops.
A spot says what the hidden slots that are in use hold.
-/
namespace TurtleScript

open Semantics (Store Eval Exit)

namespace Machine

variable {σ α β : Type}

/-- The locals of the machine against those of the evaluator. -/
structure Agrees (width : Nat) (hidden : Nat → Prop) (ghost : Nat → Option Value)
    (actual locals : Array Value) : Prop where
  actualSize : actual.size = width
  localsSize : locals.size = width
  visible : ∀ i, ¬ hidden i → actual[i]? = locals[i]?
  ghost : ∀ i v, ghost i = some v → hidden i ∧ actual[i]? = some v

/-- A place in the code, what the hidden slots in use hold there, and what stands on top of
the stack, the topmost value first. -/
structure Spot where
  next : Nat
  ghost : Nat → Option Value
  temps : List Value

/-- The run stops here, with this store. -/
def Stops (m : Machine σ) (st : State σ) (why : Stop) (s : Store σ) : Prop :=
  ∃ k st₁ st₂, Runs m k st st₁ ∧ m.step st₁ = .error why st₂ ∧ st₂.globals = s.globals ∧
    st₂.heap = s.heap ∧ st₂.host = s.host

/-- The machine after the activation has returned. -/
def resume (a : Activation) (v : Option Value) (s : Store σ) : State σ :=
  .atop a.caller a.callers (v.toList ++ a.under) s

/-- The activation returns with `v`, which fails if a value was due. -/
def Returns (m : Machine σ) (a : Activation) (st : State σ) (v : Option Value) (s : Store σ) :
    Prop :=
  if v = none ∧ a.function.returnType ≠ Kind.empty.id then
    Stops m st (.fault (.missingReturnValue a.function.name)) s
  else ∃ k, Runs m k st (resume a v s)

/-- What is fixed while a body runs: the machine, the activation, the fuel of the
evaluator, the number of slots and which of them are hidden. -/
structure Setting (σ : Type) where
  machine : Machine σ
  activation : Activation
  fuel : Nat
  width : Nat
  hidden : Nat → Prop

namespace Setting

variable (z : Setting σ)

def code : Array Instr := z.activation.function.code

/-- The machine is at a spot, with `rest` below the values that the spot names. -/
def At (p : Spot) (rest : List Value) (s : Store σ) (st : State σ) : Prop :=
  ∃ locals, Agrees z.width z.hidden p.ghost locals s.locals ∧
    st = z.activation.state p.next locals (p.temps ++ rest) s

/-- What the machine does from `st` where the evaluator comes to a result; at least `c`
steps if that is a value. -/
def Outcome (c : Nat) (st : State σ) (good : α → Store σ → State σ → Prop) :
    EStateM.Result Exit (Store σ) α → Prop
  | .ok v s => ∃ k st', c ≤ k ∧ Runs z.machine k st st' ∧ good v s st'
  | .error (.returned v) s => Returns z.machine z.activation st v s
  | .error (.stopped why) s => Stops z.machine st why s
  | .error .exhausted _ => ∃ k st', z.fuel ≤ k ∧ Runs z.machine k st st'
  | .error .stuck _ => True

/-- The code from `p` on carries out `x` and ends where `q` says, after at least `c` steps. -/
def Sim (c : Nat) (p : Spot) (x : Eval σ α) (q : α → Spot) : Prop :=
  ∀ s rest st, z.At p rest s st →
    z.Outcome c st (fun v s' st' => z.At (q v) rest s' st') (x s)

/-- The code from `p` to `q` does nothing that the evaluator sees. -/
def Silent (c : Nat) (p q : Spot) : Prop := z.Sim c p (pure ()) fun _ => q

end Setting

theorem Stops.before {m : Machine σ} {k : Nat} {st st₁ : State σ} {why : Stop} {s : Store σ}
    (hr : Runs m k st st₁) (h : Stops m st₁ why s) : Stops m st why s := by
  obtain ⟨n, st₂, st₃, hrun, hrest⟩ := h
  exact ⟨k + n, st₂, st₃, hr.trans hrun, hrest⟩

theorem Returns.before {m : Machine σ} {a : Activation} {k : Nat} {st st₁ : State σ}
    {v : Option Value} {s : Store σ} (hr : Runs m k st st₁) (h : Returns m a st₁ v s) :
    Returns m a st v s := by
  rw [Returns] at h ⊢
  split at h
  case isTrue hv => rw [if_pos hv]; exact h.before hr
  case isFalse hv =>
    obtain ⟨n, hn⟩ := h
    rw [if_neg hv]
    exact ⟨k + n, hr.trans hn⟩

namespace Setting

variable {z : Setting σ} {c d : Nat} {st st₁ : State σ}

section Outcome

variable {good : α → Store σ → State σ → Prop} {r : EStateM.Result Exit (Store σ) α}

theorem Outcome.before {k : Nat} (hr : Runs z.machine k st st₁) (hk : d ≤ k)
    (h : z.Outcome c st₁ good r) : z.Outcome (d + c) st good r := by
  match r, h with
  | .ok v s, h =>
    obtain ⟨n, st', hn, hrun, hgood⟩ := h
    exact ⟨k + n, st', Nat.add_le_add hk hn, hr.trans hrun, hgood⟩
  | .error (.returned v) s, h => exact Returns.before hr h
  | .error (.stopped why) s, h => exact Stops.before hr h
  | .error .exhausted _, h =>
    obtain ⟨n, st', hn, hrun⟩ := h
    exact ⟨k + n, st', Nat.le_trans hn (Nat.le_add_left n k), hr.trans hrun⟩
  | .error .stuck _, _ => exact trivial

theorem Outcome.imp {good' : α → Store σ → State σ → Prop} (h : z.Outcome c st good r) (hd : d ≤ c)
    (himp : ∀ v s st', good v s st' → good' v s st') : z.Outcome d st good' r := by
  match r, h with
  | .ok v s, h =>
    obtain ⟨n, st', hn, hrun, hgood⟩ := h
    exact ⟨n, st', Nat.le_trans hd hn, hrun, himp v s st' hgood⟩
  | .error (.returned v) s, h => exact h
  | .error (.stopped why) s, h => exact h
  | .error .exhausted _, h => exact h
  | .error .stuck _, _ => exact trivial

theorem Outcome.bind {good' : β → Store σ → State σ → Prop} {x : Eval σ α} {f : α → Eval σ β}
    {s : Store σ} (h : z.Outcome c st good (x s))
    (hf : ∀ v s' st', x s = .ok v s' → good v s' st' → z.Outcome d st' good' (f v s')) :
    z.Outcome (c + d) st good' ((x >>= f) s) := by
  rw [EStateM.bind_apply]
  cases hx : x s with
  | ok v s' =>
    rw [hx] at h
    obtain ⟨n, st', hn, hrun, hgood⟩ := h
    exact (hf v s' st' hx hgood).before hrun hn
  | error e s' =>
    rw [hx] at h
    match e, h with
    | .returned v, h => exact h
    | .stopped why, h => exact h
    | .exhausted, h => exact h
    | .stuck, _ => exact trivial

end Outcome

namespace Sim

variable {p p' : Spot} {x : Eval σ α} {q : α → Spot} {f : α → Eval σ β} {r : β → Spot}

theorem weaken (h : z.Sim c p x q) (hd : d ≤ c) : z.Sim d p x q :=
  fun s rest st hst => (h s rest st hst).imp hd fun _ _ _ h => h

theorem bind (hx : z.Sim c p x q) (hf : ∀ v, z.Sim d (q v) (f v) r) :
    z.Sim (c + d) p (x >>= f) r :=
  fun s rest st hst => (hx s rest st hst).bind fun v s' st' _ h => hf v s' rest st' h

theorem pure {v : α} (h : p = q v) : z.Sim 0 p (pure v) q := by
  subst h
  exact fun _ _ st hst => ⟨0, st, Nat.le_refl 0, .refl st, hst⟩

theorem map {g : α → β} (h : z.Sim c p x fun v => r (g v)) : z.Sim c p (g <$> x) r := by
  rw [map_eq_pure_bind]
  exact h.bind fun v => pure rfl

/-- The number of steps does not matter. -/
theorem uncounted (h : z.Sim c p x q) : z.Sim 0 p x q := h.weaken (Nat.zero_le c)

theorem seq (hx : z.Sim c p x q) (hf : ∀ v, z.Sim 0 (q v) (f v) r) : z.Sim 0 p (x >>= f) r :=
  (hx.bind hf).uncounted

/-- What is known of the value may be used for the rest. -/
theorem seqOf {known : α → Prop} (hx : z.Sim c p x q) (hk : ∀ s v s', x s = .ok v s' → known v)
    (hf : ∀ v, known v → z.Sim 0 (q v) (f v) r) : z.Sim 0 p (x >>= f) r := by
  have hboth : z.Sim (c + 0) p (x >>= f) r := fun s rest st hst =>
    (hx s rest st hst).bind fun v s' st' hok h => hf v (hk s v s' hok) s' rest st' h
  exact hboth.uncounted

/-- A step is taken at the latest in the second part. -/
theorem late (hx : z.Sim c p x q) (hf : ∀ v, z.Sim 1 (q v) (f v) r) : z.Sim 1 p (x >>= f) r :=
  (hx.bind hf).weaken (Nat.le_add_left 1 c)

theorem stuck (c : Nat) (p : Spot) (q : α → Spot) : z.Sim c p Eval.stuck q :=
  fun _ _ _ _ => trivial

/-- A check of the evaluator that the code does not make. -/
theorem need {o : Option α} (h : ∀ v, o = some v → z.Sim c p (f v) r) :
    z.Sim c p (Eval.need o >>= f) r := by
  intro s rest st hst
  cases o with
  | none => exact trivial
  | some v => exact h v rfl s rest st hst

theorem known {o : Option α} {v : α} (ho : o = some v) (h : z.Sim c p (f v) r) :
    z.Sim c p (Eval.need o >>= f) r := by
  subst ho
  exact need fun _ hv => Option.some.inj hv ▸ h

/-- Values further down are left alone. -/
theorem frame (h : z.Sim c p x q) (below : List Value) :
    z.Sim c { p with temps := p.temps ++ below } x
      fun v => { q v with temps := (q v).temps ++ below } := by
  intro s rest st hst
  simp only [At, List.append_assoc] at hst ⊢
  exact h s (below ++ rest) st hst

end Sim

theorem Silent.then {p p' : Spot} {x : Eval σ α} {q : α → Spot} (h : z.Silent c p p')
    (hx : z.Sim d p' x q) : z.Sim (c + d) p x q :=
  Sim.bind h fun _ => hx

theorem Silent.seq {p p' : Spot} {x : Eval σ α} {q : α → Spot} (h : z.Silent c p p')
    (hx : z.Sim 0 p' x q) : z.Sim 0 p x q :=
  (h.then hx).uncounted

/-- A step is taken at once. -/
theorem Silent.first {p p' : Spot} {x : Eval σ α} {q : α → Spot} (h : z.Silent 1 p p')
    (hx : z.Sim 0 p' x q) : z.Sim 1 p x q :=
  h.then hx

theorem Silent.pure {p : Spot} {q : α → Spot} {v : α} (h : z.Silent c p (q v)) :
    z.Sim c p (pure v) q := h

theorem Silent.refl (p : Spot) : z.Silent 0 p p := Sim.pure rfl

theorem Silent.trans {p p' p'' : Spot} (h : z.Silent c p p') (h' : z.Silent d p' p'') :
    z.Silent (c + d) p p'' := h.then h'

theorem Silent.frame {p q : Spot} (h : z.Silent c p q) (below : List Value) :
    z.Silent c { p with temps := p.temps ++ below } { q with temps := q.temps ++ below } :=
  Sim.frame h below

theorem Sim.thenSilent {p : Spot} {x : Eval σ α} {q r : α → Spot} (hx : z.Sim c p x q)
    (h : ∀ v, z.Silent d (q v) (r v)) : z.Sim (c + d) p x r := by
  rw [← bind_pure x]
  exact hx.bind fun v => (h v).pure

section Instructions

variable {next : Nat} {ghost : Nat → Option Value} {i : Instr}

/-- An instruction that carries out `x` in one step, whatever lies below on the stack. -/
theorem Sim.of_execute {p : Spot} {x : Eval σ α} {q : α → Spot} (hi : z.code[p.next]? = some i)
    (hne : i ≠ .halt)
    (h : ∀ (s : Store σ) (locals : Array Value) (rest : List Value),
      Agrees z.width z.hidden p.ghost locals s.locals →
      match x s, z.machine.execute p.next i
          (z.activation.state (p.next + 1) locals (p.temps ++ rest) s) with
      | .ok v s', .ok _ st' => z.At (q v) rest s' st'
      | .error (.stopped why) s', .error why' st' =>
        why = why' ∧ st'.globals = s'.globals ∧ st'.heap = s'.heap ∧ st'.host = s'.host
      | .error .stuck _, _ => True
      | _, _ => False) :
    z.Sim 1 p x q := by
  intro s rest st hst
  obtain ⟨locals, hagrees, rfl⟩ := hst
  have hstep : z.machine.step (z.activation.state p.next locals (p.temps ++ rest) s) = _ :=
    step_state hi hne
  rw [EStateM.bind_apply] at hstep
  have hmatch := h s locals rest hagrees
  cases hx : x s with
  | ok v s' =>
    rw [hx] at hmatch
    cases he : z.machine.execute p.next i
        (z.activation.state (p.next + 1) locals (p.temps ++ rest) s) with
    | ok u st' =>
      rw [he] at hmatch hstep
      exact ⟨1, st', Nat.le_refl 1, .one hstep, hmatch⟩
    | error why st' => rw [he] at hmatch; exact hmatch.elim
  | error e s' =>
    rw [hx] at hmatch
    cases he : z.machine.execute p.next i
        (z.activation.state (p.next + 1) locals (p.temps ++ rest) s) with
    | ok u st' =>
      rw [he] at hmatch
      cases e with
      | stuck => exact trivial
      | _ => exact hmatch.elim
    | error why st' =>
      rw [he] at hmatch hstep
      cases e with
      | stuck => exact trivial
      | stopped why' =>
        obtain ⟨rfl, hstore⟩ := hmatch
        exact ⟨0, _, st', .refl _, hstep, hstore⟩
      | _ => exact hmatch.elim

theorem Silent.rewrite {before after : List Value} (hi : z.code[next]? = some i) (hne : i ≠ .halt)
    (h : z.machine.Rewrites i before after) :
    z.Silent 1 ⟨next, ghost, before⟩ ⟨next + 1, ghost, after⟩ := by
  refine Sim.of_execute hi hne fun s locals rest hagrees => ?_
  rw [h]
  exact ⟨locals, hagrees, rfl⟩

theorem goTo_state {a : Activation} {here target next : Nat} {locals : Array Value}
    {temps : List Value} {s : Store σ} {d : Int} (hd : d.natAbs < 2 ^ 31) (ht : here + d = target) :
    goTo here (distance d) (a.state next locals temps s) =
      .ok () (a.state target locals temps s) := by
  have htarget : (here : Int) + (distance d).toInt = target := by rw [toInt_distance hd, ht]
  simp only [goTo, htarget, if_pos (Int.natCast_nonneg target), Int.toNat_natCast]
  rfl

theorem Silent.goTo {d : Int} {target : Nat}
    (hi : z.code[next]? = some (.jump .always (distance d))) (hd : d.natAbs < 2 ^ 31)
    (ht : next + d = target) : z.Silent 1 ⟨next, ghost, []⟩ ⟨target, ghost, []⟩ := by
  refine Sim.of_execute hi (by simp) fun s locals rest hagrees => ?_
  have hexec : z.machine.execute next (.jump .always (distance d))
      (z.activation.state (next + 1) locals rest s) = _ := goTo_state hd ht
  simp only [List.nil_append, hexec]
  exact ⟨locals, hagrees, rfl⟩

/-- The kind of the jump that is taken on this value. -/
def jumpOn (taken : Bool) : JumpKind := if taken then .ifTrue else .ifFalse

theorem Silent.jumpIf (taken : Bool) {d : Int} (target : Nat) {b : Bool}
    (hi : z.code[next]? = some (.jump (jumpOn taken) (distance d))) (hd : d.natAbs < 2 ^ 31)
    (ht : next + d = target) :
    z.Silent 1 ⟨next, ghost, [.boolean b]⟩
      ⟨if b = taken then target else next + 1, ghost, []⟩ := by
  refine Sim.of_execute hi (by simp) fun s locals rest hagrees => ?_
  have hexec : z.machine.execute next (.jump (jumpOn taken) (distance d))
      (z.activation.state (next + 1) locals ([.boolean b] ++ rest) s) =
      .ok () (z.activation.state (if b = taken then target else next + 1) locals rest s) := by
    cases taken <;> refine (EStateM.bind_ok (Activation.popBool_state ..)).trans ?_ <;> cases b
    case true.true | false.false => exact goTo_state hd ht
    all_goals rfl
  simp only [hexec]
  exact ⟨locals, hagrees, rfl⟩

end Instructions

/-- Rounds that each take a step carry out a loop. -/
theorem Sim.iterate {round : α → Eval σ (Option α)} {head : α → Spot} {exit : Spot}
    (h : ∀ a, z.Sim 1 (head a) (round a) fun r => r.elim exit head) (a : α) :
    z.Sim 0 (head a) (Eval.iterate round z.fuel a) fun _ => exit := by
  intro s rest st hst
  -- the fuel that is left bounds the steps from below, as it does for the whole loop
  suffices ∀ fuel ≤ z.fuel, ∀ a s st, z.At (head a) rest s st →
      ({ z with fuel } : Setting σ).Outcome 0 st (fun _ s' st' => z.At exit rest s' st')
        (Eval.iterate round fuel a s) from
    this z.fuel (Nat.le_refl _) a s st hst
  intro fuel
  induction fuel with
  | zero =>
    intro _ a s st _
    exact ⟨0, st, Nat.le_refl 0, .refl st⟩
  | succ fuel ih =>
    intro hle a s st hst
    have hround := h a s rest st hst
    rw [Eval.iterate, EStateM.bind_apply]
    cases hr : round a s with
    | ok o s' =>
      rw [hr] at hround
      obtain ⟨k, st', hk, hrun, hgood⟩ := hround
      cases o with
      | none => exact ⟨k, st', Nat.zero_le k, hrun, hgood⟩
      | some a' =>
        have hrest := ih (by omega) a' s' st' hgood
        dsimp only
        cases hloop : Eval.iterate round fuel a' s' with
        | ok u s'' =>
          rw [hloop] at hrest
          obtain ⟨n, st'', _, hrun', hgood'⟩ := hrest
          exact ⟨k + n, st'', Nat.zero_le _, hrun.trans hrun', hgood'⟩
        | error e s'' =>
          rw [hloop] at hrest
          match e, hrest with
          | .returned v, hrest => exact Returns.before hrun hrest
          | .stopped why, hrest => exact Stops.before hrun hrest
          | .exhausted, hrest =>
            obtain ⟨n, st'', hn, hrun'⟩ := hrest
            refine ⟨k + n, st'', ?_, hrun.trans hrun'⟩
            change fuel + 1 ≤ k + n
            change fuel ≤ n at hn
            omega
          | .stuck, _ => exact trivial
    | error e s' =>
      rw [hr] at hround
      match e, hround with
      | .returned v, hround => exact hround
      | .stopped why, hround => exact hround
      | .exhausted, hround =>
        obtain ⟨n, st'', hn, hrun'⟩ := hround
        exact ⟨n, st'', Nat.le_trans hle hn, hrun'⟩
      | .stuck, _ => exact trivial

end Setting

end Machine

end TurtleScript

import TurtleScript.Proofs.Machine.Pieces

/-!
# What a call leaves alone

A function that runs does not see the stack under its base: an instruction that goes through
does what it would do if that part of the stack, and the frames below, were not there. The one
exception is the return of the function itself, which goes back to the frame below and puts its
value on the stack that was left. None of this needs code that makes sense. How an instruction
fails may depend on the base, whose sum with a number of arguments is not checked.
-/
namespace TurtleScript

variable {σ α β : Type}

/-- The frame when `n` more values lie at the bottom of the stack. -/
def Frame.raise (n : Nat) (f : Frame) : Frame := { f with base := n + f.base }

/-- The frame as it waits for a call to come back. -/
def Frame.after (f : Frame) : Frame := { f with next := f.next + 1 }

namespace State

/-- The frames, innermost first. -/
def frames (s : State σ) : List Frame := s.frame :: s.callers

/-- The state with more values under its stack and more frames below its own. -/
def above (s : State σ) (under : Array Value) (below : List Frame) : State σ :=
  { s with
    stack := under ++ s.stack
    frame := s.frame.raise under.size
    callers := s.callers.map (Frame.raise under.size) ++ below }

/-- The bases of the frames, innermost first. -/
def bases (s : State σ) : List Nat := s.frames.map (·.base)

theorem bases_eq (s : State σ) : s.bases = s.frame.base :: s.callers.map (·.base) := rfl

/-- The bases do not decrease from the bottom to the top, and none is above the stack. -/
structure Nested (s : State σ) : Prop where
  ordered : s.bases.Pairwise (· ≥ ·)
  base_le : ∀ base ∈ s.bases, base ≤ s.stack.size

namespace Nested

variable {s : State σ}

theorem top (h : s.Nested) : s.frame.base ≤ s.stack.size := h.base_le _ List.mem_cons_self

theorem le_top (h : s.Nested) {base : Nat} (hbase : base ∈ s.bases) : base ≤ s.frame.base := by
  rcases List.mem_cons.mp hbase with rfl | hbase
  · exact Nat.le_refl _
  · exact (List.pairwise_cons.mp h.ordered).1 base hbase

/-- It is enough that the innermost base is not above the stack. -/
theorem of_top (hordered : s.bases.Pairwise (· ≥ ·)) (htop : s.frame.base ≤ s.stack.size) :
    s.Nested := by
  refine ⟨hordered, fun base hbase => ?_⟩
  rcases List.mem_cons.mp hbase with rfl | hbase
  · exact htop
  · exact Nat.le_trans ((List.pairwise_cons.mp hordered).1 base hbase) htop

end Nested

end State

namespace Exec

/-- The same result in another state. -/
def mapState (f : State σ → State σ) :
    EStateM.Result Stop (State σ) α → EStateM.Result Stop (State σ) α
  | .ok a s => .ok a (f s)
  | .error stop s => .error stop (f s)

theorem mapState_eq_ok {f : State σ → State σ} {r : EStateM.Result Stop (State σ) α} {a : α}
    {t : State σ} (h : mapState f r = .ok a t) : ∃ s, r = .ok a s ∧ t = f s := by
  cases r with
  | error stop s => cases h
  | ok b s =>
    cases h
    exact ⟨s, rfl, rfl⟩

def finalState : EStateM.Result Stop (State σ) α → State σ
  | .ok _ s | .error _ s => s

/-- What the piece does above a part of the stack, it does without that part. -/
def Blind (x : Exec σ α) : Prop :=
  ∀ ⦃s : State σ⦄ ⦃under : Array Value⦄ ⦃below : List Frame⦄ ⦃a : α⦄ ⦃t : State σ⦄,
    x (s.above under below) = .ok a t → ∃ s', x s = .ok a s' ∧ t = s'.above under below

/-- The piece stays in its frame and above the base. -/
structure Stays (s s' : State σ) : Prop where
  callers : s'.callers = s.callers
  function : s'.frame.function = s.frame.function
  base : s'.frame.base = s.frame.base
  base_le : s.frame.base ≤ s'.stack.size

/-- A piece of an instruction that neither sees nor leaves what lies under its base. -/
structure Inside (x : Exec σ α) : Prop where
  blind : Blind x
  stays : ∀ s : State σ, s.frame.base ≤ s.stack.size → Stays s (finalState (x s))

theorem Stays.refl {s : State σ} (h : s.frame.base ≤ s.stack.size) : Stays s s :=
  ⟨rfl, rfl, rfl, h⟩

theorem Stays.trans {s s₁ s₂ : State σ} (h : Stays s s₁) (h' : Stays s₁ s₂) : Stays s s₂ :=
  ⟨h'.callers.trans h.callers, h'.function.trans h.function, h'.base.trans h.base,
    h.base ▸ h'.base_le⟩

theorem Blind.bind {x : Exec σ α} {f : α → Exec σ β} (hx : Blind x) (hf : ∀ a, Blind (f a)) :
    Blind (x >>= f) := by
  intro s under below b t h
  obtain ⟨a, t₁, hfirst, hrest⟩ := EStateM.bind_eq_ok h
  obtain ⟨s₁, hs₁, rfl⟩ := hx hfirst
  obtain ⟨s₂, hs₂, rfl⟩ := hf a hrest
  exact ⟨s₂, (EStateM.bind_ok hs₁).trans hs₂, rfl⟩

/-- A piece is blind if it fares above a part of the stack as it does without. -/
theorem Blind.of_eq {x : Exec σ α} (h : ∀ (s : State σ) (under : Array Value) (below : List Frame),
    x (s.above under below) = mapState (·.above under below) (x s)) : Blind x := by
  intro s under below a t ht
  rw [h] at ht
  exact mapState_eq_ok ht

theorem shrink_append (xs ys : Array Value) (n : Nat) :
    (xs ++ ys).shrink (xs.size + n) = xs ++ ys.shrink n := by
  simp [Array.extract_append, Array.extract_eq_self_of_le]

theorem orFault_eq_ok {f : Fault} {o : Option α} {a : α} {s s' : State σ}
    (h : orFault f o s = .ok a s') : o = some a ∧ s' = s := by
  cases o with
  | none => cases h
  | some b =>
    cases h
    exact ⟨rfl, rfl⟩

theorem pop_eq_ok {op : Opcode} {v : Value} {s s' : State σ} (h : pop op s = .ok v s') :
    s.stack.back? = some v ∧ s.frame.base < s.stack.size ∧ s' = { s with stack := s.stack.pop } := by
  rw [pop] at h
  split at h
  case isTrue => cases h
  case isFalse hbase =>
    cases hback : s.stack.back? with
    | none => rw [hback] at h; cases h
    | some w =>
      rw [hback] at h
      cases h
      exact ⟨rfl, Nat.lt_of_not_le hbase, rfl⟩

theorem popMany_eq_ok {n : Nat} {op : Opcode} {args : Array Value} {s s' : State σ}
    (h : popMany n op s = .ok args s') :
    ∃ under, s.stack = under ++ args ∧ args.size = n ∧ s.frame.base ≤ under.size ∧
      s' = { s with stack := under } := by
  rw [popMany] at h
  split at h
  case isTrue => cases h
  case isFalse =>
    split at h
    case isTrue => cases h
    case isFalse hbase =>
      cases h
      refine ⟨s.stack.shrink (s.stack.size - n), ?_, ?_, ?_, rfl⟩
      · simp
      · simp only [Array.size_extract]
        omega
      · rw [Array.size_shrink]
        omega

theorem shrink_pop {xs : Array Value} {n : Nat} (h : n < xs.size) :
    xs.pop.shrink n = xs.shrink n := by
  obtain ⟨ys, v, rfl⟩ := Array.exists_push_of_size_pos (Nat.zero_lt_of_lt h)
  rw [Array.size_push, Nat.lt_succ_iff] at h
  simp [Array.extract_push_of_le h]

theorem extract_append (xs ys : Array Value) (n : Nat) :
    (xs ++ ys).extract (xs.size + n) (xs.size + ys.size) = ys.extract n ys.size := by
  simp [Array.extract_append]

namespace Inside

variable {x : Exec σ α} {f : α → Exec σ β}

theorem bind (hx : Inside x) (hf : ∀ a, Inside (f a)) : Inside (x >>= f) where
  blind := hx.blind.bind fun a => (hf a).blind
  stays := by
    intro s hs
    have hfirst := hx.stays s hs
    rw [EStateM.bind_apply]
    cases hxs : x s with
    | ok a s₁ =>
      rw [hxs] at hfirst
      have hs₁ : s₁.frame.base ≤ s₁.stack.size := hfirst.base.symm ▸ hfirst.base_le
      exact hfirst.trans ((hf a).stays s₁ hs₁)
    | error stop s₁ =>
      rw [hxs] at hfirst
      exact hfirst

theorem pure (a : α) : Inside (Pure.pure a : Exec σ α) :=
  ⟨.of_eq fun _ _ _ => rfl, fun _ hs => .refl hs⟩

theorem throw (stop : Stop) : Inside (MonadExcept.throw stop : Exec σ α) :=
  ⟨.of_eq fun _ _ _ => rfl, fun _ hs => .refl hs⟩

theorem orFault (f : Fault) (o : Option α) : Inside (Exec.orFault f o : Exec σ α) := by
  cases o with
  | none => exact throw _
  | some a => exact pure a

theorem push (v : Value) : Inside (Exec.push v : Exec σ Unit) where
  blind := .of_eq fun s under below => by
    refine congrArg (EStateM.Result.ok ()) ?_
    simp [State.above]
  stays := by
    intro s hs
    refine ⟨rfl, rfl, rfl, Nat.le_trans hs ?_⟩
    change s.stack.size ≤ (s.stack.push v).size
    simp

theorem pop_above (op : Opcode) (s : State σ) (under : Array Value) (below : List Frame) :
    Exec.pop op (s.above under below) = mapState (·.above under below) (Exec.pop op s) := by
  by_cases hbase : s.stack.size ≤ s.frame.base
  · have habove : (s.above under below).stack.size ≤ (s.above under below).frame.base := by
      simp only [State.above, Frame.raise, Array.size_append]
      omega
    rw [Exec.pop, Exec.pop, if_pos hbase, if_pos habove]
    rfl
  · have habove : ¬ (s.above under below).stack.size ≤ (s.above under below).frame.base := by
      simp only [State.above, Frame.raise, Array.size_append]
      omega
    have hne : s.stack ≠ #[] := by
      intro hempty
      simp [hempty] at hbase
    obtain ⟨rest, v, hstack⟩ := Array.exists_push_of_ne_empty hne
    rw [Exec.pop, Exec.pop, if_neg hbase, if_neg habove]
    simp [State.above, hstack, mapState]

theorem pop (op : Opcode) : Inside (Exec.pop op : Exec σ Value) where
  blind := .of_eq (pop_above op)
  stays := by
    intro s hs
    rw [Exec.pop]
    by_cases hbase : s.stack.size ≤ s.frame.base
    · rw [if_pos hbase]
      exact .refl hs
    · rw [if_neg hbase]
      cases s.stack.back? with
      | none => exact .refl hs
      | some v =>
        refine ⟨rfl, rfl, rfl, ?_⟩
        change s.frame.base ≤ s.stack.pop.size
        rw [Array.size_pop]
        omega

theorem popMany (n : Nat) (op : Opcode) : Inside (Exec.popMany n op : Exec σ (Array Value)) where
  blind := by
    intro s under below args t h
    rw [Exec.popMany] at h
    split at h
    case isTrue => cases h
    case isFalse hfits =>
      split at h
      case isTrue => cases h
      case isFalse hbase =>
        -- the base is lower without the part, so the sum fits there too
        simp only [State.above, Frame.raise, Array.size_append] at hfits hbase
        have hheight : under.size + s.stack.size - n = under.size + (s.stack.size - n) := by omega
        cases h
        rw [Exec.popMany, if_neg (by omega), if_neg (by omega)]
        simp only [State.above, Array.size_append, hheight, shrink_append, extract_append]
        exact ⟨_, rfl, rfl⟩
  stays := by
    intro s hs
    rw [Exec.popMany]
    split
    case isTrue => exact .refl hs
    case isFalse =>
      split
      case isTrue => exact .refl hs
      case isFalse hbase =>
        refine ⟨rfl, rfl, rfl, ?_⟩
        change s.frame.base ≤ (s.stack.shrink (s.stack.size - n)).size
        rw [Array.size_shrink]
        omega

end Inside

theorem Piece.inside {crashes : Prop} {takes gives : Nat} {x : Exec σ α}
    (h : Piece crashes takes gives x) : Inside x := by
  induction h with
  | pure a => exact .pure a
  | throw _ => exact .throw _
  | push v => exact .push v
  | pop op => exact .pop op
  | popMany _ op => exact .popMany _ op
  | look _ ih => exact ⟨fun s => (ih s.store).blind (s := s), fun s => (ih s.store).stays s⟩
  | change k => exact ⟨.of_eq fun _ _ _ => rfl, fun _ hs => ⟨rfl, rfl, rfl, hs⟩⟩
  | bind _ _ _ hx hf => exact hx.bind hf

end Exec

namespace Machine

open Exec

variable {m : Machine σ}

theorem goTo_inside (here : Nat) (delta : Int32) : Inside (goTo here delta : Exec σ Unit) := by
  rw [goTo]
  dsimp only
  split
  · exact ⟨.of_eq fun _ _ _ => rfl, fun _ hs => ⟨rfl, rfl, rfl, hs⟩⟩
  · exact .throw _

theorem jump_inside (here : Nat) (kind : JumpKind) (delta : Int32) :
    Inside (jump here kind delta : Exec σ Unit) := by
  have hpop (op : Opcode) : Inside (popBool op : Exec σ Bool) :=
    (Piece.popBool op : Piece False 1 0 _).inside
  cases kind with
  | always => exact goTo_inside here delta
  | ifFalse =>
    refine (hpop _).bind fun b => ?_
    cases b with
    | true => exact .pure ()
    | false => exact goTo_inside here delta
  | ifTrue =>
    refine (hpop _).bind fun b => ?_
    cases b with
    | true => exact goTo_inside here delta
    | false => exact .pure ()

theorem callNative_inside (native argc : Int32) : Inside (m.callNative native argc) := by
  rw [callNative]
  refine (Inside.popMany _ _).bind fun args => (Inside.orFault _ _).bind fun f =>
    Inside.bind ⟨.of_eq fun s under below => ?_, fun s hs => ?_⟩ fun result => ?_
  · dsimp only [State.above]
    cases (f args.toList s.heap s.host).1 <;> rfl
  · dsimp only
    cases (f args.toList s.heap s.host).1 <;> exact ⟨rfl, rfl, rfl, hs⟩
  · cases result with
    | none => exact .pure ()
    | some v => exact .push v

theorem fillSlots_eq_ok {locals filled : Array Value} {slots : List VariableDef} {s s' : State σ}
    (h : m.fillSlots locals slots s = .ok filled s') : ∃ heap, s' = { s with heap } := by
  induction slots generalizing locals s with
  | nil =>
    cases h
    exact ⟨_, rfl⟩
  | cons v vs ih =>
    rw [fillSlots] at h
    obtain ⟨type, s₁, htype, hrest⟩ := EStateM.bind_eq_ok h
    obtain ⟨-, rfl⟩ := orFault_eq_ok htype
    obtain ⟨value, s₂, ⟨⟩, hslots⟩ := EStateM.bind_eq_ok hrest
    obtain ⟨heap, rfl⟩ := ih hslots
    exact ⟨heap, rfl⟩

end Machine

end TurtleScript

import TurtleScript.Proofs.Machine.Transparency

/-!
# What stops a step

Every operand of every instruction is checked when it is used, and a check that fails is a
fault. Apart from these checks a step is stopped by a native, or by one of two instructions
that can crash. No check and no instruction says that the budget is spent: this is left to the
loop around the steps.
-/
namespace TurtleScript

namespace Exec

variable {σ α β : Type}

/-- The piece comes to a value, or a check stops it. -/
def Steady (x : Exec σ α) : Prop := ∀ s stop s', x s = .error stop s' → stop.isCheck = true

namespace Steady

variable {x : Exec σ α} {f : α → Exec σ β} {s s' : State σ} {stop : Stop}

/-- A sequence is stopped by a check, or in its second piece if the first is steady. -/
theorem error_of_bind (hx : Steady x) (h : (x >>= f) s = .error stop s') :
    stop.isCheck = true ∨ ∃ a t, x s = .ok a t ∧ f a t = .error stop s' := by
  rcases EStateM.bind_eq_error h with h | hsecond
  · exact .inl (hx s stop s' h)
  · exact .inr hsecond

/-- A sequence that crashes does so in its second piece if the first is steady. -/
theorem crash_of_bind (hx : Steady x) (h : (x >>= f) s = .error .crash s') :
    ∃ a t, x s = .ok a t ∧ f a t = .error .crash s' :=
  (hx.error_of_bind h).resolve_left nofun

theorem bind (hx : Steady x) (hf : ∀ a, Steady (f a)) : Steady (x >>= f) := by
  intro s stop s' h
  rcases hx.error_of_bind h with hcheck | ⟨a, t, -, hstop⟩
  · exact hcheck
  · exact hf a t stop s' hstop

theorem pure (a : α) : Steady (Pure.pure a : Exec σ α) := fun _ _ _ h => by cases h

theorem modifyGet (g : State σ → α × State σ) : Steady (MonadStateOf.modifyGet g : Exec σ α) :=
  fun _ _ _ h => by cases h

theorem fault {f : Fault} (hf : (Stop.fault f).isCheck = true) :
    Steady (Exec.fault f : Exec σ α) := by
  rintro s _ _ ⟨⟩
  exact hf

theorem ite {p : Prop} [Decidable p] {x y : Exec σ α} (hx : Steady x) (hy : Steady y) :
    Steady (if p then x else y) := by
  split
  · exact hx
  · exact hy

/-- A piece that goes on after a check. -/
theorem guarded {p : Prop} [Decidable p] {f : Fault} {y : Exec σ α}
    (hf : (Stop.fault f).isCheck = true) (hy : ¬ p → Steady y) :
    Steady (if p then Exec.fault f >>= fun _ : Unit => y else y) := by
  split
  case isTrue =>
    rintro s _ _ ⟨⟩
    exact hf
  case isFalse hp => exact hy hp

end Steady

/-- Values are not there, or the number of them is no number of values at all. -/
theorem popMany_error {n : Nat} {op : Opcode} {s s' : State σ} {stop : Stop}
    (h : popMany n op s = .error stop s') : stop.isCheck = true ∨ 2 ^ 32 ≤ n ∧ stop = .crash := by
  rw [popMany] at h
  split at h
  case isTrue hover =>
    cases h
    exact .inr ⟨Nat.not_lt.mp fun hn => not_overflows hn _ hover, rfl⟩
  case isFalse =>
    split at h <;> cases h
    exact .inl rfl

theorem Piece.error {crashes : Prop} {takes gives : Nat} {x : Exec σ α}
    (h : Piece crashes takes gives x) {s s' : State σ} {stop : Stop}
    (hstop : x s = .error stop s') : stop.isCheck = true ∨ crashes ∧ stop = .crash := by
  induction h generalizing s with
  | pure | push | change => cases hstop
  | throw hthrown => cases hstop; exact hthrown
  | pop op =>
    rw [Exec.pop] at hstop
    split at hstop
    · cases hstop; exact .inl rfl
    · split at hstop <;> cases hstop
      exact .inl rfl
  | popMany hn op => exact .inl ((popMany_error hstop).resolve_right fun h => by omega)
  | look _ ih => exact ih _ hstop
  | bind _ _ _ hx hf =>
    rcases EStateM.bind_eq_error hstop with hfirst | ⟨a, t, -, hsecond⟩
    · exact hx hfirst
    · exact hf a hsecond

theorem Piece.steady {takes gives : Nat} {x : Exec σ α} (h : Piece False takes gives x) :
    Steady x :=
  fun _ _ _ hstop => (h.error hstop).resolve_right fun hcrash => hcrash.1

end Exec

open Exec

namespace Machine

variable {σ : Type} {m : Machine σ} {s s' : State σ} {stop : Stop}

theorem jump_steady (here : Nat) (kind : JumpKind) (delta : Int32) :
    Steady (jump here kind delta : Exec σ Unit) := by
  have hgo : Steady (goTo here delta : Exec σ Unit) := .ite (.modifyGet _) (.fault rfl)
  cases kind with
  | always => exact hgo
  | ifFalse => exact (Piece.popBool _).steady.bind fun _ => .ite (.pure _) hgo
  | ifTrue => exact (Piece.popBool _).steady.bind fun _ => .ite hgo (.pure _)

/-- A negative number of arguments is the largest number there is, which no function takes. -/
theorem call_steady (id argc : Int32) : Steady (m.call id argc) := by
  refine (Piece.orFault rfl _).steady.bind fun f => ?_
  refine .guarded rfl fun hcount => ?_
  have hsmall := f.paramCount.toNat_lt
  exact (Piece.popMany (by omega) _).steady.bind fun _ =>
    (fillSlots_piece _ _).steady.bind fun _ => .modifyGet _

theorem ret_steady (count : Int32) : Steady (ret count : Exec σ Unit) := by
  have hback (value : Option Value) : Steady (comeBack value : Exec σ Unit) := by
    intro s stop s' h
    rw [comeBack] at h
    split at h
    · split at h <;> cases h
      rfl
    · cases h
      rfl
  rw [ret_eq]
  exact .ite (((Piece.pop _).map _).steady.bind hback) (hback none)

/-- All instructions but two. -/
theorem execute_steady (here : Nat) {i : Instr} (hadd : i ≠ .intAdd)
    (hnative : ∀ native argc, i ≠ .callNative native argc) : Steady (m.execute here i) := by
  have hpiece (hi : i.isStraight = true) : Steady (m.execute here i) :=
    fun _ _ _ hstop => ((execute_piece {} here hi).error hstop).resolve_right fun h => hadd h.1
  cases i with
  | jump kind delta => exact jump_steady here kind delta
  | call id argc => exact call_steady id argc
  | callNative native argc => exact absurd rfl (hnative native argc)
  | ret count => exact ret_steady count
  | _ => exact hpiece rfl

theorem announced_lt {argc : Int32} (h : 0 ≤ argc.toInt) : announced argc < 2 ^ 31 := by
  have := argc.toInt_lt
  rw [announced, Int32.index?, if_pos h, Option.getD_some]
  omega

theorem announced_of_neg {argc : Int32} (h : argc.toInt < 0) : announced argc = UInt64.size - 1 := by
  rw [announced, Int32.index?, if_neg (by omega), Option.getD_none]

/-- A call of a native is stopped by a check, by a negative number of arguments or by the
native. -/
theorem callNative_error {native argc : Int32} (h : m.callNative native argc s = .error stop s') :
    stop.isCheck = true ∨ (argc.toInt < 0 ∧ stop = .crash) ∨
      ∃ f ∈ m.natives, ∃ args heap host, (f args heap host).1 = .error stop := by
  rcases EStateM.bind_eq_error h with h | ⟨args, t, -, h⟩
  · rcases popMany_error h with hcheck | ⟨hover, hcrash⟩
    · exact .inl hcheck
    · refine .inr (.inl ⟨Int.not_le.mp fun hargc => ?_, hcrash⟩)
      have := announced_lt hargc
      omega
  rcases (Piece.orFault rfl _).steady.error_of_bind h with hcheck | ⟨f, u, hf, h⟩
  · exact .inl hcheck
  obtain ⟨i, -, hi⟩ := Option.bind_eq_some_iff.mp (orFault_eq_ok hf).1
  rcases EStateM.bind_eq_error h with h | ⟨value, t', -, h⟩
  · dsimp only at h
    split at h
    · cases h
    · rename_i stop' hresult
      cases h
      exact .inr (.inr ⟨f, Array.mem_of_getElem? hi, _, _, _, hresult⟩)
  · cases value <;> cases h

/-- A step is stopped by a check, by a crash of the machine or by a native. -/
theorem step_error (h : m.step s = .error stop s') :
    stop.isCheck = true ∨ stop = .crash ∨
      ∃ f ∈ m.natives, ∃ args heap host, (f args heap host).1 = .error stop := by
  have hfetch : Steady m.fetch := by
    intro s stop s' h
    rw [fetch] at h
    dsimp only at h
    split at h <;> cases h
    rfl
  rcases hfetch.error_of_bind h with hcheck | ⟨⟨i, here⟩, t, -, h⟩
  · exact .inl hcheck
  by_cases hhalt : i = .halt
  · subst hhalt
    cases h
  have hrun : m.execute here i t = .error stop s' := by
    rcases EStateM.bind_eq_error ((congrFun (if_neg hhalt) t).symm.trans h) with h | ⟨u, t', -, h⟩
    · exact h
    · cases h
  by_cases hadd : i = .intAdd
  · subst hadd
    rcases (intAdd_piece trivial).error hrun with hcheck | ⟨-, hcrash⟩
    · exact .inl hcheck
    · exact .inr (.inl hcrash)
  by_cases hnative : ∃ native argc, i = .callNative native argc
  · obtain ⟨native, argc, rfl⟩ := hnative
    rcases callNative_error hrun with hcheck | ⟨-, hcrash⟩ | hnative
    · exact .inl hcheck
    · exact .inr (.inl hcrash)
    · exact .inr (.inr hnative)
  · exact .inl (execute_steady here hadd (fun native argc hi => hnative ⟨native, argc, hi⟩) t stop s'
      hrun)

end Machine

end TurtleScript

import TurtleScript.Proofs.Machine.Stops

/-!
# What brings the machine down

Every operand of every instruction is checked when it is used, so code of any kind ends in a
value or in a fault. Two checks are missing. A native may be called with a negative number of
arguments, which is read as the largest word and overflows when the base is added, and a number
may be added to an address until it leaves the 64-bit range. The main result says that there is
no third way in the machine as it is defined here: over all modules, natives, globals and budgets
a run crashes exactly if it comes to one of these two instructions.

Two things about memory and words are not part of the machine. Its arrays are never freed, so
what it takes to release a deep nest of them does not show. And the crash of an addition is that
of arithmetic with overflow checks; without them the address would wrap. The call does not depend
on such checks, since an argument count that wraps splits the stack beyond its end.
-/
namespace TurtleScript

namespace Native

variable {σ : Type}

/-- The native comes back, with a value or a fault. -/
def Returns (f : Native σ) : Prop := ∀ args heap host, (f args heap host).1 ≠ .error .crash

end Native

/-- The two instructions that bring the machine down, in the states in which they do. -/
inductive State.Breaks {σ : Type} (s : State σ) : Instr → Prop where
  | callNative (native : Int32) {argc : Int32} (hneg : argc.toInt < 0) :
      s.Breaks (.callNative native argc)
  | intAdd {under : Array Value} {ref : Nat} {offset right : Int64}
      (hstack : s.stack = under ++ #[.address ref offset, .int right])
      (hbase : s.frame.base ≤ under.size)
      (hrange : ¬ (-2 ^ 63 ≤ offset.toInt + right.toInt ∧ offset.toInt + right.toInt < 2 ^ 63)) :
      s.Breaks .intAdd

open Exec

namespace Machine

variable {σ : Type} {m : Machine σ}

/-- A native that comes back does no harm, however many arguments it gets. -/
theorem callNative_ne_crash (hnatives : ∀ f ∈ m.natives, f.Returns) {native argc : Int32}
    (hargc : 0 ≤ argc.toInt) (s s' : State σ) : m.callNative native argc s ≠ .error .crash s' := by
  intro h
  rcases callNative_error h with hcheck | ⟨hneg, -⟩ | ⟨f, hf, args, heap, host, hstop⟩
  · cases hcheck
  · omega
  · exact hnatives f hf args heap host hstop

/-- A sum of words is exact as long as it stays in their range. -/
theorem toInt_add_eq_iff (a b : Int64) : (a + b).toInt = a.toInt + b.toInt ↔
    -2 ^ 63 ≤ a.toInt + b.toInt ∧ a.toInt + b.toInt < 2 ^ 63 := by
  have hrange := Int64.toInt_lt (a + b)
  have hrange' := Int64.le_toInt (a + b)
  constructor
  · intro h
    omega
  · rintro ⟨hle, hlt⟩
    rw [Int64.toInt_add]
    exact Int.bmod_eq_of_le (by omega) (by omega)

theorem popInt_eq_ok {op : Opcode} {n : Int64} {s s' : State σ} (h : popInt op s = .ok n s') :
    pop op s = .ok (.int n) s' := by
  obtain ⟨v, t, hpop, hv⟩ := EStateM.bind_eq_ok h
  cases v <;> cases hv
  exact hpop

theorem pop_eq_ok_iff {op : Opcode} {v : Value} {s s' : State σ} :
    pop op s = .ok v s' ↔
      s.stack = s'.stack.push v ∧ s.frame.base ≤ s'.stack.size ∧ s' = { s with stack := s'.stack } := by
  constructor
  · intro h
    obtain ⟨hback, hbase, rfl⟩ := pop_eq_ok h
    obtain ⟨under, w, hstack⟩ := Array.exists_push_of_size_pos (Nat.zero_lt_of_lt hbase)
    rw [hstack, Array.back?_push, Option.some.injEq] at hback
    rw [hstack, Array.size_push] at hbase
    rw [hstack, Array.pop_push, hback]
    exact ⟨rfl, Nat.le_of_lt_succ hbase, rfl⟩
  · rintro ⟨hstack, hbase, hs'⟩
    rw [pop, if_neg (by rw [hstack, Array.size_push]; omega), hstack, hs']
    simp

/-- An addition crashes if there is an address under a number that takes it out of range. -/
theorem intAdd_crash_iff {s : State σ} :
    (∃ s', (intAdd : Exec σ Unit) s = .error .crash s') ↔ s.Breaks .intAdd := by
  constructor
  · rintro ⟨s', h⟩
    obtain ⟨right, t, hright, h⟩ := (Piece.popInt _).steady.crash_of_bind h
    obtain ⟨left, u, hleft, h⟩ := (Piece.pop _).steady.crash_of_bind h
    obtain ⟨hstack, -, ht⟩ := pop_eq_ok_iff.mp (popInt_eq_ok hright)
    obtain ⟨hstack', hbase, -⟩ := pop_eq_ok_iff.mp hleft
    cases left with
    | address ref offset =>
      dsimp only at h
      split at h
      · cases h
      · rename_i hrange
        have hboth : s.stack = u.stack ++ #[.address ref offset, .int right] := by
          simp [hstack, hstack', ← Array.toList_inj]
        rw [ht] at hbase
        exact .intAdd hboth hbase (mt (toInt_add_eq_iff offset right).mpr hrange)
    | int | array | empty | boolean | double | string => cases h
  · intro h
    cases h with
    | @intAdd under ref offset right hstack hbase hrange =>
      have hpop : pop .intAdd s =
          .ok (.int right) { s with stack := under.push (.address ref offset) } :=
        pop_eq_ok_iff.mpr ⟨by simp [hstack, ← Array.toList_inj],
          by rw [Array.size_push]; omega, rfl⟩
      have hright : popInt .intAdd s =
          .ok right { s with stack := under.push (.address ref offset) } :=
        EStateM.bind_ok hpop
      have hleft : pop .intAdd { s with stack := under.push (.address ref offset) } =
          .ok (.address ref offset) { s with stack := under } :=
        pop_eq_ok_iff.mpr ⟨rfl, hbase, rfl⟩
      refine ⟨{ s with stack := under }, (EStateM.bind_ok hright).trans ?_⟩
      refine (EStateM.bind_ok hleft).trans ?_
      exact congrFun (if_neg (mt (toInt_add_eq_iff offset right).mp hrange)) _

/-- Above a base that is not zero, a negative number of arguments overflows. -/
theorem callNative_negative {s : State σ} {argc : Int32} (hargc : argc.toInt < 0)
    (hbase : 0 < s.frame.base) (native : Int32) : m.callNative native argc s = .error .crash s := by
  have hover : UInt64.size ≤ min s.frame.base capacity + announced argc := by
    have hsize : UInt64.size = 2 ^ 64 := rfl
    have hcapacity : capacity = 2 ^ 63 - 1 := rfl
    rw [announced_of_neg hargc]
    omega
  exact EStateM.bind_error (if_pos hover)

/-- One instruction, over all of them. -/
theorem execute_crash_iff (hnatives : ∀ f ∈ m.natives, f.Returns) (here : Nat) {i : Instr}
    {s : State σ} (hbase : ∀ native argc, i = .callNative native argc → 0 < s.frame.base) :
    (∃ s', m.execute here i s = .error .crash s') ↔ s.Breaks i := by
  have hsteady {i : Instr} (hi : Steady (m.execute here i)) (hbreaks : ¬ s.Breaks i) :
      (∃ s', m.execute here i s = .error .crash s') ↔ s.Breaks i :=
    iff_of_false (not_exists.mpr fun s' h => by cases hi s .crash s' h) hbreaks
  cases i with
  | intAdd => exact intAdd_crash_iff
  | callNative native argc =>
    by_cases hargc : 0 ≤ argc.toInt
    · refine iff_of_false (not_exists.mpr (callNative_ne_crash hnatives hargc s)) ?_
      rintro (hneg | _)
      omega
    · rw [Int.not_le] at hargc
      have hcrash := callNative_negative (m := m) hargc (hbase native argc rfl) native
      exact iff_of_true ⟨s, hcrash⟩ (.callNative native hargc)
  | _ => exact hsteady (execute_steady here (by simp) (by simp)) (by rintro ⟨⟩)

/-- Functions run above the value that the boot code begins with, so their bases are not zero. -/
structure Rooted (s : State σ) : Prop where
  nested : s.Nested
  base_pos : ∀ f ∈ s.frames, f.function ≠ none → 0 < f.base
  stack_pos : s.frame.function = none → s.frame.next ≠ 0 → 0 < s.stack.size

theorem boot_rooted (globals : Array Value) (heap : Heap) (host : σ) :
    Rooted (boot globals heap host) where
  nested := nested_boot globals heap host
  base_pos := by simp [State.frames, boot]
  stack_pos := by simp [boot]

/-- What the boot code does: it pushes a value, calls the entry function and halts. -/
theorem next?_boot {s : State σ} {i : Instr} (hs : s.frame.function = none)
    (h : m.next? s = some i) : i = .pushInt 0 ∨
      s.frame.next = 1 ∧ i = .call m.module.entryPoint.toInt32 0 ∨ i = .halt := by
  rw [next?, code, hs] at h
  rcases hnext : s.frame.next with _ | _ | _ | n <;> simp_all [Module.boot]

theorem Rooted.native_base {s : State σ} {native argc : Int32} (hs : Rooted s)
    (h : m.next? s = some (.callNative native argc)) : 0 < s.frame.base := by
  refine hs.base_pos _ List.mem_cons_self fun hboot => ?_
  rcases next?_boot hboot h with hi | ⟨-, hi⟩ | hi <;> cases hi

/-- An instruction that stays in its function; in the boot code it is the push. -/
theorem local_rooted {s s' : State σ} {i : Instr} (hs : Rooted s) (hnested : s'.Nested)
    (hnext : m.next? s = some i) (hi : i.isLocal = true) (hne : i ≠ .halt)
    (hrun : m.execute s.frame.next i s.fetched = .ok () s') : Rooted s' := by
  have hstays := (execute_inside (m := m) s.frame.next hi).stays s.fetched hs.nested.top
  rw [hrun] at hstays
  replace hstays : Stays s.fetched s' := hstays
  refine ⟨hnested, fun f hf hfunction => ?_, fun hboot _ => ?_⟩
  · rcases List.mem_cons.mp hf with rfl | hf
    · rw [hstays.function] at hfunction
      rw [hstays.base]
      exact hs.base_pos s.frame List.mem_cons_self hfunction
    · rw [hstays.callers] at hf
      exact hs.base_pos f (List.mem_cons_of_mem _ hf) hfunction
  · replace hboot : s.frame.function = none := hstays.function.symm.trans hboot
    rcases next?_boot hboot hnext with rfl | ⟨-, rfl⟩ | rfl
    · cases hrun
      simp
    · cases hi
    · exact absurd rfl hne

theorem call_rooted {s s' : State σ} {id argc : Int32} (hs : Rooted s) (hnested : s'.Nested)
    (hnext : m.next? s = some (.call id argc)) (hrun : m.call id argc s.fetched = .ok () s') :
    Rooted s' := by
  obtain ⟨f, under, args, hcallee, hstack, hsize, hbase, rfl, hcallers, hfunction, -, hentry⟩ :=
    call_eq_ok hrun
  have hunder : 0 < s'.stack.size := by
    by_cases hboot : s.frame.function = none
    · -- the call of the boot code takes nothing off the stack that the push left
      rcases next?_boot hboot hnext with hi | ⟨hone, hi⟩ | hi <;> cases hi
      have hpushed := hs.stack_pos hboot (by omega)
      have hnone : announced 0 = 0 := rfl
      rw [← call_announced hrun hcallee, hnone] at hsize
      replace hstack : s.stack = s'.stack ++ args := hstack
      rwa [hstack, Array.size_append, hsize] at hpushed
    · exact Nat.lt_of_lt_of_le (hs.base_pos _ List.mem_cons_self hboot) hbase
  refine ⟨hnested, fun g hg hrunning => ?_, fun hboot => ?_⟩
  · rcases List.mem_cons.mp hg with rfl | hg
    · exact hentry ▸ hunder
    · rw [hcallers] at hg
      rcases List.mem_cons.mp hg with rfl | hg
      · exact hs.base_pos s.frame List.mem_cons_self hrunning
      · exact hs.base_pos g (List.mem_cons_of_mem _ hg) hrunning
  · rw [hfunction] at hboot
    cases hboot

theorem ret_rooted {s s' : State σ} {count : Int32} (hs : Rooted s) (hnested : s'.Nested)
    (hnext : m.next? s = some (.ret count)) (hle : s.frame.base ≤ s'.stack.size)
    (hrun : ret count s.fetched = .ok () s') : Rooted s' := by
  have hbase : 0 < s.frame.base := by
    refine hs.base_pos _ List.mem_cons_self fun hboot => ?_
    rcases next?_boot hboot hnext with hi | ⟨-, hi⟩ | hi <;> cases hi
  have hcallers : s.callers = s'.frames := (ret_eq_ok hrun).1
  refine ⟨hnested, fun f hf => ?_, fun _ _ => Nat.lt_of_lt_of_le hbase hle⟩
  exact hs.base_pos f (List.mem_cons_of_mem _ (hcallers ▸ hf))

theorem step_rooted {s s' : State σ} (hs : Rooted s) (h : m.step s = .ok .running s') :
    Rooted s' := by
  have hnested := step_nested hs.nested h
  obtain ⟨i, hnext, hne, hrun⟩ := step_running.mp h
  by_cases hi : i.isLocal = true
  · exact local_rooted hs hnested hnext hi hne hrun
  · cases i with
    | call id argc => exact call_rooted hs hnested hnext hrun
    | ret count => exact ret_rooted hs hnested hnext (step_moves hs.nested.top h).1 hrun
    | _ => exact absurd rfl hi

theorem step_crash_iff (hnatives : ∀ f ∈ m.natives, f.Returns) {s : State σ} (hs : Rooted s) :
    (∃ s', m.step s = .error .crash s') ↔ ∃ i, m.next? s = some i ∧ s.Breaks i := by
  cases hnext : m.next? s with
  | none =>
    refine iff_of_false ?_ (by simp)
    rintro ⟨s', h⟩
    cases (EStateM.bind_error (fetch_of_none hnext)).symm.trans h
  | some i =>
    have hexecute := execute_crash_iff hnatives s.frame.next (s := s.fetched) (i := i) (by
      rintro native argc rfl
      exact hs.native_base hnext)
    have hfetched : s.fetched.Breaks i ↔ s.Breaks i :=
      ⟨fun h => by cases h <;> constructor <;> assumption,
        fun h => by cases h <;> constructor <;> assumption⟩
    have hstep : m.step s = (if i = .halt then
        fun s => .ok (.halted (if 1 < s.stack.size then s.stack.back? else none)) s
      else m.execute s.frame.next i >>= fun _ => pure .running : Exec σ Progress) s.fetched :=
      EStateM.bind_ok (fetch_of_some hnext)
    simp only [Option.some.injEq, exists_eq_left', ← hfetched, ← hexecute]
    by_cases hhalt : i = .halt
    · subst hhalt
      refine iff_of_false ?_ ?_
      · rintro ⟨s', h⟩
        cases hstep.symm.trans h
      · rintro ⟨s', ⟨⟩⟩
    · replace hstep := hstep.trans (congrFun (if_neg hhalt) _)
      constructor
      · rintro ⟨s', h⟩
        rw [hstep, EStateM.bind_apply] at h
        cases hrun : m.execute s.frame.next i s.fetched with
        | ok u t => rw [hrun] at h; cases h
        | error stop t => rw [hrun] at h; cases h; exact ⟨_, rfl⟩
      · rintro ⟨s', h⟩
        exact ⟨s', hstep.trans (EStateM.bind_error h)⟩

/-- A state that crashes within `left + 1` steps crashes at once or after one step. -/
theorem reaches_succ_iff {P : State σ → Prop} {left : Nat} {s : State σ} :
    (∃ k < left + 1, ∃ s', Runs m k s s' ∧ P s') ↔
      P s ∨ ∃ t, m.step s = .ok .running t ∧ ∃ k < left, ∃ s', Runs m k t s' ∧ P s' := by
  constructor
  · rintro ⟨k, hk, s', hruns, hp⟩
    cases hruns with
    | refl => exact .inl hp
    | step hstep hrest => exact .inr ⟨_, hstep, _, by omega, s', hrest, hp⟩
  · rintro (hp | ⟨t, hstep, k, hk, s', hruns, hp⟩)
    · exact ⟨0, by omega, s, .refl s, hp⟩
    · exact ⟨k + 1, by omega, s', .step hstep hruns, hp⟩

/-- From any such state, by induction on the steps that are left. -/
theorem advance_crash_iff (hnatives : ∀ f ∈ m.natives, f.Returns) (budget left : Nat)
    {s : State σ} (hs : Rooted s) : (m.advance budget left s).1 = .stopped .crash ↔
      ∃ k < left, ∃ s', Runs m k s s' ∧ ∃ i, m.next? s' = some i ∧ s'.Breaks i := by
  induction left generalizing s with
  | zero => exact iff_of_false nofun (by simp)
  | succ left ih =>
    rw [reaches_succ_iff, ← step_crash_iff hnatives hs, advance]
    cases hstep : m.step s with
    | error stop t => simp
    | ok progress t =>
      cases progress with
      | running => simp [ih (step_rooted hs hstep)]
      | halted value => simp

/-- A run crashes exactly if it comes, within its budget, to a call of a native with a negative
number of arguments or to an addition that takes an address out of range. -/
theorem run_crash_iff (m : Machine σ) (hnatives : ∀ f ∈ m.natives, f.Returns) (budget : Nat)
    (globals : Array Value) (heap : Heap) (host : σ) :
    (m.run budget globals heap host).1 = .stopped .crash ↔
      ∃ k < budget, ∃ s, Runs m k (boot globals heap host) s ∧
        ∃ i, m.next? s = some i ∧ s.Breaks i :=
  advance_crash_iff hnatives budget budget (boot_rooted globals heap host)

/-- A machine with one native that takes and gives nothing, and code that calls it. -/
def calling (argc : Int32) : Machine Unit where
  natives := #[fun _ heap host => (.ok none, heap, host)]
  module :=
    { name := "", vendor := "", version := {}, entryPoint := 0, constants := #[]
      types := TypeDef.catalogue
      functions := #[{ id := 0, name := "main", returnType := Kind.empty.id, paramCount := 0
                       slots := [], code := #[.callNative 0 argc, .ret 0] }] }

/-- The number of arguments of a native is not checked for its sign, as the length of an array
and the number of arguments of a function are. -/
theorem run_calling_negative : ((calling (-1)).run 3 #[] {} ()).1 = .stopped .crash := by
  decide +kernel

theorem run_crash_iff_calling :
    (∀ f ∈ (calling (-1)).natives, f.Returns) ∧
    (∃ k < 3, ∃ s, Runs (calling (-1)) k (boot #[] {} ()) s ∧
      ∃ i, (calling (-1)).next? s = some i ∧ s.Breaks i) ∧
    ¬ ∃ k < 9, ∃ s, Runs (calling 2) k (boot #[] {} ()) s ∧
      ∃ i, (calling 2).next? s = some i ∧ s.Breaks i := by
  have hreturns (argc : Int32) : ∀ f ∈ (calling argc).natives, f.Returns := by
    intro f hf
    cases List.mem_singleton.mp (Array.mem_toList_iff.mpr hf)
    exact nofun
  refine ⟨hreturns (-1), ?_, ?_⟩
  · exact (run_crash_iff (calling (-1)) (hreturns _) 3 #[] {} ()).mp (by decide +kernel)
  · exact mt (run_crash_iff (calling 2) (hreturns _) 9 #[] {} ()).mpr (by decide +kernel)

end Machine

end TurtleScript

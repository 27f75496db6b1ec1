import TurtleScript.Proofs.Machine.Preservation
import TurtleScript.Proofs.Machine.Stops

/-!
# The budget only cuts runs short

A run is one sequence of steps, whatever its budget. It ends where a step ends it, and the step
that does so counts; or it is cut off, and then it has taken as many steps as the budget has.
So a run that is not cut off is the same under every larger budget, and one that is cut off is
the beginning of every longer one.
-/
namespace TurtleScript

variable {σ : Type}

namespace Native

/-- The native never says that the budget is spent. -/
def Unlimited (f : Native σ) : Prop :=
  ∀ args heap host n, (f args heap host).1 ≠ .error (.fault (.stepLimit n))

theorem Unlimited.logged {f : Native σ} (h : f.Unlimited) (index : Nat) :
    (f.logged index).Unlimited := fun args heap host n => h args heap host.1 n

theorem unlimited_loggedAll {natives : Array (Native σ)} (h : ∀ f ∈ natives, f.Unlimited) :
    ∀ f ∈ loggedAll natives, f.Unlimited := by
  intro f hf
  obtain ⟨i, hi, rfl⟩ := Array.mem_mapIdx.mp hf
  exact (h natives[i] (Array.getElem_mem hi)).logged i

end Native

namespace Machine

variable {m : Machine σ} {globals : Array Value} {heap : Heap} {host : σ} {s s' : State σ}
  {N M : Nat}

/-- What a run with this budget can come to: it is cut off after all its steps, or one of them
ends it. -/
inductive Course (m : Machine σ) (globals : Array Value) (heap : Heap) (host : σ) (budget : Nat) :
    Ending × State σ → Prop where
  | cutOff {s : State σ} (hruns : Runs m budget (boot globals heap host) s) :
      Course m globals heap host budget (.stopped (.fault (.stepLimit budget)), s)
  | halted {n : Nat} {value : Option Value} {s : State σ} (hle : n ≤ budget)
      (hends : Ends m globals heap host n (.finished n value) s) :
      Course m globals heap host budget (.finished n value, s)
  | stopped {n : Nat} {s₁ s : State σ} {stop : Stop} (hle : n ≤ budget)
      (hstep : m.step s₁ = .error stop s) (hends : Ends m globals heap host n (.stopped stop) s) :
      Course m globals heap host budget (.stopped stop, s)

/-- After `k` steps, by induction on what is left of the budget. -/
theorem advance_course {k : Nat} (left : Nat) (hruns : Runs m k (boot globals heap host) s) :
    Course m globals heap host (k + left) (m.advance (k + left) left s) := by
  induction left generalizing k s with
  | zero => exact .cutOff hruns
  | succ left ih =>
    cases hstep : m.step s with
    | error stop t =>
      have hlast (rest : Nat) :
          m.advance (k + (rest + 1)) (rest + 1) s = (.stopped stop, t) := by
        rw [advance, hstep]
      rw [hlast left]
      exact .stopped (by omega) hstep (ends_of_advance hruns hlast)
    | ok progress t =>
      cases progress with
      | running =>
        have hnext := ih (hruns.trans (.one hstep))
        rw [advance, hstep]
        rwa [Nat.add_right_comm] at hnext
      | halted value =>
        have hsteps : k + (left + 1) - left = k + 1 := by omega
        rw [advance, hstep, hsteps]
        exact .halted (by omega) (ends_halted hruns hstep)

theorem run_course (m : Machine σ) (globals : Array Value) (heap : Heap) (host : σ)
    (budget : Nat) : Course m globals heap host budget (m.run budget globals heap host) := by
  have hcourse := advance_course budget (.refl (boot globals heap host) : Runs m 0 _ _)
  rwa [Nat.zero_add] at hcourse

/-- No step says that the budget is spent. -/
theorem step_ne_stepLimit (hnatives : ∀ f ∈ m.natives, f.Unlimited) (n : Nat) :
    m.step s ≠ .error (.fault (.stepLimit n)) s' := by
  intro h
  rcases step_error h with hcheck | hcrash | ⟨f, hf, args, heap, host, hstop⟩
  · cases hcheck
  · cases hcrash
  · exact hnatives f hf args heap host n hstop

/-- A run that is not cut off comes to the same, after the same steps and with the same globals
and calls of natives, under every larger budget. Its steps are within the budget. A run that is
cut off has taken all its steps, and they are the first of a run with a larger budget. -/
theorem run_budget (module : Module) (natives : Array (Native σ))
    (hnatives : ∀ f ∈ natives, f.Unlimited) (globals : Array Value) (heap : Heap) (host : σ)
    (hle : N ≤ M) :
    let m : Machine (σ × Calls) := ⟨module, Native.loggedAll natives⟩
    let run (budget : Nat) := m.run budget globals heap (host, [])
    ((∀ n, (run N).1 ≠ .stopped (.fault (.stepLimit n))) → run M = run N) ∧
    (∀ steps value, (run N).1 = .finished steps value → steps ≤ N) ∧
    ∀ n, (run N).1 = .stopped (.fault (.stepLimit n)) →
      n = N ∧ Runs m N (boot globals heap (host, [])) (run N).2 ∧
        run M = m.advance M (M - N) (run N).2 := by
  intro m run
  have hcourse : Course m globals heap (host, []) N (run N) := run_course ..
  generalize run N = outcome at hcourse
  cases hcourse with
  | cutOff hruns =>
    refine ⟨fun hne => absurd rfl (hne N), nofun, ?_⟩
    rintro _ ⟨⟩
    refine ⟨rfl, hruns, ?_⟩
    have hrest := advance_runs hruns M (M - N)
    rwa [Nat.add_sub_cancel' hle] at hrest
  | halted hn hends =>
    refine ⟨fun _ => hends.2 M (by omega), ?_, nofun⟩
    rintro _ _ ⟨⟩
    exact hn
  | stopped hn hstep hends =>
    refine ⟨fun _ => hends.2 M (by omega), nofun, ?_⟩
    rintro n ⟨⟩
    exact absurd hstep (step_ne_stepLimit (Native.unlimited_loggedAll hnatives) n)

/-- Calls a native that does nothing, and goes on with `last`. -/
def ticking (last : Instr) : Module :=
  { name := "", vendor := "", version := {}, entryPoint := 0, constants := #[]
    types := TypeDef.catalogue
    functions := #[{ id := 0, name := "main", returnType := Kind.empty.id, paramCount := 0
                     slots := [], code := #[.callNative 0 0, last] }] }

def tick : Native Unit := fun _ heap host => (.ok none, heap, host)

/-- A run that ends within the smaller budget, and one that never ends: after five steps it has
called the native twice. -/
theorem run_budget_ticking :
    let m (last : Instr) : Machine (Unit × Calls) := ⟨ticking last, Native.loggedAll #[tick]⟩
    let run (last : Instr) (budget : Nat) := (m last).run budget #[] {} ((), [])
    (∀ f ∈ #[tick], f.Unlimited) ∧
    (run (.ret 0) 5).1 = .finished 5 none ∧ run (.ret 0) 9 = run (.ret 0) 5 ∧
    (run (.jump .always (-1)) 5).2.host.2 = [(0, []), (0, [])] ∧
    Runs (m (.jump .always (-1))) 5 (boot #[] {} ((), [])) (run (.jump .always (-1)) 5).2 ∧
    run (.jump .always (-1)) 9 =
      (m (.jump .always (-1))).advance 9 4 (run (.jump .always (-1)) 5).2 := by
  intro m run
  have hunlimited : ∀ f ∈ #[tick], f.Unlimited := by
    intro f hf
    cases List.mem_singleton.mp (Array.mem_toList_iff.mpr hf)
    exact nofun
  have hends : (run (.ret 0) 5).1 = .finished 5 none := by decide +kernel
  have hcut : (run (.jump .always (-1)) 5).1 = .stopped (.fault (.stepLimit 5)) := by
    decide +kernel
  obtain ⟨hsame, -⟩ :=
    run_budget (ticking (.ret 0)) #[tick] hunlimited #[] {} () (show 5 ≤ 9 by decide)
  obtain ⟨-, -, hlimit⟩ := run_budget (ticking (.jump .always (-1))) #[tick] hunlimited #[] {} ()
    (show 5 ≤ 9 by decide)
  obtain ⟨-, hruns, hrest⟩ := hlimit 5 hcut
  refine ⟨hunlimited, hends, hsame fun n hn => ?_, by decide +kernel, hruns, hrest⟩
  cases hends.symm.trans hn

end Machine

end TurtleScript

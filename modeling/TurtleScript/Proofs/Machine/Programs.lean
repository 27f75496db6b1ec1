import TurtleScript.Proofs.Machine.Control

/-!
# Bodies, calls and whole programs

By induction over the tree every node's code carries out the node. Hence the code of a
function carries out its body, by induction on the fuel a call carries out the function, and
a run carries out the program.
-/
namespace TurtleScript

open Semantics Code

namespace Machine

variable {σ α : Type} {w : World σ} {m : Machine σ} {pool : Pool} {fuel : Nat}
  {invoke : Invoke σ}

/-- The code of every node carries out the node. -/
theorem carries (hl : Linked w m pool) (hinvoke : Invokes m fuel invoke) (e : Expr)
    (he : e ∈ w.body.nodes) : Carries w m pool fuel invoke e := by
  refine Expr.mem_nodes_induction (fun e he mem below within => ?_) e he
  cases e with
  | constant l value => exact constant_carries hl value
  | var l name d => exact var_carries hl he
  | binary l op left right =>
    have hright := below right (by simp)
    by_cases hop : op = .assign
    · subst hop
      cases left with
      | var target name d =>
        exact assignVar_carries hl (mem _ (by simp)) hright
      | element target array index =>
        cases index with
        | none => exact fun _ _ _ _ _ _ hseg _ => nomatch hseg
        | some index =>
          have part (y : Expr) (hy : y ∈ [array, index]) :=
            within (.element target array (some index)) (by simp) y hy
          exact assignElement_carries (part array (by simp)) (part index (by simp)) hright
      | _ => exact fun _ _ _ _ _ _ hseg _ => nomatch hseg
    · exact operator_carries hl hinvoke hop (below left (by simp)) hright
  | function l name params body => exact function_carries
  | block l body => exact block_carries below
  | cond l condition thenBranch elseBranch =>
    have hc := below condition (by simp)
    have ht := below thenBranch (by simp)
    cases elseBranch with
    | none => exact if_carries hl hc ht
    | some elseBranch => exact ifElse_carries hc ht (below elseBranch (by simp))
  | forLoop l init condition step body =>
    have hi (x : Expr) (hx : x ∈ init.toList) := below x (by simp_all)
    have hs (x : Expr) (hx : x ∈ step.toList) := below x (by simp_all)
    exact forLoop_carries hi hs (below body (by simp))
      fun x hx => below x (by simp_all)
  | forTo l counter start bound direction body =>
    exact forTo_carries hl (mem counter (by simp))
      (below start (by simp)) (below bound (by simp))
      (below body (by simp))
  | forIn l item iterable body =>
    exact forIn_carries hl he (below iterable (by simp))
      (below body (by simp))
  | whileLoop l condition body =>
    exact whileLoop_carries (below condition (by simp))
      (below body (by simp))
  | repeatUntil l body condition =>
    exact repeatUntil_carries (below body (by simp))
      (below condition (by simp))
  | call l name args => exact call_carries hl hinvoke he below
  | ret l value => exact ret_carries fun x hx => below x (by simp_all)
  | paren l inner => exact paren_carries (below inner (by simp))
  | element l array index =>
    exact element_carries (below array (by simp))
      fun x hx => below x (by simp_all)
  | array l elements => exact array_carries hl he below

section Bodies

open Setting

variable {a : Activation} {z : Setting σ} {p : Spot} {s : Store σ} {st : State σ}

/-- A body whose code ends with a return. -/
theorem Setting.Sim.bodyOutcome {x : Eval σ (Option Value)} {q : α → Spot} {rest : List Value}
    (h : z.Sim 0 p (do throw (.returned (← x))) q) (hst : z.At p rest s st) :
    BodyOutcome z.machine z.fuel z.activation st (x s) := by
  have hreturns := h s rest st hst
  rw [EStateM.bind_apply] at hreturns
  cases hx : x s with
  | ok v s' =>
    rw [hx] at hreturns
    exact hreturns
  | error e s' =>
    rw [hx] at hreturns
    cases e <;> exact hreturns

theorem epilogue_sim {next : Nat} {ghost : Nat → Option Value} {v : Option Value} {result type : Ty}
    {q : α → Spot} (hv : v.isSome = !type.isEmpty) (hcode : z.Holds next (epilogue result type)) :
    z.Sim 0 ⟨next, ghost, v.toList⟩
      (throw (.returned (if !result.isEmpty && type = result then v else none))) q := by
  by_cases hresult : (!result.isEmpty && decide (type = result)) = true
  · rw [epilogue, if_pos hresult] at hcode
    rw [if_pos hresult]
    obtain ⟨hsome, rfl⟩ : (!result.isEmpty) = true ∧ type = result := by simpa using hresult
    refine Sim.ret ?_
    rw [hv, hsome]
    exact hcode.head
  · rw [epilogue, if_neg hresult] at hcode
    rw [if_neg hresult]
    cases hempty : type.isEmpty with
    | true =>
      obtain rfl : v = none := by simpa [hempty] using hv
      rw [hempty] at hcode
      exact Sim.ret (v := none) hcode.head
    | false =>
      obtain ⟨x, rfl⟩ := Option.isSome_iff_exists.mp (by simpa [hempty] using hv)
      rw [hempty] at hcode
      refine Silent.seq (.rewrite hcode.head (by simp) (rewrites_pop x)) ?_
      exact Sim.ret (v := none) hcode.tail.head

/-- The code of a function carries out its body. -/
theorem body_outcome {function scope : Nat} {result : Ty} {body : Expr}
    {ghost : Nat → Option Value} {rest : List Value} (hc : Carries w m pool fuel invoke body)
    (hz : Ready w m fuel z function ghost body)
    (hcode : lowerBody pool ⟨w.tree, w.resolution, scope⟩ result body = some z.code.toList)
    (hst : z.At ⟨0, ghost, []⟩ rest s st) :
    BodyOutcome z.machine z.fuel z.activation st
      (w.evalBody fuel invoke ⟨scope, function⟩ result body s) := by
  refine Sim.bodyOutcome (q := fun v : Option Value => ⟨0, ghost, []⟩) ?_ hst
  obtain ⟨code, hbody, hk⟩ := Option.bind_eq_some_iff.mp hcode
  obtain ⟨type, htype, hk⟩ := Option.bind_eq_some_iff.mp hk
  have hholds : z.Holds 0 (code ++ epilogue result type) := by
    intro j i hj
    rw [Option.some.inj hk] at hj
    simpa using hj
  obtain ⟨hcodeB, hcodeE⟩ := hholds.append
  simp only [World.evalBody, bind_assoc, pure_bind]
  refine (hc.inner hz hbody hcodeB).seq fun v => settle_need fun type' htype' hv => ?_
  obtain rfl : type = type' := Option.some.inj (htype.symm.trans htype')
  simp only [htype', Option.some.injEq]
  exact epilogue_sim hv hcodeE

end Bodies

/-- The module has the function with this record, scope, result and body. -/
structure Installed (w : World σ) (m : Machine σ) (pool : Pool) (id scope : Nat)
    (f : FunctionRecord) (result : Ty) (body : Expr) (d : FunctionDef) : Prop where
  callee : m.callee? (Generate.operand id) = some d
  name : d.name = f.name
  returnType : d.returnType = result.id
  params : d.paramCount.toNat = f.paramCount
  slots : d.slots.map (·.typeId) = (w.slotTypes f).map Ty.id
  paramSlots : f.paramCount ≤ f.slots.length
  code : lowerBody pool ⟨w.tree, w.resolution, scope⟩ result body = some d.code.toList
  size : d.code.size < 2 ^ 31
  loops : ∀ l item iterable inner, body.Encloses (.forIn l item iterable inner) →
    ∃ array index, w.tree.LoopPlaces id l.id array index ∧ array ≠ index ∧
      array < f.slots.length ∧ index < f.slots.length

theorem size_fill (heap : Heap) (locals : Array Value) (types : List Ty) :
    (World.fill heap locals types).1.size = locals.size + types.length := by
  induction types generalizing heap locals with
  | nil => rfl
  | cons type types ih =>
    rw [World.fill, ih, Array.size_push, List.length_cons]
    omega

theorem agrees_start {width : Nat} {hidden : Nat → Prop} {locals : Array Value}
    (h : locals.size = width) : Agrees width hidden (fun _ => none) locals locals :=
  ⟨h, h, fun _ _ => rfl, nofun⟩

section Calls

variable {id scope : Nat} {f : FunctionRecord} {result : Ty} {body : Expr} {d : FunctionDef}
  {frame : Frame} {callers : List Frame} {under args : List Value} {s : Store σ} {st : State σ}

theorem CallOutcome.need {o : Option α} {k : α → Eval σ (Option Value)} {locals : Array Value}
    (h : ∀ v, o = some v → CallOutcome m fuel frame callers under locals st (k v s)) :
    CallOutcome m fuel frame callers under locals st ((Eval.need o >>= k) s) := by
  cases o with
  | none => exact trivial
  | some v => exact h v rfl

/-- A call of an installed function runs it as the evaluator does. -/
theorem call_installed (hl : Linked w m pool) (hd : Installed w m pool id scope f result body d)
    (hc : Carries w m pool fuel invoke body) (hargs : args.length < 2 ^ 31)
    (hbase : frame.base ≤ under.length)
    (hstep : m.step st = (m.call (Generate.operand id) (Generate.operand args.length) >>=
      fun _ => pure .running) (State.atop frame callers (args.reverse ++ under) s)) :
    CallOutcome m (fuel + 1) frame callers under s.locals st
      (w.activate f result args (w.evalBody fuel invoke ⟨scope, id⟩ result body) s) := by
  by_cases hcount : args.length ≠ f.paramCount
  · rw [World.activate, if_pos hcount]
    exact trivial
  · replace hcount : args.length = f.paramCount := Decidable.not_not.mp hcount
    have hslots : (d.slots.drop args.length).map (·.typeId) =
        ((w.slotTypes f).drop args.length).map Ty.id := by
      rw [List.map_drop, List.map_drop, hd.slots]
    have hcall : m.call (Generate.operand id) (Generate.operand args.length)
        (State.atop frame callers (args.reverse ++ under) s) = _ :=
      call_over hl.types hd.callee hargs (hd.params.trans hcount.symm) hslots hbase
    cases hfill : World.fill s.heap args.toArray ((w.slotTypes f).drop args.length) with
    | mk locals heap =>
      rw [hfill] at hcall
      rw [EStateM.bind_ok hcall] at hstep
      have hwidth : locals.size = f.slots.length := by
        have hsize := size_fill s.heap args.toArray ((w.slotTypes f).drop args.length)
        rw [hfill] at hsize
        simp only [List.size_toArray, List.length_drop, World.slotTypes, List.length_map] at hsize
        have := hd.paramSlots
        omega
      let a : Activation := ⟨d, under, frame, callers⟩
      let z : Setting σ := ⟨m, a, fuel, f.slots.length, w.tree.Hidden id⟩
      have hready : Ready w m fuel z id (fun _ => none) body :=
        ⟨rfl, rfl, rfl, hd.size, hd.loops, fun _ _ _ _ _ _ _ _ => ⟨rfl, rfl⟩⟩
      have hat : z.At ⟨0, fun _ => none, []⟩ [] { s with locals, heap }
          (a.state 0 locals [] { s with locals, heap }) :=
        ⟨locals, agrees_start hwidth, rfl⟩
      have hbody := body_outcome hc hready hd.code hat
      exact activate_call (a := a) hfill hd.returnType hd.name hstep hbody

end Calls

/-- Every function of the program is installed. -/
structure LinkedAll (w : World σ) (m : Machine σ) (pool : Pool) : Prop
    extends Linked w m pool where
  declared : ∀ (id : Nat) (l : Label) (body : Expr) (scope : Nat) (f : FunctionRecord)
    (result : Ty), w.declaration? id = some (l, body) → w.tree.scopeOf? l.id = some scope →
    w.tree.functions[id]? = some f → f.returnType = some result →
      ∃ d, Installed w m pool id scope f result body d
  program : ∀ f, w.tree.functions[ScopeTree.main]? = some f →
    ∃ d, Installed w m pool ScopeTree.main w.tree.program f .empty w.body d
  entry : m.module.entryPoint = UInt32.ofNat ScopeTree.main

theorem declaration?_mem {id : Nat} {l : Label} {body : Expr}
    (h : w.declaration? id = some (l, body)) : body ∈ w.body.nodes := by
  obtain ⟨name, params, hmem, -⟩ := World.declaration?_eq_some h
  exact Expr.mem_nodes_trans hmem
    (Expr.mem_nodes_child (by simp) body.mem_nodes_self)

theorem invokes (hl : LinkedAll w m pool) (fuel : Nat) : Invokes m fuel (w.invoke fuel) := by
  induction fuel with
  | zero =>
    intro id args frame callers under s st hid hargs hbase hstep
    exact ⟨0, st, Nat.le_refl 0, .refl st⟩
  | succ fuel ih =>
    intro id args frame callers under s st hid hargs hbase hstep
    rw [World.invoke]
    refine CallOutcome.need fun ⟨l, body⟩ hdecl => ?_
    refine CallOutcome.need fun scope hscope => ?_
    refine CallOutcome.need fun f hf => ?_
    refine CallOutcome.need fun result hresult => ?_
    obtain ⟨d, hd⟩ := hl.declared id l body scope f result hdecl hscope hf hresult
    exact call_installed hl.toLinked hd (carries hl.toLinked ih body (declaration?_mem hdecl))
      hargs hbase hstep

section Programs

variable {k : Nat} {s s' : State σ}

theorem Runs.shorten {j : Nat} (h : Runs m k s s') (hj : j ≤ k) : ∃ s'', Runs m j s s'' := by
  induction h generalizing j with
  | refl s => exact ⟨s, by rw [Nat.le_zero.mp hj]; exact .refl s⟩
  | step hs _ ih =>
    cases j with
    | zero => exact ⟨_, .refl _⟩
    | succ j =>
      obtain ⟨s'', hrun⟩ := ih (Nat.le_of_succ_le_succ hj)
      exact ⟨s'', .step hs hrun⟩

/-- A budget that is too small is spent. -/
theorem advance_limit (h : Runs m k s s') {budget : Nat} (hle : budget ≤ k) :
    (m.advance budget budget s).1 = .stopped (.fault (.stepLimit budget)) := by
  obtain ⟨s'', hrun⟩ := h.shorten hle
  have hspent := advance_runs hrun budget 0
  rw [Nat.add_zero] at hspent
  rw [hspent, advance]

/-- How a run ends if it may take enough steps: the same for all budgets from `n` on. -/
def Ends (m : Machine σ) (globals : Array Value) (heap : Heap) (host : σ) (n : Nat)
    (ending : Ending) (st : State σ) : Prop :=
  (∀ budget < n, (m.run budget globals heap host).1 = .stopped (.fault (.stepLimit budget))) ∧
    ∀ budget ≥ n, m.run budget globals heap host = (ending, st)

/-- The state has the globals, arrays and host of the store. -/
def Leaves (st : State σ) (s : Store σ) : Prop :=
  st.globals = s.globals ∧ st.heap = s.heap ∧ st.host = s.host

/-- What runs come to where the evaluator comes to a result. At the end of the program there is
nothing on the stack but the exit slot and the value. -/
def RunOutcome (m : Machine σ) (fuel : Nat) (globals : Array Value) (heap : Heap) (host : σ) :
    EStateM.Result Exit (Store σ) (Option Value) → Prop
  | .ok v s => ∃ n st, Ends m globals heap host n (.finished n v) st ∧ Leaves st s ∧
      st.stack = (v.toList ++ [Value.int 0]).reverse.toArray
  | .error (.returned _) _ => False
  | .error (.stopped why) s => ∃ n st, Ends m globals heap host n (.stopped why) st ∧ Leaves st s
  | .error .exhausted _ =>
    ∀ budget ≤ fuel, (m.run budget globals heap host).1 = .stopped (.fault (.stepLimit budget))
  | .error .stuck _ => True

variable {globals : Array Value} {heap : Heap} {host : σ} {v : Option Value} {why : Stop}
  {store : Store σ} {ending : Ending}

/-- A run whose last step is known. -/
theorem ends_of_advance (hrun : Runs m k (boot globals heap host) s)
    (hlast : ∀ left, m.advance (k + (left + 1)) (left + 1) s = (ending, s')) :
    Ends m globals heap host (k + 1) ending s' := by
  refine ⟨fun budget hlt => advance_limit hrun (by omega), fun budget hge => ?_⟩
  obtain ⟨left, rfl⟩ : ∃ left, budget = k + (left + 1) := ⟨budget - k - 1, by omega⟩
  exact (advance_runs hrun _ _).trans (hlast left)

theorem ends_halted (hrun : Runs m k (boot globals heap host) s)
    (hstep : m.step s = .ok (.halted v) s') :
    Ends m globals heap host (k + 1) (.finished (k + 1) v) s' := by
  refine ends_of_advance hrun fun left => ?_
  have hsteps : k + (left + 1) - left = k + 1 := by omega
  rw [advance, hstep, hsteps]

theorem ends_stopped (h : Stops m (boot globals heap host) why store) :
    ∃ n st, Ends m globals heap host n (.stopped why) st ∧ Leaves st store := by
  obtain ⟨k, s, s', hrun, hstep, hstore⟩ := h
  refine ⟨k + 1, s', ends_of_advance hrun fun left => ?_, hstore⟩
  rw [advance, hstep]

/-- The frame of the boot code before instruction `next`. -/
def bootFrame (next : Nat) : Frame := { next }

theorem step_boot_push (s : Store σ) :
    m.step (.atop (bootFrame 0) [] [] s) = .ok .running (.atop (bootFrame 1) [] [.int 0] s) := rfl

theorem step_boot_call (hl : LinkedAll w m pool) (s : Store σ) :
    m.step (.atop (bootFrame 1) [] [.int 0] s) =
      (m.call (Generate.operand ScopeTree.main) (Generate.operand 0) >>= fun _ => pure .running)
        (.atop (bootFrame 2) [] [.int 0] s) := by
  have hcode : m.code (bootFrame 1) =
      #[.pushInt 0, .call (Generate.operand ScopeTree.main) (Generate.operand 0), .halt] := by
    rw [code, bootFrame, hl.entry]
    rfl
  have hfetch : m.fetch (.atop (bootFrame 1) [] [.int 0] s) =
      .ok (.call (Generate.operand ScopeTree.main) (Generate.operand 0), 1)
        (.atop (bootFrame 2) [] [.int 0] s) := by
    simp only [fetch, State.atop, hcode]
    rfl
  exact (EStateM.bind_ok hfetch).trans (congrFun (if_neg (by simp)) _)

theorem step_boot_halt (v : Option Value) (s : Store σ) :
    m.step (.atop (bootFrame 2) [] (v.toList ++ [.int 0]) s) =
      .ok (.halted v) (.atop (bootFrame 3) [] (v.toList ++ [.int 0]) s) := by
  cases v <;> rfl

/-- A run carries out the program. -/
theorem run_outcome (hl : LinkedAll w m pool) (fuel : Nat) (globals : Array Value) (heap : Heap)
    (host : σ) :
    RunOutcome m fuel globals heap host (w.evaluate fuel ⟨globals, #[], heap, host⟩) := by
  have hpush := step_boot_push (m := m) ⟨globals, #[], heap, host⟩
  have hcall := step_boot_call hl ⟨globals, #[], heap, host⟩
  have houtcome : CallOutcome m (fuel + 1) (bootFrame 2) [] [.int 0] #[]
      (.atop (bootFrame 1) [] [.int 0] ⟨globals, #[], heap, host⟩)
      (w.evaluate fuel ⟨globals, #[], heap, host⟩) := by
    refine CallOutcome.need fun f hf => ?_
    obtain ⟨d, hd⟩ := hl.program f hf
    exact call_installed hl.toLinked hd
      (carries hl.toLinked (invokes hl fuel) w.body w.body.mem_nodes_self) (by simp)
      (Nat.zero_le _) hcall
  cases hresult : w.evaluate fuel ⟨globals, #[], heap, host⟩ with
  | ok v s =>
    rw [hresult] at houtcome
    obtain ⟨-, k, -, hrun⟩ := houtcome
    exact ⟨_, _, ends_halted (.step hpush hrun) (step_boot_halt v s), ⟨rfl, rfl, rfl⟩, rfl⟩
  | error e s =>
    rw [hresult] at houtcome
    match e, houtcome with
    | .stopped why, houtcome => exact ends_stopped (houtcome.before (.one hpush))
    | .exhausted, houtcome =>
      obtain ⟨k, st, hk, hrun⟩ := houtcome
      exact fun budget hbudget => advance_limit (.step hpush hrun) (by omega)
    | .stuck, _ => exact trivial

end Programs

end Machine

end TurtleScript

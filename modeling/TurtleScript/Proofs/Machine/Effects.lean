import TurtleScript.Proofs.Machine.Transparency

/-!
# What instructions do to the stack

The heights of the stack along a path come from tables of what each instruction takes and
gives, and of where control may go from it. The machine keeps to these tables: an instruction
that succeeds found what it takes above the base of its frame, left the stack as high as the
tables say and went to one of its successors. A call begins a path of its own and a return ends
it, so in every state of a run all frames are on paths through their code, and between the
bases of two frames lie as many values as the path of the lower one says.
-/
namespace TurtleScript

variable {σ : Type}

theorem Instr.successors_eq {i : Instr} {here : Nat} (hi : i.isLocal = true) (hne : i ≠ .halt)
    (hjump : ∀ kind delta, i ≠ .jump kind delta) : i.successors here = [(here : Int) + 1] := by
  cases i with
  | jump kind delta => exact absurd rfl (hjump kind delta)
  | halt => exact absurd rfl hne
  | call | ret => cases hi
  | _ => rfl

theorem Instr.successors_always {delta : Int32} {here : Nat} :
    (jump .always delta).successors here = [here + delta.toInt] := rfl

theorem Instr.successors_jump {kind : JumpKind} {delta : Int32} {here : Nat}
    (hkind : kind ≠ .always) :
    (jump kind delta).successors here = [(here : Int) + 1, here + delta.toInt] := by
  cases kind with
  | always => exact absurd rfl hkind
  | _ => rfl

theorem Instr.successors_call {id argc : Int32} {here : Nat} :
    (call id argc).successors here = [(here : Int) + 1] := rfl

namespace Machine

/-- From `s` to `s'` values were taken that stood above the base, and others were given. -/
structure Shift (takes gives : Nat) (s s' : State σ) : Prop where
  found : s.frame.base + takes ≤ s.stack.size
  height : s'.stack.size + takes = s.stack.size + gives
  base : s'.frame.base = s.frame.base
  function : s'.frame.function = s.frame.function
  callers : s'.callers = s.callers

/-- A piece of a step that always takes and gives so many values, and does not jump. -/
def Shifts {α : Type} (takes gives : Nat) (x : Exec σ α) : Prop :=
  ∀ s a s', s.frame.base ≤ s.stack.size → x s = .ok a s' →
    Shift takes gives s s' ∧ s'.frame.next = s.frame.next

theorem Shifts.bind {α β : Type} {takes gives takes' gives' : Nat} {x : Exec σ α}
    {f : α → Exec σ β} (hx : Shifts takes gives x) (hf : ∀ a, Shifts takes' gives' (f a))
    (h : gives = 0 ∨ takes' = 0) : Shifts (takes + takes') (gives + gives') (x >>= f) := by
  intro s b s' hbase hrun
  obtain ⟨a, s₁, hx₁, hf₁⟩ := EStateM.bind_eq_ok hrun
  obtain ⟨⟨found, height, base, function, callers⟩, next⟩ := hx s a s₁ hbase hx₁
  obtain ⟨⟨found', height', base', function', callers'⟩, next'⟩ := hf a s₁ b s' (by omega) hf₁
  exact ⟨⟨by omega, by omega, base'.trans base, function'.trans function, callers'.trans callers⟩,
    next'.trans next⟩

theorem Shifts.popMany (n : Nat) (op : Opcode) :
    Shifts n 0 (Exec.popMany n op : Exec σ (Array Value)) := by
  intro s args s' hbase h
  obtain ⟨under, hstack, hsize, hunder, rfl⟩ := Exec.popMany_eq_ok h
  have hheight : s.stack.size = under.size + n := by rw [hstack, Array.size_append, hsize]
  exact ⟨⟨by omega, hheight.symm, rfl, rfl, rfl⟩, rfl⟩

/-- A piece keeps to its numbers, by induction on how it is put together. -/
theorem Shifts.of_piece {crashes : Prop} {α : Type} {takes gives : Nat} {x : Exec σ α}
    (h : Exec.Piece crashes takes gives x) : Shifts takes gives x := by
  induction h with
  | pure a =>
    rintro s _ _ hbase ⟨⟩
    exact ⟨⟨hbase, rfl, rfl, rfl, rfl⟩, rfl⟩
  | throw _ =>
    intro s a s' _ h
    cases h
  | push v =>
    rintro s _ _ hbase ⟨⟩
    exact ⟨⟨hbase, by simp, rfl, rfl, rfl⟩, rfl⟩
  | pop op =>
    intro s v s' hbase h
    obtain ⟨-, hlt, rfl⟩ := Exec.pop_eq_ok h
    exact ⟨⟨hlt, by simp only [Array.size_pop]; omega, rfl, rfl, rfl⟩, rfl⟩
  | popMany _ op => exact .popMany _ op
  | look _ ih => exact fun s => ih s.store s
  | change k =>
    intro s a s' hbase h
    cases h
    exact ⟨⟨hbase, rfl, rfl, rfl, rfl⟩, rfl⟩
  | bind _ _ h hx hf => exact hx.bind hf h

variable {m : Machine σ}

/-- The host declares all natives of the machine, and a native that succeeds returns a value just
if its signature has one. -/
def Declared (m : Machine σ) (host : Host) : Prop :=
  ∀ (i : Nat) (f : Native σ), m.natives[i]? = some f → ∃ n, host.natives[i]? = some n ∧
    ∀ args heap data v, (f args heap data).1 = .ok v → v.toList.length = n.returnType.values

theorem callNative_shifts {host : Host} (hm : m.Declared host) (native argc : Int32) :
    Shifts (announced argc) (m.gives host (.callNative native argc))
      (m.callNative native argc) := by
  rw [callNative, ← Nat.zero_add (m.gives host _)]
  refine (Shifts.popMany _ _).bind
    (fun args => (?_ : Shifts 0 (m.gives host (.callNative native argc)) _)) (.inl rfl)
  cases hf : (Int32.index? native).bind (m.natives[·]?) with
  | none =>
    intro s u s' _ h
    cases h
  | some f =>
    obtain ⟨index, hindex, hnative⟩ := Option.bind_eq_some_iff.mp hf
    obtain ⟨n, hn, hreturns⟩ := hm index f hnative
    have hgives : m.gives host (.callNative native argc) = n.returnType.values := by
      simp [gives, hindex, hn]
    rw [hgives]
    intro s u s' hbase h
    obtain ⟨_, _, ⟨⟩, hcall⟩ := EStateM.bind_eq_ok h
    obtain ⟨v, s₁, hrun, hpush⟩ := EStateM.bind_eq_ok hcall
    dsimp only at hrun
    split at hrun
    case h_2 => cases hrun
    case h_1 hresult =>
      cases hrun
      rw [← hreturns _ _ _ _ hresult]
      cases v with
      | none =>
        cases hpush
        exact ⟨⟨hbase, rfl, rfl, rfl, rfl⟩, rfl⟩
      | some v =>
        cases hpush
        exact ⟨⟨hbase, by simp, rfl, rfl, rfl⟩, rfl⟩

theorem goTo_eq_ok {here : Nat} {delta : Int32} {s s' : State σ}
    (h : goTo here delta s = .ok () s') :
    ∃ target : Nat, (target : Int) = here + delta.toInt ∧
      s' = { s with frame := { s.frame with next := target } } := by
  rw [goTo] at h
  dsimp only at h
  split at h
  case isTrue htarget =>
    cases h
    exact ⟨_, Int.toNat_of_nonneg htarget, rfl⟩
  case isFalse => cases h

/-- A jump takes its condition and goes to one of two places. -/
theorem jump_shift {here : Nat} {kind : JumpKind} {delta : Int32} {s s' : State σ}
    (hbase : s.frame.base ≤ s.stack.size) (hnext : s.frame.next = here + 1)
    (h : jump here kind delta s = .ok () s') :
    Shift kind.takes 0 s s' ∧ (s'.frame.next : Int) ∈ (Instr.jump kind delta).successors here := by
  have hcondition (op : Opcode) : Shifts 1 0 (Exec.popBool op : Exec σ Bool) :=
    Shifts.of_piece (.popBool op : Exec.Piece False 1 0 _)
  have hgoes {s₁ : State σ} {takes : Nat} (hs : Shift takes 0 s s₁)
      (hgo : goTo here delta s₁ = .ok () s') :
      Shift takes 0 s s' ∧ (s'.frame.next : Int) = here + delta.toInt := by
    obtain ⟨target, htarget, rfl⟩ := goTo_eq_ok hgo
    exact ⟨⟨hs.found, hs.height, hs.base, hs.function, hs.callers⟩, htarget⟩
  cases kind with
  | always =>
    obtain ⟨hshift, htarget⟩ := hgoes ⟨hbase, rfl, rfl, rfl, rfl⟩ h
    exact ⟨hshift, by simp [Instr.successors_always, htarget]⟩
  | ifFalse =>
    obtain ⟨b, s₁, hpop, hrest⟩ := EStateM.bind_eq_ok h
    obtain ⟨hshift, hsame⟩ := hcondition _ s b s₁ hbase hpop
    cases b with
    | true =>
      cases hrest
      exact ⟨hshift, by simp [Instr.successors_jump, hsame, hnext]⟩
    | false =>
      obtain ⟨hshift', htarget⟩ := hgoes hshift hrest
      exact ⟨hshift', by simp [Instr.successors_jump, htarget]⟩
  | ifTrue =>
    obtain ⟨b, s₁, hpop, hrest⟩ := EStateM.bind_eq_ok h
    obtain ⟨hshift, hsame⟩ := hcondition _ s b s₁ hbase hpop
    cases b with
    | true =>
      obtain ⟨hshift', htarget⟩ := hgoes hshift hrest
      exact ⟨hshift', by simp [Instr.successors_jump, htarget]⟩
    | false =>
      cases hrest
      exact ⟨hshift, by simp [Instr.successors_jump, hsame, hnext]⟩

/-- An instruction that does not jump takes and gives what the tables say. -/
theorem execute_shifts {host : Host} (hm : m.Declared host) (here : Nat) {i : Instr}
    (hi : i.isLocal = true) (hjump : ∀ kind delta, i ≠ .jump kind delta) :
    Shifts i.takes (m.gives host i) (m.execute here i) := by
  cases i with
  | call | ret => cases hi
  | jump kind delta => exact absurd rfl (hjump kind delta)
  | callNative native argc => exact callNative_shifts hm native argc
  | _ => exact Shifts.of_piece (execute_piece host here rfl)

/-- An instruction that stays in its function keeps to the tables. -/
theorem execute_shift {host : Host} (hm : m.Declared host) {here : Nat} {i : Instr}
    (hi : i.isLocal = true) (hne : i ≠ .halt) {s s' : State σ}
    (hbase : s.frame.base ≤ s.stack.size) (hnext : s.frame.next = here + 1)
    (h : m.execute here i s = .ok () s') :
    Shift i.takes (m.gives host i) s s' ∧ (s'.frame.next : Int) ∈ i.successors here := by
  by_cases hjump : ∃ kind delta, i = .jump kind delta
  · obtain ⟨kind, delta, rfl⟩ := hjump
    exact jump_shift hbase hnext h
  · have hon (kind : JumpKind) (delta : Int32) : i ≠ .jump kind delta :=
      fun heq => hjump ⟨kind, delta, heq⟩
    obtain ⟨hshift, hsame⟩ := execute_shifts hm here hi hon s () s' hbase h
    refine ⟨hshift, ?_⟩
    rw [hsame, hnext, Instr.successors_eq hi hne hon]
    simp

/-- What a return from the frame puts on the stack. -/
def answers (f : Frame) : Nat :=
  (f.function.map fun d => if d.returnType = Ty.empty.id then 0 else 1).getD 0

/-- A function that says it returns nothing never returns a value. -/
def Honest (m : Machine σ) : Prop :=
  ∀ f ∈ m.module.functions, f.returnType = Ty.empty.id → .ret 1 ∉ f.code

/-- The frame runs a function of the module, and has come to where it is on a path along which
the stack grew by `height`. -/
structure On (m : Machine σ) (host : Host) (f : Frame) (height : Int) : Prop where
  known : ∀ d ∈ f.function, d ∈ m.module.functions
  path : Path m host (m.code f) 0 (m.code f).size f.next height

/-- The frames that wait are on paths too, up to where they go on when the frame before them has
returned. -/
def Waiting (m : Machine σ) (host : Host) : Frame → List Frame → Prop
  | _, [] => True
  | f, caller :: callers =>
    m.On host caller (f.base - caller.base + answers f) ∧ m.Waiting host caller callers

/-- All frames are on paths, and as many values lie above their bases as the paths say. -/
structure Follows (m : Machine σ) (host : Host) (s : State σ) : Prop where
  nested : s.Nested
  top : m.On host s.frame (s.stack.size - s.frame.base)
  below : m.Waiting host s.frame s.callers

theorem boot_follows (m : Machine σ) (host : Host) (globals : Array Value) (heap : Heap)
    (data : σ) : m.Follows host (boot globals heap data) where
  nested := nested_boot globals heap data
  top := ⟨nofun, .enter⟩
  below := trivial

/-- The next place of a path. -/
theorem On.step {host : Host} {f : Frame} {height : Int} {i : Instr} {next : Int}
    (h : m.On host f height) (hi : (m.code f)[f.next]? = some i)
    (hnext : next ∈ i.successors f.next) :
    Path m host (m.code f) 0 (m.code f).size next (height - i.takes + m.gives host i) :=
  h.path.step (Nat.zero_le _) (Array.getElem?_eq_some_iff.mp hi).1 hi hnext

theorem callee?_mem {id : Int32} {f : FunctionDef} (h : m.callee? id = some f) :
    f ∈ m.module.functions := by
  obtain ⟨n, -, hfind⟩ := Option.bind_eq_some_iff.mp h
  rw [Array.findRev?_eq_find?_reverse] at hfind
  exact Array.mem_reverse.mp (Array.mem_of_find?_eq_some hfind)

theorem comeBack_function {value : Option Value} {s s' : State σ}
    (h : comeBack value s = .ok () s') :
    ∃ f, s.frame.function = some f ∧ (value = none → f.returnType = Ty.empty.id) := by
  rw [comeBack] at h
  split at h
  case h_2 => cases h
  case h_1 f caller callers hfunction hcallers =>
    split at h
    case isTrue => cases h
    case isFalse hvalue =>
      exact ⟨f, hfunction, fun hnone => Decidable.not_not.mp fun hne => hvalue ⟨hnone, hne⟩⟩

theorem ret_function {count : Int32} {s s' : State σ} (h : ret count s = .ok () s') :
    ∃ f, s.frame.function = some f ∧ (count ≠ 1 → f.returnType = Ty.empty.id) := by
  rw [ret_eq] at h
  by_cases hcount : count = 1
  · rw [if_pos hcount] at h
    obtain ⟨value, s₁, hvalue, hback⟩ := EStateM.bind_eq_ok h
    obtain ⟨v, hpop, rfl⟩ := EStateM.map_eq_ok hvalue
    obtain ⟨-, -, rfl⟩ := Exec.pop_eq_ok hpop
    obtain ⟨f, hf, -⟩ := comeBack_function hback
    exact ⟨f, hf, fun hne => absurd hcount hne⟩
  · rw [if_neg hcount] at h
    obtain ⟨f, hf, hempty⟩ := comeBack_function h
    exact ⟨f, hf, fun _ => hempty rfl⟩

/-- A return leaves what the function that returns says. -/
theorem ret_answers (hm : m.Honest) {count : Int32} {s s' : State σ}
    (hknown : ∀ d ∈ s.frame.function, d ∈ m.module.functions)
    (hcode : .ret count ∈ m.code s.frame) (hbase : s.frame.base ≤ s.stack.size)
    (h : ret count s = .ok () s') : s'.stack.size = s.frame.base + answers s.frame := by
  obtain ⟨f, hf, hempty⟩ := ret_function h
  obtain ⟨-, hplain, hvalue⟩ := ret_eq_ok h
  have hsize : (s.stack.shrink s.frame.base).size = s.frame.base := by
    rw [Array.size_shrink]
    omega
  by_cases hcount : count = 1
  · obtain ⟨v, -, -, hstack⟩ := hvalue hcount
    have hreturns : f.returnType ≠ Ty.empty.id := by
      intro hnothing
      rw [code, hf, hcount] at hcode
      exact hm f (hknown f hf) hnothing hcode
    rw [hstack, Array.size_push, hsize]
    simp [answers, hf, hreturns]
  · rw [hplain hcount, hsize]
    simp [answers, hf, hempty hcount]

theorem code_congr {f g : Frame} (h : f.function = g.function) : m.code f = m.code g := by
  rw [code, code, h]

/-- What waits depends only on the base and the function of the frame above. -/
theorem Waiting.congr {host : Host} {f g : Frame} {callers : List Frame}
    (h : m.Waiting host f callers) (hbase : g.base = f.base) (hfunction : g.function = f.function) :
    m.Waiting host g callers := by
  cases callers with
  | nil => trivial
  | cons caller callers => rwa [Waiting, hbase, answers, hfunction]

namespace Follows

variable {host : Host} {s s' : State σ}

/-- An instruction that stays in its function goes one step along the path of the frame. -/
theorem local_step (hdeclared : m.Declared host) (hs : m.Follows host s) (hs' : s'.Nested)
    {i : Instr} (hi : m.next? s = some i) (hlocal : i.isLocal = true) (hne : i ≠ .halt)
    (h : m.execute s.frame.next i s.fetched = .ok () s') : m.Follows host s' := by
  obtain ⟨hshift, hnext⟩ := execute_shift hdeclared hlocal hne (s := s.fetched) hs.nested.top rfl h
  have hfound : s.frame.base + i.takes ≤ s.stack.size := hshift.found
  have hheight : s'.stack.size + i.takes = s.stack.size + m.gives host i := hshift.height
  have hbase : s'.frame.base = s.frame.base := hshift.base
  have hfunction : s'.frame.function = s.frame.function := hshift.function
  have hcallers : s'.callers = s.callers := hshift.callers
  refine ⟨hs', ⟨hfunction ▸ hs.top.known, ?_⟩, ?_⟩
  · rw [code_congr hfunction, hbase]
    have hpath := hs.top.step hi hnext
    rwa [show (s.stack.size - s.frame.base - i.takes + m.gives host i : Int) =
      s'.stack.size - s.frame.base by omega] at hpath
  · rw [hcallers]
    exact hs.below.congr hbase hfunction

/-- A call begins a new path, and the frame waits one step further on its own. -/
theorem call_step (hs : m.Follows host s) (hs' : s'.Nested) {id argc : Int32}
    (hi : m.next? s = some (.call id argc)) (h : m.call id argc s.fetched = .ok () s') :
    m.Follows host s' := by
  obtain ⟨f, under, args, hf, hstack, hargs, hbase, rfl, hcallers, hfunction, hnext, hentry⟩ :=
    call_eq_ok h
  have hcount := call_announced h hf
  have hheight : s.stack.size = s'.stack.size + args.size := by
    rw [show s.stack = _ from hstack, Array.size_append]
  have hanswers : answers s'.frame = m.gives host (.call id argc) := by
    simp [answers, gives, hfunction, hf]
  refine ⟨hs', ⟨fun d hd => ?_, ?_⟩, ?_⟩
  · cases hfunction.symm.trans hd
    exact callee?_mem hf
  · rw [hnext, hentry, Int.sub_self]
    exact .enter
  · rw [hcallers]
    refine ⟨⟨hs.top.known, ?_⟩, hs.below.congr rfl rfl⟩
    have hplace : ((s.frame.next + 1 : Nat) : Int) ∈
        (Instr.call id argc).successors s.frame.next := by
      simp [Instr.successors_call]
    have hpath := hs.top.step hi hplace
    rw [hentry, hanswers]
    rwa [show (s.stack.size - s.frame.base - (Instr.call id argc).takes +
        m.gives host (.call id argc) : Int) =
      s'.stack.size - s.frame.base + m.gives host (.call id argc) by
        rw [Instr.takes]; omega] at hpath

/-- A return ends a path, and the frame below goes on where it waited. -/
theorem ret_step (hhonest : m.Honest) (hs : m.Follows host s) (hs' : s'.Nested) {count : Int32}
    (hi : m.next? s = some (.ret count)) (h : ret count s.fetched = .ok () s') :
    m.Follows host s' := by
  have hsize : s'.stack.size = s.frame.base + answers s.frame :=
    ret_answers hhonest (s := s.fetched) hs.top.known (Array.mem_of_getElem? hi) hs.nested.top h
  have hcallers : s.callers = s'.frame :: s'.callers := (ret_eq_ok h).1
  have hbelow := hs.below
  rw [hcallers, Waiting] at hbelow
  obtain ⟨hon, hwaiting⟩ := hbelow
  refine ⟨hs', ?_, hwaiting⟩
  rwa [show (s'.stack.size - s'.frame.base : Int) =
    s.frame.base - s'.frame.base + answers s.frame by omega]

end Follows

/-- A step goes on along the paths. -/
theorem step_follows {host : Host} (hdeclared : m.Declared host) (hhonest : m.Honest)
    {s s' : State σ} (hs : m.Follows host s) (h : m.step s = .ok .running s') :
    m.Follows host s' := by
  obtain ⟨i, hi, hne, hrun⟩ := step_running.mp h
  have hs' := step_nested hs.nested h
  by_cases hlocal : i.isLocal = true
  · exact hs.local_step hdeclared hs' hi hlocal hne hrun
  · cases i with
    | call id argc => exact hs.call_step hs' hi hrun
    | ret count => exact hs.ret_step hhonest hs' hi hrun
    | _ => exact absurd rfl hlocal

theorem Runs.follows {host : Host} (hdeclared : m.Declared host) (hhonest : m.Honest)
    {k : Nat} {s s' : State σ} (h : Runs m k s s') (hs : m.Follows host s) :
    m.Follows host s' := by
  induction h with
  | refl => exact hs
  | step hstep _ ih => exact ih (step_follows hdeclared hhonest hs hstep)

/-- In every state of a run the machine is where the paths say. So code on whose paths the stack
never drops below its beginning finds the operands of all its instructions. -/
theorem run_finds {host : Host} (hdeclared : m.Declared host) (hhonest : m.Honest)
    {globals : Array Value} {heap : Heap} {data : σ} {k : Nat} {s : State σ}
    (h : Runs m k (boot globals heap data) s)
    (habove : ∀ (here : Nat) (height : Int) (i : Instr),
      Path m host (m.code s.frame) 0 (m.code s.frame).size here height →
      (m.code s.frame)[here]? = some i → i.takes ≤ height) :
    m.Follows host s ∧ ∀ i, m.next? s = some i → s.frame.base + i.takes ≤ s.stack.size := by
  have hs := h.follows hdeclared hhonest (boot_follows m host globals heap data)
  refine ⟨hs, fun i hi => ?_⟩
  have htakes := habove _ _ i hs.top.path hi
  omega

end Machine

end TurtleScript

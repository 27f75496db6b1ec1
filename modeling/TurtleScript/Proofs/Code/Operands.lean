import TurtleScript.Proofs.Code.Balance
import TurtleScript.Proofs.Code.Returning
import TurtleScript.Proofs.Machine.Effects

/-!
# Compiled code finds its operands

The code of a function is that of its body and a return. If no expression without a value is
compared, all of it has levels, and so has the code that calls the program. A function without a
result has no return with a value. So whatever the natives do, if each returns a value just if
its signature has one, every frame of a run is on a path through its code, and the next
instruction finds its operands above the base of its frame.
-/
namespace TurtleScript.Code

open ScopeTree Machine

variable {σ : Type} {m : Machine σ} {host : Host} {p : Program} {t : ScopeTree} {r : Resolution}
  {g : Generated} {o : Options}

theorem epilogue_lifts (result type : Ty) : Lifts m host (epilogue result type) type.values 0 := by
  rw [epilogue]
  split
  case isTrue hvalue =>
    obtain ⟨hresult, rfl⟩ : result.isEmpty = false ∧ type = result := by simpa using hvalue
    refine .ret ?_ 0
    rw [Ty.values, hresult]
    decide
  case isFalse =>
    refine .append (?_ : Lifts m host _ type.values 0) (.ret (by decide) 0)
    rw [Ty.values]
    split
    · exact .nil 0
    · exact .one 0 rfl rfl (by simp)

/-- The program is called with nothing. -/
theorem boot_lifts (entry : UInt32) :
    ∃ high, Lifts m host (Module.boot entry).toList 0 high := by
  have hpush : Lifts m host [.pushInt 0] 0 1 := .one 0 rfl rfl (by simp)
  have hcall : Lifts m host [.call entry.toInt32 0] 1 _ := .one 1 rfl rfl (by simp)
  have hhalt (low : Nat) : Lifts m host [.halt] low low := .one low rfl rfl (by simp)
  exact ⟨_, hpush.append (hcall.append (hhalt _))⟩

theorem HasBody.mem_nodes {id : Nat} {e : Expr} (h : HasBody t p id e) : e ∈ p.body.nodes := by
  cases h with
  | program => exact p.body.mem_nodes_self
  | @node l name params body _ hmem _ =>
    have hchild : e ∈ (Expr.function l name params e).children := by simp [Expr.children]
    exact Expr.mem_nodes_trans hmem (Expr.mem_nodes.mpr (.inr ⟨e, hchild, e.mem_nodes_self⟩))

/-- The code of a whole function has levels. -/
theorem Compiles.code_lifts (h : Compiles host p t r g) (hfits : Fits host p (t.link g o))
    (hregular : host.Regular) (hcompares : ¬ ComparesNothing r p.body)
    (natives : Array (Native σ)) {d : FunctionDef} (hd : d ∈ (t.link g o).functions) :
    Lifts ⟨t.link g o, natives⟩ host d.code.toList 0 0 := by
  obtain ⟨id, hd⟩ := Array.mem_iff_getElem?.mp hd
  obtain ⟨f, code, -, hcode, rfl⟩ := function_iff.mp hd
  obtain ⟨scope, result, type, body, hbody, hisBody, hlower⟩ := h.body hcode
  obtain ⟨front, hfront, hrest⟩ := Option.bind_eq_some_iff.mp hlower
  obtain ⟨type', htype, hlast⟩ := Option.bind_eq_some_iff.mp hrest
  cases hisBody.typed.typeOf?.symm.trans htype
  have hmem := hbody.mem_nodes
  have hcount (y : Expr) (hy : y ∈ body.nodes) : y.children.length < 2 ^ 31 :=
    h.children_lt hfits (Expr.mem_nodes_trans hmem hy)
  have hnot : ¬ r.Compares body := by
    rintro ⟨l, left, right, hcontains, hempty⟩
    exact hcompares ⟨l, left, right, Expr.mem_nodes_trans hmem hcontains.mem_nodes, hempty⟩
  have hlifts := raises (h.announces hfits natives) h.built.toWf hregular body hisBody.typed hcount
    hnot hfront 0
  rw [Nat.zero_add] at hlifts
  rw [functionDef, ← Option.some.inj hlast]
  exact hlifts.append (epilogue_lifts result type)

/-- A compiled function without a result has no return with a value. -/
theorem Compiles.honest (h : Compiles host p t r g) (natives : Array (Native σ)) :
    Honest ⟨t.link g o, natives⟩ := by
  intro d hd hempty
  obtain ⟨id, hd⟩ := Array.mem_iff_getElem?.mp hd
  obtain ⟨f, code, hf, hcode, rfl⟩ := function_iff.mp hd
  obtain ⟨code', body, result, type, hcode', -, hresult, -, hlast, hbefore⟩ :=
    h.function_ends (Array.getElem?_eq_some_iff.mp hf).1
  cases hcode.symm.trans hcode'
  have hvoid : result = .empty := by
    obtain ⟨f', hf', hreturn⟩ := hresult
    cases hf.symm.trans hf'
    rw [functionDef, hreturn] at hempty
    exact id_eq_empty_iff.mp hempty
  obtain ⟨front, hfront⟩ := List.getLast?_eq_some_iff.mp hlast
  rw [hfront, List.dropLast_concat] at hbefore
  intro hmem
  replace hmem : .ret 1 ∈ code.toList := Array.mem_toList_iff.mpr hmem
  rw [hfront] at hmem
  rcases List.mem_append.mp hmem with hmem | hmem
  · obtain ⟨-, result', hresult', hcount⟩ := hbefore 1 hmem
    cases hresult.unique hresult'
    simp [hvoid] at hcount
  · simp [hvoid] at hmem

/-- In every state of a run of a compiled program in which no expression without a value is
compared, all frames are on paths through their code, and the next instruction finds its operands
above the base of its frame. -/
theorem compile_finds (body : Expr) (host : Host) (o : Options) (cancelled : Cancellation)
    (natives : Array (Native σ)) {c : Compiled} {r : Resolution} {t : ScopeTree}
    (hcompile : (Program.ofExpr body).compile host o cancelled = .ok c)
    (hresolve : (build (.ofExpr body) host).tree.resolve (.ofExpr body) host cancelled = (.ok r, t))
    (hfits : Fits host (.ofExpr body) c.module) (hregular : host.Regular)
    (hdeclared : Machine.Declared ⟨c.module, natives⟩ host)
    (hcompares : ¬ ComparesNothing r (Program.ofExpr body).body) {globals : Array Value}
    {heap : Heap} {data : σ} {k : Nat} {s : State σ}
    (hruns : Machine.Runs ⟨c.module, natives⟩ k (boot globals heap data) s) :
    Machine.Follows ⟨c.module, natives⟩ host s ∧
      ∀ i, next? ⟨c.module, natives⟩ s = some i → s.frame.base + i.takes ≤ s.stack.size := by
  obtain ⟨t', r', g, hresolve', h, rfl⟩ := compile_eq_ok hcompile
  cases hresolve.symm.trans hresolve'
  have hhonest := h.honest (o := o) natives
  have hknown := (hruns.follows hdeclared hhonest (boot_follows _ host globals heap data)).top.known
  obtain ⟨high, hlifts, hsize⟩ : ∃ high,
      Lifts ⟨t.link g o, natives⟩ host (code ⟨t.link g o, natives⟩ s.frame).toList 0 high ∧
        (code ⟨t.link g o, natives⟩ s.frame).size < 2 ^ 31 := by
    rw [Machine.code]
    cases hf : s.frame.function with
    | none =>
      obtain ⟨high, hboot⟩ := boot_lifts (m := ⟨t.link g o, natives⟩) (t.link g o).entryPoint
      exact ⟨high, hboot, show 3 < 2 ^ 31 by decide⟩
    | some d =>
      have hd := hknown d hf
      exact ⟨0, h.code_lifts hfits hregular hcompares natives hd, hfits.code d hd⟩
  refine run_finds hdeclared hhonest hruns fun here height i hpath hi => ?_
  have hhere := (Array.getElem?_eq_some_iff.mp hi).1
  refine hlifts.above (show _ = [] ++ _ ++ [] by simp) hsize ?_ (by simpa using hhere) hi
  simpa using hpath

/-- The native that remembers its arguments returns nothing, as its signature says. -/
theorem remember_declared (module : Module) :
    Machine.Declared ⟨module, #[remember]⟩ summingHost := by
  intro i f hf
  obtain rfl : i = 0 := by have := (Array.getElem?_eq_some_iff.mp hf).1; simpa using this
  obtain rfl : remember = f := by simpa using hf
  refine ⟨_, rfl, fun args heap data v hv => ?_⟩
  cases hv
  rfl

theorem summing_finds : ∃ c : Compiled, (Program.ofExpr summing).compile summingHost {} false = .ok c ∧
    ∀ k s, Machine.Runs ⟨c.module, #[remember]⟩ k (boot summingGlobals summingHeap []) s →
      ∀ i, next? ⟨c.module, #[remember]⟩ s = some i → s.frame.base + i.takes ≤ s.stack.size := by
  obtain ⟨c, r, t, hcompile, hresolve, hfits⟩ := summing_compiles
  refine ⟨c, hcompile, fun k s hruns => ?_⟩
  exact (compile_finds summing summingHost {} false #[remember] hcompile hresolve hfits
    summing_regular (remember_declared c.module) (summing_compares r) hruns).2

end TurtleScript.Code

import TurtleScript.Proofs.Code.Agreement
import TurtleScript.Proofs.Machine.Installation
import TurtleScript.Proofs.Semantics.Soundness

/-!
# Runs of compiled programs

A compiled module does what its program says: a run comes to what the evaluation of the program
comes to, with the same globals, arrays and calls of natives, and it goes on for as long as the
evaluation does. If what the host brings is of the types that it declares, the evaluation is
never stuck, so a run ends for a reason that no type excludes, with nothing left on the stack.

An array has one type of elements wherever it is held. Globals that hold the same array at two
types are therefore not of the host's types, unless the array is empty.
-/
namespace TurtleScript

/-- The calls of natives: which one, and its arguments. -/
abbrev Calls := List (Nat × List Value)

variable {σ : Type}

namespace Native

/-- A native that also writes down its calls. -/
def logged (index : Nat) (f : Native σ) : Native (σ × Calls) := fun args heap host =>
  let (result, heap, own) := f args heap host.1
  (result, heap, own, host.2 ++ [(index, args)])

/-- All calls are written down. -/
def loggedAll (natives : Array (Native σ)) : Array (Native (σ × Calls)) := natives.mapIdx logged

end Native

/-- What a host relies on does not depend on the calls that were written down. -/
def Holdings.logged (own : Holdings σ) : Holdings (σ × Calls) :=
  ⟨fun shapes host => own.fits shapes host.1, own.mono⟩

theorem Native.Respects.logged {f : Native σ} {own : Holdings σ} {n : NativeSignature}
    (h : f.Respects own n) (index : Nat) : (f.logged index).Respects own.logged n := by
  intro shapes heap args host hheap hown hlen hargs
  have hanswers := h shapes heap args host.1 hheap hown hlen hargs
  rw [Native.logged]
  generalize f args heap host.1 = r at hanswers ⊢
  cases hanswers with
  | value hle hheap hown hv => exact .value hle hheap hown hv
  | failure => exact .failure

theorem Host.Respected.logged {host : Host} {own : Holdings σ} {natives : Array (Native σ)}
    (h : host.Respected own natives) : host.Respected own.logged (Native.loggedAll natives) := by
  intro i n hn
  obtain ⟨f, hf, hrespects⟩ := h i n hn
  refine ⟨f.logged i, ?_, hrespects.logged i⟩
  rw [Native.loggedAll, Array.getElem?_mapIdx, hf]
  rfl

namespace Code

open ScopeTree Semantics Machine

/-- Some `==` has an operand without a value. -/
def ComparesNothing (r : Resolution) (e : Expr) : Prop :=
  ∃ l left right, .binary l .equal left right ∈ e.nodes ∧
    (r.typeOf? left.id = some .empty ∨ r.typeOf? right.id = some .empty)

/-- All names are such that a program may declare them. -/
def NamesValid (e : Expr) : Prop :=
  ∀ (l : Label) (name : String) (d : Option Expr), .var l name d ∈ e.nodes →
    Text.isIdentifier name = true

/-- The globals, arrays and state that a run starts with are of the types that the host says. -/
def Fit (host : Host) (own : Holdings σ) (globals : Array Value) (heap : Heap) (s : σ) : Prop :=
  ∃ shapes, heap.Conforms shapes ∧ Holds shapes globals (host.globals.map (·.type)) ∧
    own.fits shapes s

/-- The ways in which a run of a typed program ends. -/
inductive Orderly (budget : Nat) : Ending × State σ → Prop where
  /-- Nothing is left but the exit slot. -/
  | finished {steps : Nat} {st : State σ} : st.stack = #[.int 0] →
      Orderly budget (.finished steps none, st)
  | stopped {why : Stop} {st : State σ} : Harmless why → Orderly budget (.stopped why, st)
  | limit {st : State σ} : Orderly budget (.stopped (.fault (.stepLimit budget)), st)

/-- What an evaluation comes to, runs come to, and they go on for as long as it does. -/
structure Agrees (w : World σ) (m : Machine σ) (globals : Array Value) (heap : Heap) (host : σ) :
    Prop where
  finishes : ∀ fuel v s, w.evaluate fuel ⟨globals, #[], heap, host⟩ = .ok v s →
    ∃ n st, Machine.Ends m globals heap host n (.finished n v) st ∧ Machine.Leaves st s
  stops : ∀ fuel why s, w.evaluate fuel ⟨globals, #[], heap, host⟩ = .error (.stopped why) s →
    ∃ n st, Machine.Ends m globals heap host n (.stopped why) st ∧ Machine.Leaves st s
  returns : ∀ fuel v s, w.evaluate fuel ⟨globals, #[], heap, host⟩ ≠ .error (.returned v) s
  exhausts : (∀ fuel, ∃ s, w.evaluate fuel ⟨globals, #[], heap, host⟩ = .error .exhausted s) →
    ∀ budget, (m.run budget globals heap host).1 = .stopped (.fault (.stepLimit budget))

theorem agrees_of_linked {w : World σ} {m : Machine σ} {pool : Pool} (hl : LinkedAll w m pool)
    (globals : Array Value) (heap : Heap) (host : σ) : Agrees w m globals heap host where
  finishes := by
    intro fuel v s heval
    have houtcome := run_outcome hl fuel globals heap host
    rw [heval] at houtcome
    obtain ⟨n, st, hends, hleaves, -⟩ := houtcome
    exact ⟨n, st, hends, hleaves⟩
  stops := by
    intro fuel why s heval
    have houtcome := run_outcome hl fuel globals heap host
    rwa [heval] at houtcome
  returns := by
    intro fuel v s heval
    have houtcome := run_outcome hl fuel globals heap host
    rwa [heval] at houtcome
  exhausts := by
    intro hexhausted budget
    obtain ⟨s, heval⟩ := hexhausted budget
    have houtcome := run_outcome hl budget globals heap host
    rw [heval] at houtcome
    exact houtcome budget (Nat.le_refl budget)

namespace Compiles

variable {host : Host} {p : Program} {t : ScopeTree} {r : Resolution} {g : Generated}
  {natives : Array (Native σ)} {own : Holdings σ}

/-- Every function has its declaration, and the body of that is typed. -/
theorem declaration {q : Nat × Nat} (h : Compiles host p t r g) (hq : q ∈ t.nodeFunctions) :
    ∃ l body scope result type, (world p t r natives).declaration? q.2 = some (l, body) ∧
      t.scopeOf? l.id = some scope ∧ IsBody host t r q.2 scope result type body := by
  obtain ⟨y, hy, hfun, hid⟩ := h.built.declared q hq
  cases y with
  | function l name params body =>
    obtain ⟨node, id⟩ := q
    obtain rfl : l.id = node := hid
    have hnode : t.functionOf? l.id = some id := lookup_of_mem h.built.functionKeys hq
    cases hdecl : (world p t r natives).declaration? id with
    | none =>
      have hnone := List.findSome?_eq_none_iff.mp hdecl _ hy
      simp [hnode] at hnone
    | some found =>
      obtain ⟨l', body'⟩ := found
      obtain ⟨name', params', hmem, hid'⟩ := World.declaration?_eq_some hdecl
      obtain ⟨_, scope, result, type, hid'', hscope, hbody⟩ :=
        h.typed.bodies h.built.scopeKeys h.built.functionKeys h.built.placed hmem
      cases hid'.symm.trans hid''
      exact ⟨l', body', scope, result, type, rfl, hscope, hbody⟩
  | _ => cases hfun

/-- What is compared has values and is no array. -/
theorem comparable (h : Compiles host p t r g) (hcompares : ¬ ComparesNothing r p.body) {l : Label}
    {left right x : Expr} {type : Ty} (hmem : .binary l .equal left right ∈ p.body.nodes)
    (hx : x ∈ [left, right]) (htype : r.typeOf? x.id = some type) :
    type ≠ .empty ∧ type.isArray = false := by
  have hx : x = left ∨ x = right := by simpa using hx
  constructor
  · rintro rfl
    refine hcompares ⟨l, left, right, hmem, ?_⟩
    rcases hx with rfl | rfl
    · exact .inl htype
    · exact .inr htype
  · rcases generate_typed h.built h.typed with ⟨-, hgood⟩ | ⟨⟨_, _, _, herror⟩, -⟩
    · cases type with
      | array element =>
        refine absurd (bad_iff.mpr ⟨l, left, right, element, hmem, ?_⟩) hgood
        rcases hx with rfl | rfl
        · exact .inl htype
        · exact .inr htype
      | _ => rfl
    · cases h.code.symm.trans herror

theorem reliable (h : Compiles host p t r g) (hregular : host.Regular)
    (hnatives : host.Respected own natives) (hnames : NamesValid p.body)
    (hcompares : ¬ ComparesNothing r p.body) : Reliable host own (world p t r natives) where
  wf := h.built.toWf
  regular := hregular
  natives := hnatives
  names := hnames
  comparable := fun _ _ _ hmem _ hx _ htype => h.comparable hcompares hmem hx htype
  bodies := fun _ hq => h.declaration hq

/-- The evaluation of a compiled program keeps to its types. -/
theorem settles {globals : Array Value} {heap : Heap} {s : σ} (h : Compiles host p t r g)
    (hregular : host.Regular) (hnatives : host.Respected own natives) (hnames : NamesValid p.body)
    (hcompares : ¬ ComparesNothing r p.body) (hfit : Fit host own globals heap s) (fuel : Nat) :
    ∃ k shapes, Settles k shapes (fun shapes' v => Gives shapes' v .empty)
      ((world p t r natives).evaluate fuel ⟨globals, #[], heap, s⟩) := by
  obtain ⟨shapes, hheap, hglobals, hown⟩ := hfit
  obtain ⟨f, hf, hcount, hresult⟩ := h.built.mainFunction
  let k : Contract σ := ⟨host.globals.map (·.type), [], .empty, own⟩
  exact ⟨k, shapes, evaluate_sound (h.reliable hregular hnatives hnames hcompares) h.typed hf hcount
    hresult rfl rfl fuel _ ⟨hheap, hglobals, .nil, hown⟩⟩

end Compiles

variable {c : Compiled} {r : Resolution} {t : ScopeTree}

/-- A run of a compiled program comes to what the evaluation of the program comes to. If the host
and what it brings are as its types say, the evaluation is not stuck, and the program has no
value. -/
theorem run_agrees (body : Expr) (host : Host) (o : Options) (cancelled : Cancellation)
    (natives : Array (Native σ)) (own : Holdings σ) (globals : Array Value) (heap : Heap) (s : σ)
    (hcompile : (Program.ofExpr body).compile host o cancelled = .ok c)
    (hresolve : (build (.ofExpr body) host).tree.resolve (.ofExpr body) host cancelled = (.ok r, t))
    (hfits : Fits host (.ofExpr body) c.module) (hnames : NamesValid (Program.ofExpr body).body) :
    Agrees (world (.ofExpr body) t r (Native.loggedAll natives))
      ⟨c.module, Native.loggedAll natives⟩ globals heap (s, []) ∧
    (host.Regular → host.Respected own natives → ¬ ComparesNothing r (Program.ofExpr body).body →
      Fit host own globals heap s → ∀ fuel,
        (∀ store, (world (.ofExpr body) t r (Native.loggedAll natives)).evaluate fuel
          ⟨globals, #[], heap, (s, [])⟩ ≠ .error .stuck store) ∧
        ∀ v store, (world (.ofExpr body) t r (Native.loggedAll natives)).evaluate fuel
          ⟨globals, #[], heap, (s, [])⟩ = .ok v store → v = none) := by
  obtain ⟨t', r', g, hresolve', h, rfl⟩ := compile_eq_ok hcompile
  cases hresolve.symm.trans hresolve'
  refine ⟨agrees_of_linked (h.linkedAll hfits hnames) globals heap (s, []), ?_⟩
  intro hregular hnatives hcompares hfit fuel
  have hfit' : Fit host own.logged globals heap (s, ([] : Calls)) := hfit
  obtain ⟨k, shapes, hsettles⟩ :=
    h.settles hregular hnatives.logged hnames hcompares hfit' fuel
  generalize World.evaluate _ _ _ = result at hsettles ⊢
  cases hsettles with
  | value _ _ hv =>
    refine ⟨nofun, fun v store heval => ?_⟩
    cases heval
    cases hv with
    | nothing => rfl
    | value hv => exact absurd rfl hv.ne_empty
  | returned => exact ⟨nofun, nofun⟩
  | stopped => exact ⟨nofun, nofun⟩
  | exhausted => exact ⟨nofun, nofun⟩

/-- A run of a compiled program ends in order, if the host and what it brings are as its types
say. -/
theorem run_orderly (body : Expr) (host : Host) (o : Options) (cancelled : Cancellation)
    (natives : Array (Native σ)) (own : Holdings σ) (globals : Array Value) (heap : Heap) (s : σ)
    (budget : Nat) (hcompile : (Program.ofExpr body).compile host o cancelled = .ok c)
    (hresolve : (build (.ofExpr body) host).tree.resolve (.ofExpr body) host cancelled = (.ok r, t))
    (hfits : Fits host (.ofExpr body) c.module) (hnames : NamesValid (Program.ofExpr body).body)
    (hregular : host.Regular) (hnatives : host.Respected own natives)
    (hcompares : ¬ ComparesNothing r (Program.ofExpr body).body)
    (hfit : Fit host own globals heap s) :
    Orderly budget (Machine.run ⟨c.module, natives⟩ budget globals heap s) := by
  obtain ⟨t', r', g, hresolve', h, rfl⟩ := compile_eq_ok hcompile
  cases hresolve.symm.trans hresolve'
  have hlinked : LinkedAll (world (.ofExpr body) t r natives) ⟨t.link g o, natives⟩ g.pool :=
    h.linkedAll hfits hnames
  have houtcome := run_outcome hlinked budget globals heap s
  obtain ⟨k, shapes, hsettles⟩ := h.settles hregular hnatives hnames hcompares hfit budget
  generalize World.evaluate _ _ _ = result at hsettles houtcome
  have hlimit {n : Nat} {ending : Ending} {st : State σ}
      (hends : Machine.Ends ⟨t.link g o, natives⟩ globals heap s n ending st)
      (horderly : Orderly budget (ending, st)) :
      Orderly budget (Machine.run ⟨t.link g o, natives⟩ budget globals heap s) := by
    by_cases hn : budget < n
    · have hrun := hends.1 budget hn
      generalize Machine.run _ _ _ _ _ = ended at hrun ⊢
      obtain ⟨ending, st⟩ := ended
      cases hrun
      exact .limit
    · rw [hends.2 budget (by omega)]
      exact horderly
  cases hsettles with
  | value _ _ hv =>
    obtain ⟨n, st, hends, -, hstack⟩ := houtcome
    cases hv with
    | nothing => exact hlimit hends (.finished hstack)
    | value hv => exact absurd rfl hv.ne_empty
  | returned => exact houtcome.elim
  | stopped hwhy =>
    obtain ⟨n, st, hends, -⟩ := houtcome
    exact hlimit hends (.stopped hwhy)
  | exhausted =>
    have hrun := houtcome budget (Nat.le_refl budget)
    generalize Machine.run _ _ _ _ _ = ended at hrun ⊢
    obtain ⟨ending, st⟩ := ended
    cases hrun
    exact .limit

/-- Reports the sum of the doubled elements of an array of the host. -/
def summing : Expr :=
  .block {} [
    .function {} "twice" [.var {} "n" (some (.var {} "number" none))]
      (.ret {} (some (.binary {} .add (.var {} "n" none) (.var {} "n" none)))),
    .forIn {} (.var {} "x" none) (.var {} "rows" none)
      (.binary {} .assign (.var {} "total" none)
        (.binary {} .add (.var {} "total" none) (.call {} "twice" [.var {} "x" none]))),
    .call {} "report" [.var {} "total" none]]

def summingHost : Host where
  globals := [⟨"total", .double⟩, ⟨"rows", .array .double⟩]
  natives := [⟨"report", [.double], .empty⟩]

/-- A native that remembers its arguments. -/
def remember : Native (List Value) := fun args heap seen => (.ok none, heap, seen ++ args)

def summingHeap : Heap := ⟨#[⟨Ty.double.id, Ty.double.size, #[.double .one, .double .one]⟩]⟩

def summingGlobals : Array Value := #[.double .zero, .array 0]

theorem summing_regular : summingHost.Regular where
  globals := by decide
  params := by decide
  concat := by decide +kernel

theorem summing_respected : summingHost.Respected (.none _) #[remember] := by
  intro i n hn
  cases i with
  | zero =>
    cases hn
    exact ⟨remember, rfl, fun shapes heap args host hheap _ _ _ =>
      .value List.prefix_rfl hheap trivial .nothing⟩
  | succ i => cases hn

theorem summing_fit : Fit summingHost (.none (List Value)) summingGlobals summingHeap [] := by
  refine ⟨[⟨.double, 2, nofun⟩], ⟨rfl, ?_⟩, ?_, trivial⟩
  · intro ref c shape hc hshape
    cases ref with
    | zero =>
      cases hc
      cases hshape
      refine ⟨rfl, fun v hv => ?_⟩
      obtain rfl : v = .double .one := by simpa [summingHeap] using hv
      exact .scalar rfl rfl
    | succ ref => cases hshape
  · exact .cons (.scalar rfl rfl) (.cons (.array rfl (.inr rfl)) .nil)

theorem namesValid_of_all {e : Expr}
    (h : e.nodes.all (fun | .var _ name _ => Text.isIdentifier name | _ => true) = true) :
    NamesValid e := by
  intro l name d hmem
  exact List.all_eq_true.mp h _ hmem

theorem not_comparesNothing_of_all {r : Resolution} {e : Expr}
    (h : e.nodes.all (fun | .binary _ op _ _ => op ≠ .equal | _ => true) = true) :
    ¬ ComparesNothing r e := by
  rintro ⟨l, left, right, hmem, -⟩
  simpa using List.all_eq_true.mp h _ hmem

/-- Nothing in a module is counted past what operands can hold. -/
def countable (m : Module) : Bool :=
  m.constants.size < 2 ^ 31 && m.functions.size < 2 ^ 31 &&
    m.functions.all fun f => f.slots.length < 2 ^ 31 && f.code.size < 2 ^ 31

theorem fits_of_countable {host : Host} {p : Program} {m : Module} (hm : countable m = true)
    (hnodes : p.nodeCount < 2 ^ 31) (hglobals : host.globals.length < 2 ^ 31)
    (hnatives : host.natives.length < 2 ^ 31) : Fits host p m := by
  simp only [countable, Bool.and_eq_true, decide_eq_true_eq, Array.all_eq_true_iff_forall_mem] at hm
  obtain ⟨⟨hconstants, hfunctions⟩, hall⟩ := hm
  exact ⟨hnodes, hglobals, hnatives, hconstants, hfunctions, fun f hf => (hall f hf).1,
    fun f hf => (hall f hf).2⟩

theorem summing_compiles : ∃ c r t,
    (Program.ofExpr summing).compile summingHost {} false = .ok c ∧
    (build (.ofExpr summing) summingHost).tree.resolve (.ofExpr summing) summingHost false =
      (.ok r, t) ∧ Fits summingHost (.ofExpr summing) c.module := by
  have hcount : ((Program.ofExpr summing).compile summingHost {} false).toOption.any
      (countable ·.module) = true := by decide +kernel
  cases hcompile : (Program.ofExpr summing).compile summingHost {} false with
  | error d =>
    rw [hcompile] at hcount
    cases hcount
  | ok c =>
    rw [hcompile] at hcount
    obtain ⟨t, r, g, hresolve, -, -⟩ := compile_eq_ok hcompile
    exact ⟨c, r, t, rfl, hresolve, fits_of_countable hcount (by decide +kernel) (by decide)
      (by decide)⟩

theorem summing_names : NamesValid (Program.ofExpr summing).body :=
  namesValid_of_all (by decide +kernel)

theorem summing_compares (r : Resolution) : ¬ ComparesNothing r (Program.ofExpr summing).body :=
  not_comparesNothing_of_all (by decide +kernel)

theorem run_agrees_summing : ∃ c r t,
    (Program.ofExpr summing).compile summingHost {} false = .ok c ∧
    Agrees (world (.ofExpr summing) t r (Native.loggedAll #[remember]))
      ⟨c.module, Native.loggedAll #[remember]⟩ summingGlobals summingHeap ([], []) ∧
    ∀ fuel store, (world (.ofExpr summing) t r (Native.loggedAll #[remember])).evaluate fuel
      ⟨summingGlobals, #[], summingHeap, ([], [])⟩ ≠ .error .stuck store := by
  obtain ⟨c, r, t, hcompile, hresolve, hfits⟩ := summing_compiles
  obtain ⟨hagrees, hsound⟩ := run_agrees summing summingHost {} false #[remember] (.none _)
    summingGlobals summingHeap [] hcompile hresolve hfits summing_names
  exact ⟨c, r, t, hcompile, hagrees, fun fuel =>
    (hsound summing_regular summing_respected (summing_compares r) summing_fit fuel).1⟩

theorem run_orderly_summing : ∃ c,
    (Program.ofExpr summing).compile summingHost {} false = .ok c ∧
    Orderly 100 (Machine.run ⟨c.module, #[remember]⟩ 100 summingGlobals summingHeap []) := by
  obtain ⟨c, r, t, hcompile, hresolve, hfits⟩ := summing_compiles
  exact ⟨c, hcompile, run_orderly summing summingHost {} false #[remember] (.none _) summingGlobals
    summingHeap [] 100 hcompile hresolve hfits summing_names summing_regular summing_respected
    (summing_compares r) summing_fit⟩

end Code

end TurtleScript

import TurtleScript.Proofs.Code.Lowering
import TurtleScript.Proofs.Machine.Calls

/-!
# Lowered code carries out its expression

For every kind of node: if the codes of its parts carry out the parts, its own code carries
out the node. What the module and the scope tree have to provide for that is collected in
`Linked`.
-/
namespace TurtleScript

namespace Expr

/-- `y` is part of `x` and in the body of the same function. -/
inductive Encloses : Expr → Expr → Prop where
  | self (x : Expr) : Encloses x x
  | child {x c y : Expr} : x.isFunction = false → c ∈ x.children → Encloses c y → Encloses x y

theorem Encloses.mem_nodes {x y : Expr} (h : Encloses x y) : y ∈ x.nodes := by
  induction h with
  | self x => exact mem_nodes_self x
  | child _ hc _ ih => exact mem_nodes_child hc ih

end Expr

namespace ScopeTree

/-- The slots of `function` that the loop at node `id` uses for its array and its position. -/
def LoopPlaces (t : ScopeTree) (function id array index : Nat) : Prop :=
  ∃ slots v w, t.loopSlotsOf? id = some slots ∧ t.vars[slots.array]? = some v ∧
    t.vars[slots.index]? = some w ∧ v.storage = .slot function array ∧
    w.storage = .slot function index

/-- A slot that some loop uses. -/
def Hidden (t : ScopeTree) (function slot : Nat) : Prop :=
  ∃ id array index, t.LoopPlaces function id array index ∧ (slot = array ∨ slot = index)

end ScopeTree

def Callee.number : Callee → Nat
  | .script id => id
  | .native index => index

open Semantics Code

namespace Machine

variable {σ α : Type}

/-- What the module and the scopes provide for the code of expressions. -/
structure Linked (w : World σ) (m : Machine σ) (pool : Pool) : Prop where
  natives : m.natives = w.natives
  types : m.module.types = TypeDef.catalogue
  constants : m.module.constants.toList = pool.values
  poolSize : pool.values.length < 2 ^ 31
  children : ∀ e ∈ w.body.nodes, e.children.length < 2 ^ 31
  places : ∀ (id : Nat) (v : Variable), w.tree.vars[id]? = some v → v.storage.number < 2 ^ 31
  callees : ∀ (scope : Nat) (name : String) (types : List Ty) (o : Overload),
    w.tree.resolveCall? scope name types = some o → o.callee.number < 2 ^ 31
  /-- A number belongs to one node. -/
  below : ∀ e ∈ w.body.nodes, ∀ x ∈ e.children, ∀ y ∈ x.nodes, y.id ≠ e.id
  /-- No name of the program stands for a slot that a loop uses. -/
  visible : ∀ (l : Label) (name : String) (d : Option Expr), .var l name d ∈ w.body.nodes →
    ∀ (scope id : Nat) (v : Variable), w.tree.lookupVariable? scope name = some id →
      w.tree.vars[id]? = some v → ∀ function slot, v.storage = .slot function slot →
        ¬ w.tree.Hidden function slot
  /-- Two loops use different slots. -/
  apart : ∀ function id array index id' array' index',
    w.tree.LoopPlaces function id array index → w.tree.LoopPlaces function id' array' index' →
      id ≠ id' → array ≠ array' ∧ array ≠ index' ∧ index ≠ array' ∧ index ≠ index'

/-- The activation is one of `function`, and the slots of the loops in `e` are there and
not in use. -/
structure Ready (w : World σ) (m : Machine σ) (fuel : Nat) (z : Setting σ) (function : Nat)
    (ghost : Nat → Option Value) (e : Expr) : Prop where
  machine : z.machine = m
  fuel : z.fuel = fuel
  hidden : z.hidden = w.tree.Hidden function
  size : z.code.size < 2 ^ 31
  loops : ∀ l item iterable body, e.Encloses (.forIn l item iterable body) →
    ∃ array index, w.tree.LoopPlaces function l.id array index ∧ array ≠ index ∧
      array < z.width ∧ index < z.width
  free : ∀ l item iterable body, e.Encloses (.forIn l item iterable body) →
    ∀ array index, w.tree.LoopPlaces function l.id array index →
      ghost array = none ∧ ghost index = none

theorem Ready.child {w : World σ} {m : Machine σ} {fuel function : Nat} {z : Setting σ}
    {ghost : Nat → Option Value} {e x : Expr} (h : Ready w m fuel z function ghost e)
    (he : e.isFunction = false) (hx : x ∈ e.children) : Ready w m fuel z function ghost x :=
  { h with
    loops := fun l item iterable body hin => h.loops l item iterable body (.child he hx hin)
    free := fun l item iterable body hin => h.free l item iterable body (.child he hx hin) }

section Expressions

variable (w : World σ) (m : Machine σ) (pool : Pool) (fuel : Nat) (invoke : Invoke σ)

/-- The code that `e` is lowered to carries out `e`. -/
def Carries (e : Expr) : Prop :=
  ∀ ⦃z : Setting σ⦄ ⦃here : Position⦄ ⦃ghost : Nat → Option Value⦄ ⦃next : Nat⦄ ⦃seg : List Instr⦄,
    Ready w m fuel z here.function ghost e →
    lower pool ⟨w.tree, w.resolution, here.scope⟩ e = some seg → z.Holds next seg →
    z.Sim 0 ⟨next, ghost, []⟩ (w.eval fuel invoke here e)
      fun v => ⟨next + seg.length, ghost, v.toList⟩

variable {w m pool fuel invoke} {z : Setting σ} {here : Position} {ghost : Nat → Option Value}
  {next : Nat} {seg : List Instr} {l : Label}

open Setting

theorem Setting.Holds.length_le (h : z.Holds next seg) : seg.length ≤ z.code.size := by
  cases hlen : seg.length with
  | zero => exact Nat.zero_le _
  | succ n =>
    have hlast := h n _ (List.getElem?_eq_getElem (by omega))
    have := (Array.getElem?_eq_some_iff.mp hlast).1
    omega

theorem constant?_eq_some (hl : Linked w m pool) {value : Constant} {code : List Instr}
    (h : constant? pool value = some code) :
    ∃ i, code = [i] ∧ i ≠ .halt ∧ m.Rewrites i [] [.ofConstant value] := by
  obtain ⟨n, hn, rfl⟩ := Option.map_eq_some_iff.mp h
  have hget : pool.values[n]? = some value := by
    obtain ⟨hlt, hvalue, -⟩ := List.idxOf?_eq_some_iff.mp hn
    rw [List.getElem?_eq_getElem hlt]
    simpa using hvalue
  refine ⟨_, rfl, by simp, rewrites_loadConst ?_ ?_⟩
  · have := hl.poolSize
    have := (List.getElem?_eq_some_iff.mp hget).1
    omega
  · rw [← Array.getElem?_toList, hl.constants, hget]

/-- A value that was pushed by one instruction. -/
theorem Setting.Silent.constant (hl : Linked w m pool) (hm : z.machine = m) {value : Constant}
    {code : List Instr} (h : constant? pool value = some code) (hcode : z.Holds next code) :
    z.Silent 1 ⟨next, ghost, []⟩ ⟨next + code.length, ghost, [.ofConstant value]⟩ := by
  obtain ⟨i, rfl, hne, hrewrites⟩ := constant?_eq_some hl h
  exact .rewrite hcode.head hne (hm ▸ hrewrites)

theorem constant_carries (hl : Linked w m pool) (value : Literal) :
    Carries w m pool fuel invoke (.constant l value) := by
  intro z here ghost next seg hz hseg hcode
  have hvalue : Semantics.literal value = .ofConstant (Generate.literal value) := by
    cases value <;> rfl
  have hpush : z.Silent 1 ⟨next, ghost, []⟩
      ⟨next + seg.length, ghost, [.ofConstant (Generate.literal value)]⟩ :=
    .constant hl hz.machine hseg hcode
  rw [World.eval, hvalue]
  exact Sim.uncounted hpush.pure

/-- The place of a name that the program uses. -/
theorem place_facts (hl : Linked w m pool) {name : String} {d : Option Expr} {place : Storage}
    (hmem : .var l name d ∈ w.body.nodes) (hz : z.hidden = w.tree.Hidden here.function)
    (hplace : w.place? here name = some place) :
    place.number < 2 ^ 31 ∧ ∀ slot, place = .slot here.function slot → ¬ z.hidden slot := by
  obtain ⟨v, hv, rfl⟩ := Option.map_eq_some_iff.mp hplace
  obtain ⟨id, hid, hv⟩ := Option.bind_eq_some_iff.mp hv
  refine ⟨hl.places id v hv, fun slot hslot => ?_⟩
  rw [hz]
  exact hl.visible l name d hmem here.scope id v hid hv here.function slot hslot

theorem var_carries (hl : Linked w m pool) {name : String} {d : Option Expr}
    (hmem : .var l name d ∈ w.body.nodes) :
    Carries w m pool fuel invoke (.var l name d) := by
  intro z here ghost next seg hz hseg hcode
  obtain ⟨place, hplace, hk⟩ := Option.bind_eq_some_iff.mp hseg
  cases hk
  obtain ⟨hsmall, hvisible⟩ := place_facts hl hmem hz.hidden hplace
  refine Sim.known hplace ?_
  exact Sim.uncounted (Sim.map (Sim.read hcode.head hsmall hvisible))

theorem assignVar_carries (hl : Linked w m pool) {target : Label} {name : String}
    {d : Option Expr} {right : Expr} (hmem : .var target name d ∈ w.body.nodes)
    (hr : Carries w m pool fuel invoke right) :
    Carries w m pool fuel invoke (.binary l .assign (.var target name d) right) := by
  intro z here ghost next seg hz hseg hcode
  obtain ⟨place, hplace, hk⟩ := Option.bind_eq_some_iff.mp hseg
  obtain ⟨value, hvalue, hk⟩ := Option.bind_eq_some_iff.mp hk
  cases hk
  obtain ⟨hsmall, hvisible⟩ := place_facts hl hmem hz.hidden hplace
  obtain ⟨hcode, htail⟩ := hcode.append
  refine Sim.known hplace ?_
  have hright := hr (hz.child rfl (by simp)) hvalue hcode
  refine hright.seq fun v => Sim.need fun v' hv => ?_
  subst hv
  have hdup : z.Silent 1 ⟨next + value.length, ghost, [v']⟩
      ⟨next + value.length + 1, ghost, [v', v']⟩ :=
    .rewrite htail.head (by simp) (rewrites_dup v')
  have hstore : z.Sim 1 ⟨next + value.length + 1, ghost, [v', v']⟩
      (Eval.write here.function place v') fun _ => ⟨next + value.length + 2, ghost, [v']⟩ :=
    (Sim.write htail.tail.head hsmall hvisible).frame [v']
  rw [List.length_append, ← Nat.add_assoc]
  exact hdup.seq <| hstore.seq fun _ => Sim.pure rfl

theorem number_need {f : Double → Eval σ α} {v : Option Value} {p : Spot} {q : α → Spot} {c : Nat}
    (h : ∀ d, v = some (.double d) → z.Sim c p (f d) q) : z.Sim c p (Eval.number v >>= f) q := by
  refine Sim.need fun d hd => h d ?_
  obtain ⟨x, rfl, hx⟩ := Option.bind_eq_some_iff.mp hd
  cases x <;> cases hx
  rfl

theorem truth_need {f : Bool → Eval σ α} {v : Option Value} {p : Spot} {q : α → Spot} {c : Nat}
    (h : ∀ b, v = some (.boolean b) → z.Sim c p (f b) q) : z.Sim c p (Eval.truth v >>= f) q := by
  refine Sim.need fun b hb => h b ?_
  obtain ⟨x, rfl, hx⟩ := Option.bind_eq_some_iff.mp hb
  cases x <;> cases hx
  rfl

theorem ref_need {f : Nat → Eval σ α} {v : Option Value} {p : Spot} {q : α → Spot} {c : Nat}
    (h : ∀ cell, v = some (.array cell) → z.Sim c p (f cell) q) :
    z.Sim c p (Eval.ref v >>= f) q := by
  refine Sim.need fun cell hcell => h cell ?_
  obtain ⟨x, rfl, hx⟩ := Option.bind_eq_some_iff.mp hcell
  cases x <;> cases hx
  rfl

/-- An array and an index come to the address of an element. -/
theorem address_sim {x y : Eval σ (Option Value)} {f : Nat → Double → Eval σ α} {type : Ty}
    {p : Spot} {q : α → Spot} {mid stop : Nat}
    (hx : z.Sim 0 p x fun v => ⟨mid, ghost, v.toList⟩)
    (hy : z.Sim 0 ⟨mid, ghost, []⟩ y fun v => ⟨stop, ghost, v.toList⟩)
    (hcode : z.Holds stop (Generate.elementAddress type.size.toInt32))
    (h : ∀ cell d, z.Sim 0 ⟨stop + 4, ghost, [.address cell (Eval.offset d type)]⟩ (f cell d) q) :
    z.Sim 0 p (do f (← Eval.ref (← x)) (← Eval.number (← y))) q := by
  refine hx.seq fun v => ref_need fun cell hcell => ?_
  subst hcell
  refine (hy.frame [.array cell]).seq fun v => number_need fun d hd => ?_
  subst hd
  exact (Silent.elementAddress hcode).seq (h cell d)

theorem assignElement_carries {target : Label} {array index right : Expr}
    (ha : Carries w m pool fuel invoke array) (hx : Carries w m pool fuel invoke index)
    (hr : Carries w m pool fuel invoke right) :
    Carries w m pool fuel invoke
      (.binary l .assign (.element target array (some index)) right) := by
  intro z here ghost next seg hz hseg hcode
  obtain ⟨type, htype, arrayCode, harray, indexCode, hindex, value, hvalue, rfl⟩ :=
    lower_assignElement_eq_some hseg
  simp only [List.append_assoc] at hcode ⊢
  obtain ⟨hcodeA, hcode⟩ := hcode.append
  obtain ⟨hcodeI, hcode⟩ := hcode.append
  obtain ⟨hcodeE, hcode⟩ := hcode.append
  obtain ⟨hcodeR, hcodeS⟩ := hcode.append
  have hparts : Ready w m fuel z here.function ghost (.element target array (some index)) :=
    hz.child rfl (by simp)
  refine Sim.known htype ?_
  refine address_sim (ha (hparts.child rfl (by simp)) harray hcodeA)
    (hx (hparts.child rfl (by simp)) hindex hcodeI) hcodeE fun cell d => ?_
  have hevalR := (hr (hz.child rfl (by simp)) hvalue hcodeR).frame
    [.address cell (Eval.offset d type)]
  refine hevalR.seq fun vr => Sim.need fun v hv => ?_
  subst hv
  refine (Sim.writeElement hcodeS.head).seq fun _ => Sim.pure ?_
  simp [Nat.add_assoc]

/-- The instruction of a call runs what is called. -/
theorem apply_sim (hl : Linked w m pool) (hinvoke : Invokes m fuel invoke) (hm : z.machine = m)
    (hfuel : z.fuel = fuel) {callee : Callee} (args : List Value) (hn : callee.number < 2 ^ 31)
    (hargs : args.length < 2 ^ 31)
    (hi : z.code[next]? = some (Generate.call args.length callee)) :
    z.Sim 1 ⟨next, ghost, args.reverse⟩ (w.apply invoke callee args)
      fun v => ⟨next + 1, ghost, v.toList⟩ := by
  subst hm hfuel
  cases callee with
  | script id => exact Sim.call hinvoke hn hargs hi
  | native index =>
    rw [World.apply, ← hl.natives]
    exact Sim.native hn hargs hi

theorem operator_sim (hl : Linked w m pool) (hinvoke : Invokes m fuel invoke) (hm : z.machine = m)
    (hfuel : z.fuel = fuel) {op : BinaryOp} {left right : Ty} {x y : Value} {i : Instr}
    (hop : operator? ⟨w.tree, w.resolution, here.scope⟩ op left right = some i)
    (hi : z.code[next]? = some i) :
    z.Sim 1 ⟨next, ghost, [y, x]⟩ (w.operator invoke here op left right x y)
      fun v => ⟨next + 1, ghost, v.toList⟩ := by
  rw [World.operator]
  rw [operator?] at hop
  by_cases hadd : op = .add ∧ (left = .string ∨ right = .string)
  · rw [if_pos hadd] at hop ⊢
    obtain ⟨o, ho, rfl⟩ := Option.map_eq_some_iff.mp hop
    refine Sim.known ho ?_
    exact apply_sim hl hinvoke hm hfuel [x, y] (hl.callees _ _ _ _ ho) (by simp) hi
  · rw [if_neg hadd] at hop ⊢
    by_cases heq : op = .equal ∧ (left.isArray ∨ right.isArray)
    · rw [if_pos heq]
      exact Sim.stuck 1 _ _
    · rw [if_neg heq] at hop ⊢
      cases hop
      rw [map_eq_pure_bind]
      refine Sim.need fun v hv => ?_
      have hne : Generate.operator op ≠ .halt := by cases op <;> simp [Generate.operator]
      exact (Silent.rewrite hi hne (rewrites_operator hv)).pure

theorem operator_carries (hl : Linked w m pool) (hinvoke : Invokes m fuel invoke)
    {op : BinaryOp} {left right : Expr} (hop : op ≠ .assign)
    (ha : Carries w m pool fuel invoke left) (hb : Carries w m pool fuel invoke right) :
    Carries w m pool fuel invoke (.binary l op left right) := by
  intro z here ghost next seg hz hseg hcode
  obtain ⟨leftCode, hleft, rightCode, hright, leftType, hleftType, rightType, hrightType, i, hi,
    rfl⟩ := lower_operator_eq_some hop hseg
  simp only [List.append_assoc] at hcode ⊢
  obtain ⟨hcodeA, hcode⟩ := hcode.append
  obtain ⟨hcodeB, hcodeI⟩ := hcode.append
  rw [World.eval_operator hop]
  refine (ha (hz.child rfl (by simp)) hleft hcodeA).seq fun va => ?_
  refine Sim.need fun x hx => ?_
  subst hx
  have hevalB := (hb (hz.child rfl (by simp)) hright hcodeB).frame [x]
  refine hevalB.seq fun vb => Sim.need fun y hy => ?_
  subst hy
  refine Sim.known hleftType <| Sim.known hrightType ?_
  have hend : next + (leftCode ++ (rightCode ++ [i])).length =
      next + leftCode.length + rightCode.length + 1 := by simp [Nat.add_assoc]
  rw [hend]
  exact (operator_sim hl hinvoke hz.machine hz.fuel hi hcodeI.head).uncounted

theorem function_carries {name : String} {params : List Expr} {body : Expr} :
    Carries w m pool fuel invoke (.function l name params body) := by
  intro z here ghost next seg _ hseg _
  cases hseg
  exact Sim.pure rfl

theorem paren_carries {inner : Expr} (h : Carries w m pool fuel invoke inner) :
    Carries w m pool fuel invoke (.paren l inner) :=
  fun _ _ _ _ _ hz hseg hcode => h (hz.child rfl (by simp)) hseg hcode

theorem element_carries {array : Expr} {index : Option Expr}
    (ha : Carries w m pool fuel invoke array)
    (hx : ∀ e ∈ index.toList, Carries w m pool fuel invoke e) :
    Carries w m pool fuel invoke (.element l array index) := by
  intro z here ghost next seg hz hseg hcode
  cases index with
  | none => cases hseg
  | some index =>
    obtain ⟨type, htype, arrayCode, harray, indexCode, hindex, rfl⟩ := lower_element_eq_some hseg
    simp only [List.append_assoc] at hcode ⊢
    obtain ⟨hcodeA, hcode⟩ := hcode.append
    obtain ⟨hcodeI, hcode⟩ := hcode.append
    obtain ⟨hcodeE, hcodeG⟩ := hcode.append
    refine Sim.known htype ?_
    refine address_sim (ha (hz.child rfl (by simp)) harray hcodeA)
      (hx index (by simp) (hz.child rfl (by simp)) hindex hcodeI) hcodeE fun cell d => ?_
    rw [map_eq_pure_bind]
    refine (Sim.readElement hcodeG.head).seq fun v => Sim.pure ?_
    simp [Nat.add_assoc, Generate.elementAddress]

theorem settle_need {e : Expr} {v : Option Value} {f : Unit → Eval σ α} {p : Spot}
    {q : α → Spot} {c : Nat}
    (h : ∀ type, w.typeOf? e = some type → (v.isSome = !type.isEmpty) → z.Sim c p (f ()) q) :
    z.Sim c p (w.settle e v >>= f) q := by
  rw [World.settle, bind_assoc]
  refine Sim.need fun type htype => ?_
  by_cases hv : v.isSome = !type.isEmpty
  · rw [if_pos hv]
    exact h type htype hv
  · rw [if_neg hv]
    exact Sim.stuck c p q

/-- The value of a node is dropped, if its type says that there is one. -/
theorem settle_drop {e : Expr} {v : Option Value} {scope : Nat} {dropped : List Instr}
    (hdrop : drop? ⟨w.tree, w.resolution, scope⟩ e = some dropped)
    (hcode : z.Holds next dropped) :
    z.Sim 0 ⟨next, ghost, v.toList⟩ (w.settle e v) fun _ => ⟨next + dropped.length, ghost, []⟩ := by
  rw [← bind_pure (w.settle e v)]
  refine settle_need fun type htype hv => ?_
  obtain ⟨type', htype', rfl⟩ := Option.map_eq_some_iff.mp hdrop
  obtain rfl : type = type' := Option.some.inj (htype.symm.trans htype')
  cases hempty : type.isEmpty with
  | true =>
    rw [hempty] at hv
    obtain rfl : v = none := by simpa using hv
    exact Sim.pure rfl
  | false =>
    rw [hempty] at hv hcode
    obtain ⟨x, rfl⟩ := Option.isSome_iff_exists.mp hv
    exact Sim.uncounted (Silent.rewrite hcode.head (by simp) (rewrites_pop x))

theorem within_need {e : Expr} {inner : Code.Context} {f : Position → Eval σ α} {p : Spot}
    {q : α → Spot} {c : Nat}
    (hinner : Code.within? ⟨w.tree, w.resolution, here.scope⟩ e = some inner)
    (h : ∀ scope, inner = ⟨w.tree, w.resolution, scope⟩ → z.Sim c p (f ⟨scope, here.function⟩) q) :
    z.Sim c p (Eval.need (w.within? here e) >>= f) q := by
  refine Sim.need fun inner' hinner' => ?_
  obtain ⟨scope, hscope, rfl⟩ := Option.map_eq_some_iff.mp hinner
  obtain ⟨scope', hscope', rfl⟩ := Option.map_eq_some_iff.mp hinner'
  obtain rfl : scope = scope' := Option.some.inj (hscope.symm.trans hscope')
  exact h scope rfl

theorem members_sim {es : List Expr} (hc : ∀ e ∈ es, Carries w m pool fuel invoke e)
    (hz : ∀ e ∈ es, Ready w m fuel z here.function ghost e)
    (hseg : lowerMembers pool ⟨w.tree, w.resolution, here.scope⟩ es = some seg)
    (hcode : z.Holds next seg) :
    z.Sim 0 ⟨next, ghost, []⟩ (w.evalMembers fuel invoke here es)
      fun v => ⟨next + seg.length, ghost, v.toList⟩ := by
  induction es generalizing next seg with
  | nil =>
    cases hseg
    exact Sim.pure rfl
  | cons e es ih =>
    obtain ⟨first, hfirst, dropped, hdropped, others, hothers, rfl⟩ :=
      lowerMembers_cons_eq_some hseg
    rw [List.append_assoc] at hcode ⊢
    obtain ⟨hcodeF, hcode⟩ := hcode.append
    obtain ⟨hcodeD, hcodeO⟩ := hcode.append
    rw [World.evalMembers]
    refine (hc e (by simp) (hz e (by simp)) hfirst hcodeF).seq fun v => ?_
    cases es with
    | nil =>
      cases hothers
      cases hdropped
      exact Sim.pure (by simp)
    | cons e' es =>
      have hrest := ih (fun x hx => hc x (List.mem_cons_of_mem e hx))
        (fun x hx => hz x (List.mem_cons_of_mem e hx)) hothers hcodeO
      simp only [List.length_append, ← Nat.add_assoc]
      exact (settle_drop hdropped hcodeD).seq fun _ => hrest

theorem block_carries {body : List Expr} (hc : ∀ e ∈ body, Carries w m pool fuel invoke e) :
    Carries w m pool fuel invoke (.block l body) := by
  intro z here ghost next seg hz hseg hcode
  obtain ⟨inner, hinner, hseg⟩ := Option.bind_eq_some_iff.mp hseg
  refine within_need hinner fun scope hscope => ?_
  subst hscope
  exact members_sim hc (fun e he => hz.child rfl he) hseg hcode

theorem all_sim {es : List Expr} (hc : ∀ e ∈ es, Carries w m pool fuel invoke e)
    (hz : ∀ e ∈ es, Ready w m fuel z here.function ghost e)
    (hseg : lowerAll pool ⟨w.tree, w.resolution, here.scope⟩ es = some seg)
    (hcode : z.Holds next seg) :
    z.Sim 0 ⟨next, ghost, []⟩ (w.evalAll fuel invoke here es)
      fun vs => ⟨next + seg.length, ghost, vs.reverse⟩ := by
  induction es generalizing next seg with
  | nil =>
    cases hseg
    exact Sim.pure rfl
  | cons e es ih =>
    obtain ⟨first, hfirst, hk⟩ := Option.bind_eq_some_iff.mp hseg
    obtain ⟨others, hothers, hk⟩ := Option.bind_eq_some_iff.mp hk
    cases hk
    obtain ⟨hcodeF, hcodeO⟩ := hcode.append
    rw [World.evalAll]
    refine (hc e (by simp) (hz e (by simp)) hfirst hcodeF).seq fun v => ?_
    refine Sim.need fun v' hv => ?_
    subst hv
    have hrest := (ih (fun x hx => hc x (List.mem_cons_of_mem e hx))
      (fun x hx => hz x (List.mem_cons_of_mem e hx)) hothers hcodeO).frame [v']
    exact hrest.seq fun vs => Sim.pure (by simp [Nat.add_assoc])

theorem evalAll_length {es : List Expr} {s s' : Store σ} {vs : List Value}
    (h : w.evalAll fuel invoke here es s = .ok vs s') : vs.length = es.length := by
  induction es generalizing s vs with
  | nil =>
    cases h
    rfl
  | cons e es ih =>
    rw [World.evalAll] at h
    obtain ⟨v, s₁, -, h⟩ := EStateM.bind_eq_ok h
    obtain ⟨v', s₂, -, h⟩ := EStateM.bind_eq_ok h
    obtain ⟨vs', s₃, hvs, h⟩ := EStateM.bind_eq_ok h
    cases h
    rw [List.length_cons, List.length_cons, ih hvs]

theorem call_carries (hl : Linked w m pool) (hinvoke : Invokes m fuel invoke) {name : String}
    {args : List Expr} (hmem : .call l name args ∈ w.body.nodes)
    (hc : ∀ e ∈ args, Carries w m pool fuel invoke e) :
    Carries w m pool fuel invoke (.call l name args) := by
  intro z here ghost next seg hz hseg hcode
  obtain ⟨code, hall, types, htypes, o, ho, rfl⟩ := lower_call_eq_some hseg
  obtain ⟨hcodeA, hcodeC⟩ := hcode.append
  refine (all_sim hc (fun e he => hz.child rfl he) hall hcodeA).seqOf
    (fun _ _ _ => evalAll_length) fun vs hlength => ?_
  refine Sim.known htypes <| Sim.known ho ?_
  have hsmall : vs.length < 2 ^ 31 := hlength ▸ hl.children _ hmem
  rw [List.length_append, List.length_singleton, ← Nat.add_assoc]
  refine Sim.uncounted (apply_sim hl hinvoke hz.machine hz.fuel vs (hl.callees _ _ _ _ ho) hsmall ?_)
  rw [hlength]
  exact hcodeC.head

theorem array_carries (hl : Linked w m pool) {elements : List Expr}
    (hmem : .array l elements ∈ w.body.nodes)
    (hc : ∀ e ∈ elements, Carries w m pool fuel invoke e) :
    Carries w m pool fuel invoke (.array l elements) := by
  intro z here ghost next seg hz hseg hcode
  obtain ⟨code, hall, hk⟩ := Option.bind_eq_some_iff.mp hseg
  obtain ⟨type, htype, hk⟩ := Option.bind_eq_some_iff.mp hk
  cases type with
  | array element =>
    cases hk
    obtain ⟨hcodeA, hcodeN⟩ := hcode.append
    refine (all_sim hc (fun e he => hz.child rfl he) hall hcodeA).seqOf
      (fun _ _ _ => evalAll_length) fun vs hlength => ?_
    refine Sim.known htype ?_
    have hsmall : vs.length < 2 ^ 31 := hlength ▸ hl.children _ hmem
    have htypes : z.machine.module.types = TypeDef.catalogue := hz.machine ▸ hl.types
    have hi := hcodeN.head
    rw [← hlength] at hi
    rw [List.length_append, List.length_singleton, ← Nat.add_assoc]
    exact Sim.uncounted (Sim.map (Sim.newArray htypes hsmall hi))
  | _ => cases hk

theorem ret_carries {value : Option Expr}
    (hc : ∀ e ∈ value.toList, Carries w m pool fuel invoke e) :
    Carries w m pool fuel invoke (.ret l value) := by
  intro z here ghost next seg hz hseg hcode
  cases value with
  | none =>
    cases hseg
    exact Sim.ret (v := none) hcode.head
  | some value =>
    obtain ⟨code, hvalue, hk⟩ := Option.bind_eq_some_iff.mp hseg
    obtain ⟨type, htype, hk⟩ := Option.bind_eq_some_iff.mp hk
    cases hk
    obtain ⟨hcodeV, hcodeR⟩ := hcode.append
    refine (hc value (by simp) (hz.child rfl (by simp)) hvalue hcodeV).seq
      fun v => settle_need fun type' htype' hv => ?_
    obtain rfl : type = type' := Option.some.inj (htype.symm.trans htype')
    refine Sim.ret ?_
    have hcount : (if v.isSome then 1 else 0 : Int32) = if type.isEmpty then 0 else 1 := by
      rw [hv]
      cases type.isEmpty <;> rfl
    rw [hcount]
    exact hcodeR.head

end Expressions

end Machine

end TurtleScript

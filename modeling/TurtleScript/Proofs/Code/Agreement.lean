import TurtleScript.Proofs.Code.Runs
import TurtleScript.Proofs.Code.Walk
import TurtleScript.Proofs.Typing.Walk

/-!
# The passes agree

Code can be laid out for every program that was scoped and typed, with one exception: an array
cannot be compared. The walk repeats every look into the tables that was made before, in an
order of its own, and finds what was found then.
-/
namespace TurtleScript.Code

open ScopeTree Semantics

/-- A part of the walk that goes over the nodes `xs`, one after the other: it comes to its end
unless an array is compared below one of them. -/
def Visits (t : ScopeTree) (r : Resolution) (xs : List Expr) (x : Generate Unit) : Prop :=
  ∀ ⦃s₀ : Generation⦄ ⦃opened : List Marker⦄ ⦃visited : List Expr⦄ ⦃s : Generation⦄,
    Reached t s₀ opened visited s →
      Ends (Bad r xs) (fun _ => Reached t s₀ opened (xs.reverseAux visited)) (x s)

/-- Code can be laid out for a node in its scope, unless an array is compared below it. -/
def Passes (t : ScopeTree) (r : Resolution) (scope : Nat) (e : Expr) : Prop :=
  Visits t r [e] (Generate.expr ⟨t, r, scope⟩ e)

section Nodes

variable {α : Type} {t : ScopeTree} {r : Resolution} {scope inner : Nat} {q : Prop}
  {ψ : α → Generation → Prop} {s s₀ : Generation} {opened : List Marker}
  {visited visited' xs ys zs es : List Expr} {e x : Expr} {l : Label} {type : Ty}

theorem Ends.visit {x : Generate Unit} {f : Unit → Generate α} (hx : Visits t r xs x)
    (hr : Reached t s₀ opened visited s)
    (hf : ∀ s', Reached t s₀ opened (xs.reverseAux visited) s' → Ends (Bad r ys) ψ (f () s')) :
    Ends (Bad r (xs ++ ys)) ψ ((x >>= f) s) :=
  ((hx hr).bind fun _ => hf).imp bad_append.symm fun _ _ h => h

theorem Ends.last {φ : α → Generation → Prop} {res : EStateM.Result Diagnostic Generation α}
    (h : Ends False φ res) : Ends (Bad r []) φ res :=
  h.imp ⟨False.elim, not_bad_nil⟩ fun _ _ h => h

theorem Ends.within {f : Generate.Context → Generate α} (h : t.scopeOf? e.id = some inner)
    (hf : Ends q ψ (f ⟨t, r, inner⟩ s)) :
    Ends q ψ ((Generate.within ⟨t, r, scope⟩ e >>= f) s) := by
  have hrun : Generate.within ⟨t, r, scope⟩ e s = .ok ⟨t, r, inner⟩ s := by
    rw [Generate.within]
    dsimp only
    rw [h]
    rfl
  rw [EStateM.bind_ok hrun]
  exact hf

/-- The functions below `e` are those below the nodes that were visited. -/
theorem Reached.node (h : Reached t s₀ opened (xs.reverseAux visited) s)
    (hxs : ∀ id, Encloses t [e] id → Encloses t xs id) : Reached t s₀ opened (e :: visited) s := by
  refine { h with done := fun id hid hsize => h.done id ?_ hsize }
  rw [List.reverseAux_eq, encloses_append]
  rcases encloses_cons.mp hid with hid | hid
  · obtain ⟨x, hx, hrest⟩ := hxs id hid
    exact .inl ⟨x, List.mem_reverse.mpr hx, hrest⟩
  · exact .inr hid

/-- A list of nodes was visited that has all that counts below `e`. -/
theorem Ends.node {res : EStateM.Result Diagnostic Generation Unit} (hc : Covers t r e xs)
    (h : Ends (Bad r xs) (fun _ => Reached t s₀ opened (xs.reverseAux visited)) res) :
    Ends (Bad r [e]) (fun _ => Reached t s₀ opened (e :: visited)) res :=
  h.imp hc.bad.symm fun _ _ hr => hr.node hc.holds

namespace Visits

variable {x y test yes no body : Generate Unit}

theorem of_writes (hx : Writes x) : Visits t r [] x := fun _ _ _ _ hr => (hx.ends hr).last

theorem seq (hx : Visits t r xs x) (hy : Visits t r ys y) :
    Visits t r (xs ++ ys) (x >>= fun _ => y) := by
  intro s₀ opened visited s hr
  refine .visit hx hr fun s hr => (hy hr).imp Iff.rfl fun _ s hr => ?_
  simpa [List.reverseAux_eq] using hr

/-- Code is written before. -/
theorem before (hx : Writes x) (hy : Visits t r ys y) : Visits t r ys (x >>= fun _ => y) :=
  (of_writes hx).seq hy

/-- Code is written afterwards. -/
theorem after (hx : Visits t r xs x) (hy : Writes y) : Visits t r xs (x >>= fun _ => y) :=
  List.append_nil xs ▸ hx.seq (of_writes hy)

theorem branching (hc : Visits t r xs test) (hy : Visits t r ys yes) (hn : Visits t r zs no) :
    Visits t r (xs ++ (ys ++ zs)) (Generate.branching test yes no) := by
  intro s₀ opened visited s hr
  refine .visit hc hr fun s hr => ?_
  refine .acquire hr fun away s hr => ?_
  refine .visit hy hr fun s hr => ?_
  refine .acquire hr fun past s hr => ?_
  refine .acquire hr fun other s hr => ?_
  rw [← List.append_nil zs]
  refine .visit hn hr fun s hr => ?_
  refine .acquire hr fun stop s hr => ?_
  refine .placeJump hr (by simp) (by simp) fun s hr => ?_
  refine .placeJump hr (by simp) (by simp) fun s hr => ?_
  refine (ends_releaseAll [away, past, other, stop] ?_).last
  simpa [List.reverseAux_eq] using hr

theorem skipping (hc : Visits t r xs test) (hy : Visits t r ys yes) :
    Visits t r (xs ++ ys) (Generate.skipping test yes) := by
  intro s₀ opened visited s hr
  refine .visit hc hr fun s hr => ?_
  refine .acquire hr fun away s hr => ?_
  rw [← List.append_nil ys]
  refine .visit hy hr fun s hr => ?_
  refine .acquire hr fun stop s hr => ?_
  refine .placeJump hr (by simp) (by simp) fun s hr => ?_
  refine (ends_releaseAll [away, stop] ?_).last
  simpa [List.reverseAux_eq] using hr

theorem looping {kind : JumpKind} (hb : Visits t r xs body) (hc : Visits t r ys test) :
    Visits t r (xs ++ ys) (Generate.looping kind body test) := by
  intro s₀ opened visited s hr
  refine .acquire hr fun entry s hr => ?_
  refine .acquire hr fun first s hr => ?_
  refine .visit hb hr fun s hr => ?_
  refine .acquire hr fun next s hr => ?_
  refine .placeJump hr (by simp) (by simp) fun s hr => ?_
  rw [← List.append_nil ys]
  refine .visit hc hr fun s hr => ?_
  refine .emitJump hr (by simp) fun s hr => ?_
  refine (ends_releaseAll [entry, first, next] ?_).last
  simpa [List.reverseAux_eq] using hr

theorem repeating (hb : Visits t r xs body) : Visits t r xs (Generate.repeating body) := by
  intro s₀ opened visited s hr
  refine .acquire hr fun first s hr => ?_
  rw [← List.append_nil xs]
  refine .visit hb hr fun s hr => ?_
  refine .emitJump hr (by simp) fun s hr => ?_
  refine (ends_releaseAll [first] ?_).last
  simpa [List.reverseAux_eq] using hr

end Visits

theorem passes_constant (value : Literal) : Passes t r scope (.constant l value) := by
  intro s₀ opened visited s hr
  have hstill : Still r (.constant l value) := by
    intro y hy
    rcases Expr.mem_nodes.mp hy with rfl | ⟨x, hx, -⟩
    · exact ⟨by rintro ⟨_, _, _, ⟨⟩, _⟩, rfl⟩
    · cases hx
  exact .node hstill.covers (Visits.of_writes (writes_constant _) hr)

theorem passes_var {name : String} {d : Option Expr} {here : Position}
    (hdeclared : Declared (.var l name d)) (hvar : t.HasVar here name type) :
    Passes t r here.scope (.var l name d) := by
  intro s₀ opened visited s hr
  obtain ⟨id, v, hlookup, hv, -⟩ := hvar
  refine .node (still_of_declared hdeclared).covers ?_
  refine .orFail (a := v.storage) ?_ (Visits.of_writes (writes_emit _) hr)
  rw [hlookup, Option.bind_some, hv, Option.map_some]

theorem passes_assignVar {target : Label} {name : String} {d : Option Expr} {right : Expr}
    {here : Position} (hdeclared : Declared (.var target name d)) (hvar : t.HasVar here name type)
    (hright : Passes t r here.scope right) :
    Passes t r here.scope (.binary l .assign (.var target name d) right) := by
  intro s₀ opened visited s hr
  have hcovers : Covers t r (.binary l .assign (.var target name d) right) [right] := by
    refine covers_children nofun rfl ?_ (by simp)
    simp [still_of_declared hdeclared]
  obtain ⟨id, v, hlookup, hv, -⟩ := hvar
  refine .node hcovers (.orFail (a := v.storage) ?_ ?_)
  · rw [hlookup, Option.bind_some, hv, Option.map_some]
  exact hright.after (writes_emitAll _) hr

theorem passes_assignElement {target : Label} {array index right : Expr}
    (htype : r.typeOf? target.id = some type) (harray : Passes t r scope array)
    (hindex : Passes t r scope index) (hright : Passes t r scope right) :
    Passes t r scope (.binary l .assign (.element target array (some index)) right) := by
  intro s₀ opened visited s hr
  have htarget : Covers t r (.element target array (some index)) [array, index] :=
    covers_children nofun rfl (by simp) (by simp)
  have hcovers : Covers t r (.binary l .assign (.element target array (some index)) right)
      [.element target array (some index), right] :=
    covers_children nofun rfl (by simp) (by simp)
  refine .node (hcovers.trans htarget) (.orFail htype ?_)
  exact (harray.seq (hindex.seq (.before (writes_emitAll _) (hright.after (writes_emit _))))) hr

/-- Only a comparison of arrays has no instruction. -/
theorem ends_operate {op : BinaryOp} {left right : Ty} {span : Span}
    (hop : t.Operates scope op left right type) (hr : Reached t s₀ opened visited s) :
    Ends (op = .equal ∧ (left.isArray = true ∨ right.isArray = true))
      (fun _ => Reached t s₀ opened visited)
      (Generate.operate ⟨t, r, scope⟩ op left right span s) := by
  rw [Generate.operate]
  by_cases hadd : op = .add ∧ (left = .string ∨ right = .string)
  · obtain ⟨rfl, hstring⟩ := hadd
    obtain ⟨o, ho⟩ : ∃ o, t.resolveCall? scope Host.concatName [left, right] = some o := by
      cases hop with
      | arithmetic => simp at hstring
      | comparison hmem => simp at hmem
      | logic hmem => simp at hmem
      | concat _ _ _ ho => exact ⟨_, ho⟩
    rw [if_pos ⟨rfl, hstring⟩]
    refine .orFail ho (((writes_emit _).ends hr).imp ?_ fun _ _ h => h)
    simp
  · rw [if_neg hadd]
    by_cases heq : op = .equal ∧ (left.isArray = true ∨ right.isArray = true)
    · rw [if_pos heq]
      exact .error heq
    · rw [if_neg heq]
      exact ((writes_emit _).ends hr).imp (iff_of_false id heq) fun _ _ h => h

theorem passes_operator {op : BinaryOp} {left right : Expr} {a b : Ty} (hassign : op ≠ .assign)
    (hleft : Passes t r scope left) (hright : Passes t r scope right)
    (hleftType : r.typeOf? left.id = some a) (hrightType : r.typeOf? right.id = some b)
    (hop : t.Operates scope op a b type) : Passes t r scope (.binary l op left right) := by
  intro s₀ opened visited s hr
  have hclash : Clashes r (.binary l op left right) ↔
      op = .equal ∧ (a.isArray = true ∨ b.isArray = true) := by
    constructor
    · rintro ⟨_, _, _, ⟨⟩, harray⟩
      rw [Resolution.type, hleftType, Resolution.type, hrightType] at harray
      exact ⟨rfl, harray⟩
    · rintro ⟨rfl, harray⟩
      refine ⟨l, left, right, rfl, ?_⟩
      rw [Resolution.type, hleftType, Resolution.type, hrightType]
      exact harray
  have hbad : Bad r [left] ∨ Bad r [right] ∨ op = .equal ∧ (a.isArray = true ∨ b.isArray = true) ↔
      Bad r [.binary l op left right] := by
    rw [← hclash, bad_node (e := .binary l op left right), ← or_assoc, or_comm, ← bad_append]
    rfl
  have hparts (id : Nat) (hid : Encloses t [.binary l op left right] id) :
      Encloses t [left, right] id :=
    encloses_of_still (r := r) rfl (by simp) hid
  rw [Generate.expr_operator _ _ hassign]
  refine Ends.imp ?_ hbad fun _ s (hr : Reached t s₀ opened (right :: left :: visited) s) =>
    hr.node hparts
  refine .bind (hleft hr) fun _ s hr => ?_
  refine .bind (hright hr) fun _ s hr => ?_
  exact .orFail hleftType (.orFail hrightType (ends_operate hop hr))

theorem passes_whileLoop {condition body : Expr} (hc : Passes t r scope condition)
    (hb : Passes t r scope body) (htype : r.typeOf? body.id = some type) :
    Passes t r scope (.whileLoop l condition body) := by
  intro s₀ opened visited s hr
  have hcovers : Covers t r (.whileLoop l condition body) ([body] ++ [condition]) :=
    covers_children nofun rfl (by simp) (by simp)
  rw [Generate.expr_whileLoop]
  exact .node hcovers (Visits.looping (.after hb (writes_dropValue htype)) hc hr)

theorem passes_repeatUntil {body condition : Expr} (hb : Passes t r scope body)
    (hc : Passes t r scope condition) (htype : r.typeOf? body.id = some type) :
    Passes t r scope (.repeatUntil l body condition) := by
  intro s₀ opened visited s hr
  have hcovers : Covers t r (.repeatUntil l body condition) ([body] ++ [condition]) :=
    covers_children nofun rfl (by simp) (by simp)
  rw [Generate.expr_repeatUntil]
  exact .node hcovers (Visits.repeating (.seq hb (.before (writes_dropValue htype) hc)) hr)

theorem passes_ifElse {condition branch other : Expr} (htype : r.typeOf? l.id = some type)
    (hc : Passes t r scope condition) (hb : Passes t r scope branch)
    (ho : Passes t r scope other) : Passes t r scope (.cond l condition branch (some other)) := by
  intro s₀ opened visited s hr
  have hcovers : Covers t r (.cond l condition branch (some other))
      ([condition] ++ ([branch] ++ [other])) :=
    covers_children nofun rfl (by simp) (by simp)
  exact .node hcovers (.orFail htype (Visits.branching hc hb ho hr))

theorem passes_ifThen {condition branch : Expr} (htype : r.typeOf? l.id = some type)
    (hc : Passes t r scope condition) (hb : Passes t r scope branch) :
    Passes t r scope (.cond l condition branch none) := by
  intro s₀ opened visited s hr
  have hcovers : Covers t r (.cond l condition branch none) ([condition] ++ [branch]) :=
    covers_children nofun rfl (by simp) (by simp)
  rw [Generate.expr_ifThen]
  refine .node hcovers (.orFail htype ?_)
  cases type.isEmpty with
  | true => exact Visits.skipping hc hb hr
  | false => exact Visits.branching hc hb (.of_writes (writes_emit _)) hr

theorem passes_forTo {lc : Label} {name : String} {d : Option Expr} {start bound body : Expr}
    {direction : Direction} {here : Position} {counterType : Ty}
    (hdeclared : Declared (.var lc name d)) (hscope : t.scopeOf? l.id = some here.scope)
    (hvar : t.HasVar here name counterType) (hs : Passes t r here.scope start)
    (ht : Passes t r here.scope bound) (hb : Passes t r here.scope body)
    (htype : r.typeOf? body.id = some type) :
    Passes t r scope (.forTo l (.var lc name d) start bound direction body) := by
  intro s₀ opened visited s hr
  have hcovers : Covers t r (.forTo l (.var lc name d) start bound direction body)
      ([start] ++ ([body] ++ [bound])) := by
    refine covers_children nofun rfl ?_ (by simp)
    simp [still_of_declared hdeclared]
  obtain ⟨id, v, hlookup, hv, -⟩ := hvar
  rw [Generate.expr_forTo]
  refine .node hcovers (.within hscope (.orFail (a := v.storage) ?_ ?_))
  · rw [hlookup, Option.bind_some, hv, Option.map_some]
  exact (hs.seq <| .before (writes_emit _) <| .looping
    (.after hb <| (writes_dropValue htype).bind fun _ => (writes_emit _).bind fun _ =>
      (writes_constant _).bind fun _ => (writes_emit _).bind fun _ => writes_emit _)
    (.before (writes_emit _) (.after ht (writes_emit _)))) hr

theorem passes_forIn {li : Label} {name : String} {d : Option Expr} {iterable body : Expr}
    {here : Position} {element : Ty} {function : Nat}
    (hkeys : (t.loopSlots.map Prod.fst).Nodup) (hloop : t.HasLoop function l.id)
    (hdeclared : Declared (.var li name d)) (hscope : t.scopeOf? l.id = some here.scope)
    (hitem : r.typeOf? li.id = some element) (hvar : t.HasVar here name element)
    (hi : Passes t r here.scope iterable) (hb : Passes t r here.scope body)
    (htype : r.typeOf? body.id = some type) :
    Passes t r scope (.forIn l (.var li name d) iterable body) := by
  intro s₀ opened visited s hr
  have hcovers : Covers t r (.forIn l (.var li name d) iterable body)
      ([iterable] ++ ([body] ++ [])) := by
    refine covers_children nofun rfl ?_ (by simp)
    simp [still_of_declared hdeclared]
  obtain ⟨slots, v, w, a, i, hslots, hv, hw, -⟩ := hloop
  obtain ⟨id, u, hlookup, hu, -⟩ := hvar
  rw [Generate.expr_forIn]
  refine .node hcovers (.within hscope ?_)
  refine .orFail (lookup_of_mem hkeys hslots) ?_
  refine .orFail (a := u.storage) ?_ ?_
  · rw [hlookup, Option.bind_some, hu, Option.map_some]
  refine .orFail hitem ?_
  refine .orFail (a := v.storage) (by rw [hv, Option.map_some]) ?_
  refine .orFail (a := w.storage) (by rw [hw, Option.map_some]) ?_
  exact (hi.seq <| .before (writes_emit _) <| .before (writes_constant _) <|
    .before (writes_emit _) <| .looping (.before (writes_emitAll _) <| .before (writes_emitAll _) <|
      .before (writes_emitAll _) <| .after hb <| (writes_dropValue htype).bind fun _ =>
        (writes_emit _).bind fun _ => (writes_constant _).bind fun _ => writes_emitAll _)
      (.of_writes (writes_emitAll _))) hr

theorem passes_paren {x : Expr} (hx : Passes t r scope x) : Passes t r scope (.paren l x) := by
  intro s₀ opened visited s hr
  have hcovers : Covers t r (.paren l x) [x] :=
    covers_children nofun rfl (by simp) (by simp)
  exact .node hcovers (hx hr)

theorem passes_element {array index : Expr} (htype : r.typeOf? l.id = some type)
    (harray : Passes t r scope array) (hindex : Passes t r scope index) :
    Passes t r scope (.element l array (some index)) := by
  intro s₀ opened visited s hr
  have hcovers : Covers t r (.element l array (some index)) ([array] ++ [index]) :=
    covers_children nofun rfl (by simp) (by simp)
  exact .node hcovers (.orFail htype (harray.seq (hindex.after
    ((writes_emitAll _).bind fun _ => writes_emit _)) hr))

theorem passes_ret {value : Option Expr} (hv : ∀ x ∈ value, Passes t r scope x)
    (htypes : ∀ x ∈ value, r.typeOf? x.id = some (r.type x)) : Passes t r scope (.ret l value) := by
  intro s₀ opened visited s hr
  have hcovers : Covers t r (.ret l value) value.toList :=
    covers_children nofun rfl (fun x hx => .inl hx) fun x hx => hx
  refine .node hcovers ?_
  cases value with
  | none => exact Visits.of_writes (writes_emit _) hr
  | some x =>
    exact (hv x rfl).after ((writes_typeOf (htypes x rfl)).bind fun _ => writes_emit _) hr

theorem visits_members (hes : ∀ x ∈ es, Passes t r scope x)
    (htypes : ∀ x ∈ es, r.typeOf? x.id = some (r.type x)) :
    Visits t r es (Generate.members ⟨t, r, scope⟩ es) := by
  induction es with
  | nil => exact .of_writes (writes_pure ())
  | cons e es ih =>
    obtain ⟨he, hes⟩ := List.forall_mem_cons.mp hes
    obtain ⟨htype, htypes⟩ := List.forall_mem_cons.mp htypes
    rw [Generate.members]
    cases es.isEmpty with
    | true => exact he.seq (ih hes htypes)
    | false => exact he.seq (.before (writes_dropValue htype) (ih hes htypes))

theorem visits_operands (hes : ∀ x ∈ es, Passes t r scope x) :
    Visits t r es (Generate.operands ⟨t, r, scope⟩ es) := by
  induction es with
  | nil => exact .of_writes (writes_pure ())
  | cons e es ih =>
    obtain ⟨he, hes⟩ := List.forall_mem_cons.mp hes
    exact he.seq (ih hes)

theorem ends_arguments (hes : ∀ x ∈ es, Passes t r scope x)
    (htypes : ∀ x ∈ es, r.typeOf? x.id = some (r.type x)) (hr : Reached t s₀ opened visited s) :
    Ends (Bad r es)
      (fun types s => types = es.map r.type ∧ Reached t s₀ opened (es.reverseAux visited) s)
      (Generate.arguments ⟨t, r, scope⟩ es s) := by
  induction es generalizing visited s with
  | nil => exact Ends.last (.ok id ⟨rfl, hr⟩)
  | cons e es ih =>
    obtain ⟨he, hes⟩ := List.forall_mem_cons.mp hes
    obtain ⟨htype, htypes⟩ := List.forall_mem_cons.mp htypes
    refine .visit he hr fun s hr => .orFail htype ?_
    refine ((ih hes htypes hr).bind fun types s hrest => ?_).imp (iff_of_eq (or_false _))
      fun _ _ h => h
    exact .ok id ⟨by rw [hrest.1, List.map_cons], hrest.2⟩

theorem visits_optional {o : Option Expr} (ho : ∀ x ∈ o, Passes t r scope x)
    (htypes : ∀ x ∈ o, r.typeOf? x.id = some (r.type x)) :
    Visits t r o.toList (Generate.optional ⟨t, r, scope⟩ o) := by
  cases o with
  | none => exact .of_writes (writes_pure ())
  | some x => exact (ho x rfl).after (writes_dropValue (htypes x rfl))

theorem passes_block {body : List Expr} (hscope : t.scopeOf? l.id = some inner)
    (hb : ∀ x ∈ body, Passes t r inner x)
    (htypes : ∀ x ∈ body, r.typeOf? x.id = some (r.type x)) :
    Passes t r scope (.block l body) := by
  intro s₀ opened visited s hr
  have hcovers : Covers t r (.block l body) body :=
    covers_children nofun rfl (fun x hx => .inl hx) fun x hx => hx
  exact .node hcovers (.within hscope (visits_members hb htypes hr))

theorem passes_array {elements : List Expr} (he : ∀ x ∈ elements, Passes t r scope x)
    (htype : r.typeOf? l.id = some (.array type)) : Passes t r scope (.array l elements) := by
  intro s₀ opened visited s hr
  have hcovers : Covers t r (.array l elements) elements :=
    covers_children nofun rfl (fun x hx => .inl hx) fun x hx => hx
  refine .node hcovers (((visits_operands he hr).bind fun _ s hr => ?_).imp
    (iff_of_eq (or_false _)) fun _ _ h => h)
  exact .orFail htype ((writes_emit _).ends hr)

theorem passes_call {name : String} {args : List Expr} {o : Overload}
    (ha : ∀ x ∈ args, Passes t r scope x) (htypes : ∀ x ∈ args, r.typeOf? x.id = some (r.type x))
    (ho : t.resolveCall? scope name (args.map r.type) = some o) :
    Passes t r scope (.call l name args) := by
  intro s₀ opened visited s hr
  have hcovers : Covers t r (.call l name args) args :=
    covers_children nofun rfl (fun x hx => .inl hx) fun x hx => hx
  refine .node hcovers (((ends_arguments ha htypes hr).bind fun types s hrest => ?_).imp
    (iff_of_eq (or_false _)) fun _ _ h => h)
  obtain ⟨rfl, hr⟩ := hrest
  exact .orFail ho ((writes_emit _).ends hr)

theorem passes_forLoop {init condition step : Option Expr} {body : Expr}
    (hscope : t.scopeOf? l.id = some inner) (hi : ∀ x ∈ init, Passes t r inner x)
    (hitypes : ∀ x ∈ init, r.typeOf? x.id = some (r.type x))
    (hc : ∀ x ∈ condition, Passes t r inner x) (hs : ∀ x ∈ step, Passes t r inner x)
    (hstypes : ∀ x ∈ step, r.typeOf? x.id = some (r.type x)) (hb : Passes t r inner body)
    (htype : r.typeOf? body.id = some type) :
    Passes t r scope (.forLoop l init condition step body) := by
  intro s₀ opened visited s hr
  have hcovers : Covers t r (.forLoop l init condition step body)
      (init.toList ++ (([body] ++ step.toList) ++ condition.toList)) := by
    refine covers_children nofun rfl ?_ ?_ <;> simp only [Expr.children] <;> grind
  have htest : Visits t r condition.toList (Generate.loopTest ⟨t, r, inner⟩ condition).2 := by
    cases condition with
    | none => exact .of_writes (writes_pure ())
    | some condition => exact hc condition rfl
  rw [Generate.expr_forLoop]
  refine .node hcovers (.within hscope ?_)
  exact (visits_optional hi hitypes).seq (.looping (.seq hb (.before (writes_dropValue htype)
    (visits_optional hs hstypes))) htest) hr

theorem leave_ok {outer : CodeBuilder} (h : s.builder.live = []) :
    Generate.leave outer s = .ok () { s with
      builder := outer
      finished := s.finished.setIfInBounds s.builder.function (some s.builder.code) } := by
  have hfinish : s.builder.finish = .ok s.builder.code := by
    rw [CodeBuilder.finish, h]
    rfl
  have hget : (get : Generate Generation) s = .ok s s := rfl
  rw [Generate.leave, EStateM.bind_ok hget, hfinish]
  rfl

theorem finished_set {id i : Nat} {code : Array Instr} {b : CodeBuilder} (h : Finished s i) :
    Finished { s with builder := b, finished := s.finished.setIfInBounds id (some code) } i := by
  obtain ⟨old, hold⟩ := h
  have hlt := (Array.getElem?_eq_some_iff.mp hold).1
  rw [Finished, Array.getElem?_setIfInBounds]
  by_cases hid : id = i
  · exact ⟨code, by rw [if_pos hid, if_pos (hid ▸ hlt)]⟩
  · exact ⟨old, by rw [if_neg hid, hold]⟩

/-- A body is walked over in a builder of its own, and leaves no marker there. -/
theorem ends_body {body : Expr} {result : Ty} {id : Nat} {outer : CodeBuilder}
    (hb : Passes t r inner body) (htype : r.typeOf? body.id = some type)
    (hstart : s.builder = { function := id }) :
    Ends (Bad r [body])
      (fun _ s' => s'.builder = outer ∧ s'.finished.size = s.finished.size ∧
        (∀ i, Finished s i → Finished s' i) ∧
        (∀ i, Encloses t [body] i → i < s.finished.size → Finished s' i) ∧
        (id < s.finished.size → Finished s' id))
      ((do
        Generate.expr ⟨t, r, inner⟩ body
        Generate.epilogue ⟨t, r, inner⟩ body result
        Generate.leave outer : Generate Unit) s) := by
  have hreached : Reached t s [] [] s := by
    refine .start ?_ ?_ <;> simp [inUse, hstart]
  refine .visit hb hreached fun s' hr => ?_
  refine .write (writes_epilogue htype) hr fun _ s' hr => Ends.last ?_
  have hlive : s'.builder.live = [] := by
    have hnames : s'.builder.live.map (·.id) = s.builder.live.map (·.id) ++ [] := hr.markers
    rw [hstart] at hnames
    simpa using hnames
  have hfunction : s'.builder.function = id := by rw [hr.function, hstart]
  rw [leave_ok hlive, hfunction]
  refine .ok (fun h => h) ⟨rfl, ?_, fun i hi => finished_set (hr.keeps i hi), ?_, ?_⟩
  · rw [Array.size_setIfInBounds, hr.size]
  · intro i hi hsize
    exact finished_set (hr.done i hi (hr.size ▸ hsize))
  · intro hsize
    refine ⟨s'.builder.code, ?_⟩
    rw [Array.getElem?_setIfInBounds, if_pos rfl, if_pos (hr.size ▸ hsize)]

theorem passes_function {name : String} {params : List Expr} {body : Expr} {id : Nat} {result : Ty}
    (hid : t.functionOf? l.id = some id) (hscope : t.scopeOf? l.id = some inner)
    (hreturns : t.Returns id result) (hparams : ∀ x ∈ params, Declared x)
    (hb : Passes t r inner body) (htype : r.typeOf? body.id = some type) :
    Passes t r scope (.function l name params body) := by
  intro s₀ opened visited s hr
  have hstill (x : Expr) (hx : x ∈ params ++ [body]) : x ∈ [body] ∨ Still r x := by
    rcases List.mem_append.mp hx with hx | hx
    · exact .inr (still_of_declared (hparams x hx))
    · exact .inl hx
  have hbad : Bad r [body] ↔ Bad r [.function l name params body] := by
    rw [bad_node (e := .function l name params body), Expr.children,
      bad_of_still hstill fun x hx => List.mem_append_right _ hx]
    refine (or_iff_right ?_).symm
    rintro ⟨_, _, _, ⟨⟩, _⟩
  obtain ⟨f, hf, hresult⟩ := hreturns
  refine .orFail hid (.orFail (a := result) ?_ (.within hscope ?_))
  · rw [hf, Option.bind_some, hresult]
  refine (ends_body (s := { s with builder := { function := id } }) hb htype rfl).imp hbad ?_
  rintro _ s' ⟨hbuilder, hsize, hkeeps, hbody, hself⟩
  have hsame : inUse s' = inUse s := by rw [inUse, hbuilder, inUse]
  exact {
    function := by rw [hbuilder, hr.function]
    markers := hsame.trans hr.markers
    fresh := by
      rw [hsame, hbuilder]
      exact hr.fresh
    nodup := hsame ▸ hr.nodup
    own := by
      rw [hbuilder]
      exact hr.own
    size := hsize.trans hr.size
    keeps := fun i hi => hkeeps i (hr.keeps i hi)
    done := by
      intro i hi hlt
      rw [hsize] at hlt
      obtain ⟨x, hx, y, hy, hyfun, hyid⟩ := hi
      rcases List.mem_cons.mp hx with rfl | hx
      · rcases Expr.mem_nodes.mp hy with rfl | ⟨x, hx, hyx⟩
        · -- the function that was just finished
          cases hid.symm.trans hyid
          exact hself hlt
        · rcases hstill x hx with hx | hstill
          · exact hbody i ⟨x, hx, y, hyx, hyfun, hyid⟩ hlt
          · cases (hstill y hyx).2.symm.trans hyfun
      · exact hkeeps i (hr.done i ⟨x, hx, y, hy, hyfun, hyid⟩ hlt) }

end Nodes

section Programs

variable {host : Host} {t : ScopeTree} {r : Resolution} {scope function : Nat} {e : Expr}

/-- Code can be laid out for every typed node in its place. -/
theorem passes (hkeys : (t.loopSlots.map Prod.fst).Nodup) (e : Expr) :
    ∀ ⦃here : Position⦄ ⦃type : Ty⦄ ⦃scope function : Nat⦄, Typed host t r here e type →
      t.Placed scope function e → Passes t r here.scope e := by
  induction e using Expr.nodes_induction with
  | step e hbelow =>
  intro here type scope function htyped hplaced
  have ih (hfun : e.isFunction = false) (hvar : e.isVariable = false) ⦃x : Expr⦄
      (hx : x ∈ e.children) ⦃here : Position⦄ ⦃type : Ty⦄ (htyped : Typed host t r here x type) :
      Passes t r here.scope x := by
    obtain ⟨inner, hparts⟩ := hplaced.child hfun hvar
    exact hbelow x hx x (Expr.mem_nodes_self x) htyped (hparts x hx)
  cases htyped with
  | constant => exact passes_constant _
  | var _ hvar => exact passes_var (hplaced.declared_var) hvar
  | @assign _ _ left right _ _ _ htarget hleft hright =>
    have hr := ih rfl rfl (by simp) hright
    obtain ⟨inner, hparts⟩ := hplaced.child rfl rfl
    have hplace := hparts left (by simp)
    cases hleft with
    | var _ hvar => exact passes_assignVar (hplace.declared_var) hvar hr
    | @element _ target array index _ htype _ harray hindex =>
      -- the target is not walked over itself, its parts are
      obtain ⟨inner, hparts⟩ := hplace.child rfl rfl
      have hpart {x : Expr} (hx : x ∈ [array, index]) {type : Ty}
          (htyped : Typed host t r here x type) : Passes t r here.scope x :=
        hbelow _ List.mem_cons_self x (Expr.mem_nodes_child hx (Expr.mem_nodes_self x)) htyped
          (hparts x hx)
      exact passes_assignElement htype (hpart (by simp) harray) (hpart (by simp) hindex) hr
    | _ => cases htarget
  | @operator _ _ op _ _ _ _ _ _ hleft hright hop =>
    have hassign : op ≠ .assign := by
      rintro rfl
      cases hop <;> contradiction
    exact passes_operator hassign (ih rfl rfl (by simp) hleft)
      (ih rfl rfl (by simp) hright) hleft.typeOf? hright.typeOf? hop
  | function _ hid hscope hbody hreturns =>
    cases hplaced with
    | declared h => obtain ⟨_, _, _, ⟨⟩, _⟩ := h
    | opening hopens => cases hopens
    | plain _ hfun => cases hfun
    | function _ _ hparams hplaced =>
      refine passes_function hid hscope hreturns hparams ?_ hbody.typeOf?
      exact hbelow _ (by simp) _ (Expr.mem_nodes_self _) hbody hplaced
  | block _ hscope hbody =>
    exact passes_block hscope (fun x hx => ih rfl rfl hx (hbody x hx))
      fun x hx => (hbody x hx).typeOf?
  | ifThen htype hc hb =>
    exact passes_ifThen htype (ih rfl rfl (by simp) hc)
      (ih rfl rfl (by simp) hb)
  | ifElse htype hc hb ho =>
    exact passes_ifElse htype (ih rfl rfl (by simp) hc)
      (ih rfl rfl (by simp) hb) (ih rfl rfl (by simp) ho)
  | forLoop _ hscope hi hc hs hb =>
    exact passes_forLoop hscope
      (fun x hx => ih rfl rfl (by simp [Option.mem_def.mp hx]) (hi x hx))
      (fun x hx => (hi x hx).typeOf?)
      (fun x hx => ih rfl rfl (by simp [Option.mem_def.mp hx]) (hc x hx))
      (fun x hx => ih rfl rfl (by simp [Option.mem_def.mp hx]) (hs x hx))
      (fun x hx => (hs x hx).typeOf?) (ih rfl rfl (by simp) hb) hb.typeOf?
  | forTo _ hscope hvar hs ht hb =>
    obtain ⟨inner, hparts⟩ := hplaced.child rfl rfl
    exact passes_forTo (hparts _ List.mem_cons_self).declared_var hscope hvar
      (ih rfl rfl (by simp) hs) (ih rfl rfl (by simp) ht)
      (ih rfl rfl (by simp) hb) hb.typeOf?
  | forIn _ hscope _ hitem hvar hi hb =>
    obtain ⟨inner, hparts⟩ := hplaced.child rfl rfl
    exact passes_forIn hkeys hplaced.loop (hparts _ List.mem_cons_self).declared_var hscope hitem
      hvar (ih rfl rfl (by simp) hi) (ih rfl rfl (by simp) hb)
      hb.typeOf?
  | whileLoop _ hc hb =>
    exact passes_whileLoop (ih rfl rfl (by simp) hc)
      (ih rfl rfl (by simp) hb) hb.typeOf?
  | repeatUntil _ hb hc =>
    exact passes_repeatUntil (ih rfl rfl (by simp) hb)
      (ih rfl rfl (by simp) hc) hb.typeOf?
  | call _ ha ho =>
    exact passes_call (fun x hx => ih rfl rfl hx (ha x hx)) (fun x hx => (ha x hx).typeOf?) ho
  | ret _ _ hv =>
    exact passes_ret (fun x hx => ih rfl rfl (by simpa using hx) (hv x hx))
      fun x hx => (hv x hx).typeOf?
  | paren _ hx => exact passes_paren (ih rfl rfl (by simp) hx)
  | element htype _ harray hindex =>
    exact passes_element htype (ih rfl rfl (by simp) harray)
      (ih rfl rfl (by simp) hindex)
  | array htype _ he => exact passes_array (fun x hx => ih rfl rfl hx (he x hx)) htype

/-- Every function has its code when all nodes were visited. -/
theorem collect_ok {span : Span} {codes : List (Option (Array Instr))} (id : Nat)
    (h : ∀ code ∈ codes, code ≠ none) :
    ∃ functions, Generate.collect span id codes = .ok functions := by
  induction codes generalizing id with
  | nil => exact ⟨[], rfl⟩
  | cons code codes ih =>
    obtain ⟨hcode, hcodes⟩ := List.forall_mem_cons.mp h
    cases code with
    | none => exact absurd rfl hcode
    | some code =>
      obtain ⟨rest, hrest⟩ := ih (id + 1) hcodes
      exact ⟨code :: rest, by rw [Generate.collect, hrest]; rfl⟩

/-- The walk over a typed program, with all functions of its tree finished at the end. -/
theorem ends_program {p : Program} (hbuilt : Built host p t) {type : Ty}
    (htyped : Typed host t r ⟨t.program, ScopeTree.main⟩ p.body type) :
    Ends (Bad r [p.body])
      (fun _ s => s.finished.size = t.functions.size ∧ ∀ i, i < t.functions.size → Finished s i)
      (Generate.program ⟨t, r, t.program⟩ p
        { builder := { function := ScopeTree.main }
          finished := Array.replicate t.functions.size none }) := by
  have hbody := passes hbuilt.loopKeys p.body htyped hbuilt.placed
  refine (ends_body hbody htyped.typeOf? rfl).imp Iff.rfl ?_
  rintro _ s ⟨-, hsize, -, hdone, hmain⟩
  rw [Array.size_replicate] at hsize hdone hmain
  refine ⟨hsize, fun i hi => ?_⟩
  by_cases hi' : i = ScopeTree.main
  · subst hi'
    exact hmain hi
  · obtain ⟨node, hnode⟩ := hbuilt.covered i hi' hi
    obtain ⟨y, hy, hfun, hid⟩ := hbuilt.declared _ hnode
    refine hdone i ⟨p.body, List.mem_singleton_self _, y, hy, hfun, ?_⟩ hi
    rw [hid]
    exact lookup_of_mem hbuilt.functionKeys hnode

/-- The recorded type of an operand of a comparison is that of an array. -/
def ComparesArray (r : Resolution) (e : Expr) : Prop :=
  ∃ l left right element, .binary l .equal left right ∈ e.nodes ∧
    (r.typeOf? left.id = some (.array element) ∨ r.typeOf? right.id = some (.array element))

theorem type_isArray :
    (r.type e).isArray = true ↔ ∃ element, r.typeOf? e.id = some (.array element) := by
  rw [Resolution.type]
  cases r.typeOf? e.id with
  | none => simp [Ty.isArray]
  | some type => cases type <;> simp [Ty.isArray]

theorem bad_iff : Bad r [e] ↔ ComparesArray r e := by
  constructor
  · rintro ⟨x, hx, y, hy, l, left, right, rfl, harray⟩
    cases List.mem_singleton.mp hx
    rcases harray with harray | harray
    · obtain ⟨element, htype⟩ := type_isArray.mp harray
      exact ⟨l, left, right, element, hy, .inl htype⟩
    · obtain ⟨element, htype⟩ := type_isArray.mp harray
      exact ⟨l, left, right, element, hy, .inr htype⟩
  · rintro ⟨l, left, right, element, hy, htype⟩
    refine ⟨e, List.mem_singleton_self e, _, hy, l, left, right, rfl, ?_⟩
    exact htype.imp (fun h => type_isArray.mpr ⟨element, h⟩) fun h => type_isArray.mpr ⟨element, h⟩

/-- Of a typed program in its tree, code generation refuses a comparison of arrays, and nothing
else. -/
theorem generate_typed {p : Program} (hbuilt : Built host p t) {type : Ty}
    (htyped : Typed host t r ⟨t.program, ScopeTree.main⟩ p.body type) :
    (∃ g, t.generate p r = .ok g) ∧ ¬ Bad r [p.body] ∨
    (∃ left right span, t.generate p r = .error ⟨.code (.arrayEquality left right), span⟩) ∧
      Bad r [p.body] := by
  have hends := ends_program hbuilt htyped
  rw [ScopeTree.generate]
  generalize Generate.program _ p _ = res at hends ⊢
  cases hends with
  | error hbad => exact .inr ⟨⟨_, _, _, rfl⟩, hbad⟩
  | @ok _ s hbad hpost =>
    obtain ⟨hsize, hfinished⟩ := hpost
    obtain ⟨functions, hcollect⟩ : ∃ functions,
        Generate.collect p.body.span 0 s.finished.toList = .ok functions := by
      refine collect_ok 0 fun code hcode => ?_
      obtain ⟨i, hi, rfl⟩ := List.getElem_of_mem hcode
      rw [Array.length_toList] at hi
      obtain ⟨body, hbody⟩ := hfinished i (hsize ▸ hi)
      rw [Array.getElem?_eq_getElem hi] at hbody
      rw [Array.getElem_toList, Option.some.inj hbody]
      exact Option.some_ne_none body
    refine .inl ⟨⟨⟨functions.toArray, s.pool⟩, ?_⟩, hbad⟩
    dsimp only
    rw [hcollect]
    rfl

end Programs

/-- The passes agree: if the scopes of a program can be built and its types resolved, the only
thing that can keep it from having code is a comparison with an array. -/
theorem generate_eq_error_iff (body : Expr) (host : Host) (cancelled : Cancellation) {r : Resolution}
    {t : ScopeTree} (hbuild : (build (.ofExpr body) host).problems = [])
    (hresolve : (build (.ofExpr body) host).tree.resolve (.ofExpr body) host cancelled =
      (.ok r, t)) :
    ((∃ d, t.generate (.ofExpr body) r = .error d) ↔ ComparesArray r (Program.ofExpr body).body) ∧
    ∀ d, t.generate (.ofExpr body) r = .error d →
      ∃ left right, d.problem = .code (.arrayEquality left right) := by
  have hn := Expr.renumber_numbered body 0
  obtain ⟨-, hbuilt, htyped⟩ := resolve_eq_ok (build_clean hn hbuild) hn hresolve
  rw [← bad_iff]
  rcases generate_typed hbuilt htyped with ⟨⟨g, hg⟩, hbad⟩ | ⟨⟨left, right, span, hg⟩, hbad⟩
  · rw [hg]
    refine ⟨⟨?_, fun h => absurd h hbad⟩, ?_⟩
    · rintro ⟨d, hd⟩
      cases hd
    · intro d hd
      cases hd
  · rw [hg]
    refine ⟨⟨fun _ => hbad, fun _ => ⟨_, rfl⟩⟩, ?_⟩
    rintro d ⟨⟩
    exact ⟨left, right, rfl⟩

/-- A function with a loop whose end is a comparison with an array. -/
def waiting : Expr :=
  .function {} "wait" [] (.repeatUntil {} (.constant {} (.boolean true))
    (.binary {} .equal (.array {} [.constant {} (.boolean true)]) (.constant {} (.boolean true))))

theorem generate_eq_error_iff_waiting :
    ∃ r t d, (build (.ofExpr waiting) .empty).problems = [] ∧
      (build (.ofExpr waiting) .empty).tree.resolve (.ofExpr waiting) .empty false = (.ok r, t) ∧
      t.generate (.ofExpr waiting) r = .error d ∧
      ∃ left right, d.problem = .code (.arrayEquality left right) := by
  have hbuild : (build (.ofExpr waiting) .empty).problems = [] := by decide +kernel
  have htypes : ((build (.ofExpr waiting) .empty).tree.resolve (.ofExpr waiting) .empty
      false).1.toOption.bind (·.typeOf? 4) = some (.array .boolean) := by decide +kernel
  generalize hresolve : ScopeTree.resolve _ _ _ _ = resolved at htypes ⊢
  obtain ⟨_ | r, t⟩ := resolved
  case error => cases htypes
  obtain ⟨hiff, honly⟩ := generate_eq_error_iff waiting .empty false hbuild hresolve
  have hcompares : ComparesArray r (Program.ofExpr waiting).body :=
    ⟨⟨3, {}⟩, .array ⟨4, {}⟩ [.constant ⟨5, {}⟩ (.boolean true)], .constant ⟨6, {}⟩ (.boolean true),
      .boolean, List.mem_of_getElem? (i := 3) rfl, .inl htypes⟩
  obtain ⟨d, hd⟩ := hiff.mpr hcompares
  exact ⟨r, t, d, hbuild, rfl, hd, honly d hd⟩

end TurtleScript.Code

import TurtleScript.Proofs.Semantics.Contracts
import TurtleScript.Proofs.Typing.Bodies

/-!
# Typed programs do not get stuck

If the natives of the host do what their signatures say, the evaluation of a typed node keeps to
the types: by induction over the tree for the nodes of a body, by induction on the fuel for calls,
and so for the program. Two things are left to the program, since the rules do not ask for them:
its names are such that a program may declare, and it compares values only.
-/
namespace TurtleScript

/-- Operands have values, unless they are compared. -/
theorem ScopeTree.Operates.operands_ne_empty {t : ScopeTree} {scope : Nat} {op : BinaryOp}
    {a b type : Ty} (h : t.Operates scope op a b type)
    (hequal : op = .equal → a ≠ .empty ∧ b ≠ .empty) : a ≠ .empty ∧ b ≠ .empty := by
  cases h with
  | equal => exact hequal rfl
  | concat _ hleft hright =>
    exact ⟨by rcases hleft with rfl | rfl <;> simp, by rcases hright with rfl | rfl <;> simp⟩
  | _ => simp

namespace ScopeTree.Wf

variable {host : Host} {t : ScopeTree} {o : Overload}

/-- Parameters have values. -/
theorem params_ne_empty (h : Wf host t) (hregular : host.Regular) (ho : t.Declares o) :
    ∀ type ∈ o.params, type ≠ .empty := by
  intro type hmem hempty
  have hknown := h.overloads o ho
  cases hcallee : o.callee with
  | native index =>
    rw [Known, hcallee] at hknown
    obtain ⟨n, hn, -, hparams⟩ := hknown
    exact hregular.params n (List.mem_of_getElem? hn) (hparams ▸ hempty ▸ hmem)
  | script id =>
    rw [Known, hcallee] at hknown
    obtain ⟨-, -, -, f, hf, -, hparams⟩ := hknown
    obtain ⟨n, hn⟩ := List.mem_iff_getElem?.mp hmem
    obtain ⟨slot, v, hslot, hv, htype, -⟩ := hparams n type hn
    obtain ⟨v', hv', hplace⟩ := h.slots id f hf n slot hslot
    cases hv.symm.trans hv'
    obtain ⟨m, hglobal⟩ := h.valued _ v hv (hempty ▸ htype)
    cases hplace.symm.trans hglobal

/-- A sum of strings is a call of the host. -/
theorem concat_yields {scope : Nat} {types : List Ty} (h : Wf host t) (hregular : host.Regular)
    (ho : t.resolveCall? scope Host.concatName types = some o) :
    Yields host t o.callee .string := by
  obtain ⟨hdeclares, -, hname⟩ := resolveCall?_eq_some ho
  have hknown := h.overloads o hdeclares
  cases hcallee : o.callee with
  | native index =>
    rw [Known, hcallee] at hknown
    obtain ⟨n, hn, hnname, -⟩ := hknown
    exact ⟨n, hn, hregular.concat n (List.mem_of_getElem? hn) (hnname ▸ hname)⟩
  | script id =>
    rw [Known, hcallee] at hknown
    obtain ⟨-, hid, -⟩ := hknown
    exact absurd (reserved_of_foldName hname.symm rfl) (not_reserved hid)

end ScopeTree.Wf

namespace Semantics

open ScopeTree

variable {σ : Type}

/-- What an evaluation relies on. -/
structure Reliable (host : Host) (own : Holdings σ) (w : World σ) : Prop where
  wf : Wf host w.tree
  regular : host.Regular
  natives : host.Respected own w.natives
  names : ∀ (l : Label) (name : String) (d : Option Expr), .var l name d ∈ w.body.nodes →
    Text.isIdentifier name = true
  comparable : ∀ (l : Label) (left right : Expr), .binary l .equal left right ∈ w.body.nodes →
    ∀ x ∈ [left, right], ∀ type, w.typeOf? x = some type → type ≠ .empty ∧ type.isArray = false
  bodies : ∀ p ∈ w.tree.nodeFunctions, ∃ l body scope result type,
    w.declaration? p.2 = some (l, body) ∧ w.tree.scopeOf? l.id = some scope ∧
      IsBody host w.tree w.resolution p.2 scope result type body

/-- The contract of an activation of a function. -/
def World.contract (w : World σ) (host : Host) (own : Holdings σ) (f : FunctionRecord)
    (result : Ty) : Contract σ :=
  ⟨host.globals.map (·.type), w.slotTypes f, result, own⟩

/-- The contract is that of a function. -/
def World.Binds (w : World σ) (host : Host) (own : Holdings σ) (function : Nat)
    (k : Contract σ) : Prop :=
  ∃ f, w.tree.functions[function]? = some f ∧ f.returnType = some k.result ∧
    k = w.contract host own f k.result

/-- Calls keep to the types of the functions they call. -/
def Delivers (host : Host) (own : Holdings σ) (w : World σ) (invoke : Invoke σ) : Prop :=
  ∀ (k : Contract σ) (shapes : Shapes) (p : Nat × Nat) (f : FunctionRecord) (result : Ty)
    (args : List Value), k.globals = host.globals.map (·.type) → k.holdings = own →
    p ∈ w.tree.nodeFunctions →
    w.tree.functions[p.2]? = some f → f.returnType = some result → args.length = f.paramCount →
    Holds shapes args.toArray ((w.slotTypes f).take f.paramCount) →
      Sound k shapes (invoke p.2 args) fun shapes' v => Gives shapes' v result

section Names

variable {host : Host} {own : Holdings σ} {w : World σ} {here : Position} {k : Contract σ}
  {name : String} {type : Ty}

theorem slotTypes_getElem? {f : FunctionRecord} {slot : Slot} {v : Variable} {n : Nat}
    (hslot : f.slots[n]? = some slot) (hv : w.tree.vars[slot.var]? = some v)
    (htype : v.type = some type) : (w.slotTypes f)[n]? = some type := by
  simp [World.slotTypes, hslot, hv, htype]

/-- The place of a name is one of its type. -/
theorem Reliable.place (hw : Reliable host own w) (hk : w.Binds host own here.function k)
    (hname : Text.isIdentifier name = true) (h : w.tree.HasVar here name type) :
    ∃ place, w.place? here name = some place ∧ k.typeAt? here.function place = some type ∧
      type ≠ .empty := by
  obtain ⟨id, v, hid, hv, htype, howner, -⟩ := h
  obtain ⟨f, hf, -, hk⟩ := hk
  refine ⟨v.storage, by simp [World.place?, hid, hv], ?_⟩
  cases hplace : v.storage with
  | slot function n =>
    obtain rfl := howner function n hplace
    obtain ⟨f', slot, hf', hslot, rfl⟩ := hw.wf.slot_of hv hplace
    cases hf.symm.trans hf'
    refine ⟨?_, ?_⟩
    · rw [Contract.typeAt?, if_pos rfl, hk]
      exact slotTypes_getElem? hslot hv (htype hname)
    · rintro rfl
      obtain ⟨m, hglobal⟩ := hw.wf.valued _ v hv (htype hname)
      cases hplace.symm.trans hglobal
  | global n =>
    obtain ⟨g, hg, hgtype⟩ := hw.wf.global_of hv hplace
    obtain rfl : type = g.type := Option.some.inj ((htype hname).symm.trans hgtype)
    refine ⟨?_, hw.regular.globals g (List.mem_of_getElem? hg)⟩
    rw [Contract.typeAt?, hk, World.contract, List.getElem?_map, hg]
    rfl

end Names

section Calls

variable {host : Host} {own : Holdings σ} {w : World σ} {invoke : Invoke σ} {here : Position}
  {k : Contract σ} {shapes : Shapes} {type : Ty}

/-- The parameters of a function of the program are its first slots. -/
theorem take_slotTypes {f : FunctionRecord} {params : List Ty}
    (hcount : f.paramCount = params.length)
    (hparams : ∀ (n : Nat) (type : Ty), params[n]? = some type → ∃ slot v,
      f.slots[n]? = some slot ∧ w.tree.vars[slot.var]? = some v ∧ v.type = some type ∧
        Text.isIdentifier v.name = true) :
    (w.slotTypes f).take f.paramCount = params := by
  refine List.ext_getElem? fun n => ?_
  rw [hcount, List.getElem?_take]
  by_cases hn : n < params.length
  · have htype := List.getElem?_eq_getElem hn
    obtain ⟨slot, v, hslot, hv, hvtype, -⟩ := hparams n _ htype
    rw [if_pos hn, slotTypes_getElem? hslot hv hvtype, htype]
  · rw [if_neg hn, List.getElem?_eq_none (Nat.le_of_not_lt hn)]

/-- A call of what an overload stands for. -/
theorem apply_sound {o : Overload} {args : List Value} (hw : Reliable host own w)
    (hinvoke : Delivers host own w invoke) (hk : w.Binds host own here.function k)
    (ho : w.tree.Declares o)
    (hyields : ScopeTree.Yields host w.tree o.callee type) (hlen : args.length = o.params.length)
    (hargs : Holds shapes args.toArray o.params) :
    Sound k shapes (w.apply invoke o.callee args) fun shapes' v => Gives shapes' v type := by
  have hknown := hw.wf.overloads o ho
  obtain ⟨_, -, -, hk⟩ := hk
  have hglobals : k.globals = host.globals.map (·.type) := by rw [hk, World.contract]
  have hholdings : k.holdings = own := by rw [hk, World.contract]
  cases hcallee : o.callee with
  | native index =>
    rw [Known, hcallee] at hknown
    rw [hcallee] at hyields
    obtain ⟨n, hn, -, hparams⟩ := hknown
    obtain ⟨n', hn', rfl⟩ := hyields
    cases hn.symm.trans hn'
    obtain ⟨f, hf, hrespects⟩ := hw.natives index n hn
    exact Sound.need hf (.native (hholdings ▸ hrespects) (hparams ▸ hlen) (hparams ▸ hargs))
  | script id =>
    rw [Known, hcallee] at hknown
    rw [hcallee] at hyields
    obtain ⟨-, -, ⟨node, hnode⟩, f, hf, hcount, hparams⟩ := hknown
    obtain ⟨f', hf', hresult⟩ := hyields
    cases hf.symm.trans hf'
    refine hinvoke k shapes (node, id) f type args hglobals hholdings hnode hf hresult
      (hlen.trans hcount.symm) ?_
    rw [take_slotTypes hcount hparams]
    exact hargs

theorem computed_sound {o : Option Value} {v : Value} (ho : o = some v)
    (hv : HasType shapes v type) : Sound k shapes (some <$> Eval.need o : Eval σ (Option Value))
      fun shapes' v => Gives shapes' v type := by
  subst ho
  exact .map (.pure (.value hv))

/-- The values of operators are of the types that the rules give. -/
theorem operate_hasType {scope : Nat} {op : BinaryOp} {left right : Ty} {a b : Value}
    (hop : w.tree.Operates scope op left right type)
    (hconcat : ¬ (op = .add ∧ (left = .string ∨ right = .string)))
    (hequal : op = .equal → left.isArray = false ∧ right.isArray = false)
    (ha : HasType shapes a left) (hb : HasType shapes b right) :
    ∃ v, operate op a b = some v ∧ HasType shapes v type := by
  cases hop with
  | arithmetic hmem =>
    obtain ⟨x, rfl⟩ := ha.double
    obtain ⟨y, rfl⟩ := hb.double
    simp only [List.mem_cons, List.not_mem_nil, or_false] at hmem
    rcases hmem with rfl | rfl | rfl | rfl | rfl <;> exact ⟨_, rfl, .scalar rfl rfl⟩
  | comparison hmem =>
    obtain ⟨x, rfl⟩ := ha.double
    obtain ⟨y, rfl⟩ := hb.double
    simp only [List.mem_cons, List.not_mem_nil, or_false] at hmem
    rcases hmem with rfl | rfl | rfl | rfl <;> exact ⟨_, rfl, .scalar rfl rfl⟩
  | logic hmem =>
    obtain ⟨x, rfl⟩ := ha.boolean
    obtain ⟨y, rfl⟩ := hb.boolean
    simp only [List.mem_cons, List.not_mem_nil, or_false] at hmem
    rcases hmem with rfl | rfl <;> exact ⟨_, rfl, .scalar rfl rfl⟩
  | equal =>
    obtain ⟨hleft, hright⟩ := hequal rfl
    exact ⟨_, if_pos ⟨ha.isScalar hleft, hb.isScalar hright⟩, .scalar rfl rfl⟩
  | concat hstring => exact absurd ⟨rfl, hstring⟩ hconcat

theorem operator_sound {op : BinaryOp} {left right : Ty} {a b : Value} (hw : Reliable host own w)
    (hinvoke : Delivers host own w invoke) (hk : w.Binds host own here.function k)
    (hop : w.tree.Operates here.scope op left right type)
    (hequal : op = .equal → left.isArray = false ∧ right.isArray = false)
    (ha : HasType shapes a left) (hb : HasType shapes b right) :
    Sound k shapes (w.operator invoke here op left right a b)
      fun shapes' v => Gives shapes' v type := by
  rw [World.operator]
  refine .ite (fun ⟨hadd, hstring⟩ => ?_) fun hconcat => .ite (fun ⟨hop, harray⟩ => ?_) fun _ => ?_
  · cases hop with
    | concat _ _ _ ho =>
      obtain ⟨hdeclares, hparams, -⟩ := resolveCall?_eq_some ho
      have hyields := hw.wf.concat_yields hw.regular ho
      refine .need ho (apply_sound hw hinvoke hk hdeclares hyields ?_ ?_)
      · rw [hparams]
        rfl
      · rw [hparams]
        exact .cons ha (.cons hb .nil)
    | arithmetic => simp at hstring
    | comparison => simp at hstring
    | logic => simp at hstring
    | equal => cases hadd
  · obtain ⟨hleft, hright⟩ := hequal hop
    simp [hleft, hright] at harray
  · obtain ⟨v, hv, htype⟩ := operate_hasType hop hconcat hequal ha hb
    exact computed_sound hv htype

end Calls

section Nodes

variable (host : Host) (own : Holdings σ) (w : World σ) (fuel : Nat) (invoke : Invoke σ)

/-- Wherever `e` stands and has a type, its evaluation keeps to it. -/
def Respects (e : Expr) : Prop :=
  ∀ ⦃here : Position⦄ ⦃k : Contract σ⦄ ⦃shapes : Shapes⦄ ⦃type : Ty⦄,
    Typed host w.tree w.resolution here e type → w.Binds host own here.function k →
    Sound k shapes (w.eval fuel invoke here e) fun shapes' v => Gives shapes' v type

variable {host own w fuel invoke} {here : Position} {k : Contract σ} {shapes : Shapes} {type : Ty}
  {l : Label}

theorem within?_eq_some {e : Expr} {scope : Nat} (h : w.tree.scopeOf? e.id = some scope) :
    w.within? here e = some ⟨scope, here.function⟩ := by
  rw [World.within?, h]
  rfl

theorem hasType_literal (value : Literal) : HasType shapes (literal value) value.type := by
  cases value <;> exact .scalar rfl rfl

theorem constant_respects (value : Literal) :
    Respects host own w fuel invoke (.constant l value) := by
  intro here k shapes type htyped hk
  cases htyped with
  | constant => exact .pure (.value (hasType_literal value))

theorem var_respects {name : String} {d : Option Expr} (hw : Reliable host own w)
    (hname : Text.isIdentifier name = true) : Respects host own w fuel invoke (.var l name d) := by
  intro here k shapes type htyped hk
  cases htyped with
  | var _ hvar =>
    obtain ⟨place, hplace, htype, hne⟩ := hw.place hk hname hvar
    exact .need hplace (.map ((Sound.read htype hne).imp fun _ _ _ hv => .value hv))

theorem ne_empty_of_accepts {target source : Ty} (h : target.accepts source = true)
    (hne : target ≠ .empty) : source ≠ .empty := by
  rintro rfl
  rw [Ty.accepts, Bool.or_eq_true, Bool.and_eq_true, decide_eq_true_eq, decide_eq_true_eq] at h
  rcases h with rfl | ⟨-, ⟨⟩⟩
  exact hne rfl

theorem assignVar_respects {target : Label} {name : String} {d : Option Expr} {right : Expr}
    (hw : Reliable host own w) (hname : Text.isIdentifier name = true)
    (hr : Respects host own w fuel invoke right) :
    Respects host own w fuel invoke (.binary l .assign (.var target name d) right) := by
  intro here k shapes type htyped hk
  cases htyped with
  | operator _ _ _ hop => exact absurd rfl hop.ne_assign
  | assign _ _ hleft hright haccepts =>
    cases hleft with
    | var _ hvar =>
      obtain ⟨place, hplace, htype, hne⟩ := hw.place hk hname hvar
      rw [World.eval, if_pos rfl]
      refine .need hplace ((hr hright hk).bind fun _ v _ hv => ?_)
      refine .value hv (ne_empty_of_accepts haccepts hne) fun x hx => ?_
      have hx := hx.accepts haccepts
      exact (Sound.write htype hx).bind fun _ _ hle _ => .pure (.value (hx.mono hle))

theorem assignElement_respects {target : Label} {array index right : Expr}
    (ha : Respects host own w fuel invoke array) (hi : Respects host own w fuel invoke index)
    (hr : Respects host own w fuel invoke right) :
    Respects host own w fuel invoke (.binary l .assign (.element target array (some index)) right) := by
  intro here k shapes type htyped hk
  cases htyped with
  | operator _ _ _ hop => exact absurd rfl hop.ne_assign
  | assign _ _ hleft hright haccepts =>
    cases hleft with
    | element htype hne harray hindex =>
      rw [World.eval, if_pos rfl]
      refine .need htype ((ha harray hk).bind fun _ v hle₁ hv => .ref hv fun cell hcell => ?_)
      refine (hi hindex hk).bind fun _ v hle₂ hv => .number hv fun position => ?_
      refine (hr hright hk).bind fun _ v hle₃ hv => ?_
      refine .value hv (ne_empty_of_accepts haccepts hne) fun x hx => ?_
      have hx := hx.accepts haccepts
      refine (Sound.writeElement (hcell.mono (hle₂.trans hle₃)) hx).bind fun _ _ hle _ => ?_
      exact .pure (.value (hx.mono hle))

theorem not_target {left right : Expr} (h : left.isTarget = false) :
    Respects host own w fuel invoke (.binary l .assign left right) := by
  intro here k shapes type htyped hk
  cases htyped with
  | operator _ _ _ hop => exact absurd rfl hop.ne_assign
  | assign _ htarget => cases h.symm.trans htarget

theorem operator_respects {op : BinaryOp} {left right : Expr} (hw : Reliable host own w)
    (hinvoke : Delivers host own w invoke) (hop : op ≠ .assign)
    (hmem : .binary l op left right ∈ w.body.nodes) (hl : Respects host own w fuel invoke left)
    (hr : Respects host own w fuel invoke right) :
    Respects host own w fuel invoke (.binary l op left right) := by
  intro here k shapes type htyped hk
  cases htyped with
  | assign => exact absurd rfl hop
  | operator _ hleft hright hoperates =>
    have hcomparable (hequal : op = .equal) := hw.comparable l left right (hequal ▸ hmem)
    have hleft' (hequal : op = .equal) := hcomparable hequal left (by simp) _ hleft.typeOf?
    have hright' (hequal : op = .equal) := hcomparable hequal right (by simp) _ hright.typeOf?
    have hvalues := hoperates.operands_ne_empty fun hequal => ⟨(hleft' hequal).1, (hright' hequal).1⟩
    rw [World.eval_operator hop]
    refine (hl hleft hk).bind fun _ v _ hv => .value hv hvalues.1 fun a ha => ?_
    refine (hr hright hk).bind fun _ v hle hv => .value hv hvalues.2 fun b hb => ?_
    refine .need hleft.typeOf? (.need hright.typeOf? ?_)
    exact operator_sound hw hinvoke hk hoperates
      (fun hequal => ⟨(hleft' hequal).2, (hright' hequal).2⟩) (ha.mono hle) hb

theorem function_respects {name : String} {params : List Expr} {body : Expr} :
    Respects host own w fuel invoke (.function l name params body) := by
  intro here k shapes type htyped hk
  cases htyped with
  | function => exact .pure .nothing

theorem members_sound {es : List Expr} (hes : ∀ x ∈ es, Respects host own w fuel invoke x)
    (htyped : ∀ x ∈ es, Typed host w.tree w.resolution here x (w.resolution.type x))
    (hk : w.Binds host own here.function k) :
    Sound k shapes (w.evalMembers fuel invoke here es) fun shapes' v =>
      Gives shapes' v ((es.getLast?.map w.resolution.type).getD .empty) := by
  induction es generalizing shapes with
  | nil => exact .pure .nothing
  | cons e es ih =>
    obtain ⟨he, hes⟩ := List.forall_mem_cons.mp hes
    obtain ⟨hte, htes⟩ := List.forall_mem_cons.mp htyped
    rw [World.evalMembers]
    refine (he hte hk).bind fun _ v _ hv => ?_
    cases es with
    | nil => exact .pure hv
    | cons x xs =>
      refine (Sound.settle hte.typeOf? hv).bind fun _ _ _ _ => ?_
      rw [List.getLast?_cons_cons]
      exact ih hes htes

theorem block_respects {body : List Expr} (hb : ∀ x ∈ body, Respects host own w fuel invoke x) :
    Respects host own w fuel invoke (.block l body) := by
  intro here k shapes type htyped hk
  cases htyped with
  | block _ hscope hbody =>
    rw [World.eval]
    exact .need (within?_eq_some hscope) (members_sound hb hbody hk)

theorem cond_respects {condition branch : Expr} {other : Option Expr}
    (hc : Respects host own w fuel invoke condition) (hb : Respects host own w fuel invoke branch)
    (ho : ∀ x ∈ other, Respects host own w fuel invoke x) :
    Respects host own w fuel invoke (.cond l condition branch other) := by
  intro here k shapes type htyped hk
  cases htyped with
  | ifThen htype hcondition hbranch =>
    rw [World.eval]
    refine .need htype ((hc hcondition hk).bind fun _ v _ hv => .truth hv fun b => ?_)
    refine .ite (fun _ => hb hbranch hk) fun _ => .ite (fun hempty => ?_) fun hempty => ?_
    · obtain rfl : type = .empty := by simpa [Ty.isEmpty] using hempty
      exact .pure .nothing
    · have hne : type ≠ .empty := by simpa [Ty.isEmpty] using hempty
      exact .map ((Sound.defaultOf hne).imp fun _ _ _ hv => .value hv)
  | ifElse htype hcondition hbranch hother =>
    rw [World.eval]
    refine .need htype ((hc hcondition hk).bind fun _ v _ hv => .truth hv fun b => ?_)
    exact .ite (fun _ => hb hbranch hk) fun _ => ho _ rfl hother hk

theorem optional_sound {o : Option Expr} (ho : ∀ x ∈ o, Respects host own w fuel invoke x)
    (htyped : ∀ x ∈ o, Typed host w.tree w.resolution here x (w.resolution.type x))
    (hk : w.Binds host own here.function k) :
    Sound k shapes (w.evalOptional fuel invoke here o) fun _ _ => True := by
  cases o with
  | none => exact .pure trivial
  | some x =>
    rw [World.evalOptional]
    exact (ho x rfl (htyped x rfl) hk).bind fun _ _ _ hv => .settle (htyped x rfl).typeOf? hv

/-- The body of a loop, whose value is dropped. -/
theorem round_sound {α : Type} {body : Expr} {f : Unit → Eval σ α} {post : Shapes → α → Prop}
    (hb : Respects host own w fuel invoke body)
    (htyped : Typed host w.tree w.resolution here body type) (hk : w.Binds host own here.function k)
    (h : ∀ shapes', shapes <+: shapes' → Sound k shapes' (f ()) post) :
    Sound k shapes (w.eval fuel invoke here body >>= fun v => w.settle body v >>= f) post :=
  (hb htyped hk).bind fun _ _ hle₁ hv =>
    (Sound.settle htyped.typeOf? hv).bind fun _ _ hle₂ _ => h _ (hle₁.trans hle₂)

theorem whileLoop_respects {condition body : Expr} (hc : Respects host own w fuel invoke condition)
    (hb : Respects host own w fuel invoke body) :
    Respects host own w fuel invoke (.whileLoop l condition body) := by
  intro here k shapes type htyped hk
  cases htyped with
  | whileLoop _ hcondition hbody =>
    rw [World.eval]
    refine (Sound.iterate (fun _ _ => True) fuel trivial fun _ _ _ _ => ?_).bind
      fun _ _ _ _ => .pure .nothing
    refine (hc hcondition hk).bind fun _ v _ hv => .truth hv fun b => ?_
    refine .ite (fun _ => ?_) fun _ => .pure (fun _ _ => trivial)
    exact round_sound hb hbody hk fun _ _ => .pure fun _ _ => trivial

theorem repeatUntil_respects {condition body : Expr} (hb : Respects host own w fuel invoke body)
    (hc : Respects host own w fuel invoke condition) :
    Respects host own w fuel invoke (.repeatUntil l body condition) := by
  intro here k shapes type htyped hk
  cases htyped with
  | repeatUntil _ hbody hcondition =>
    rw [World.eval]
    refine (Sound.iterate (fun _ _ => True) fuel trivial fun _ _ _ _ => ?_).bind
      fun _ _ _ _ => .pure .nothing
    refine round_sound hb hbody hk fun _ _ => ?_
    refine (hc hcondition hk).bind fun _ v _ hv => .truth hv fun b => ?_
    exact .ite (fun _ => .pure fun _ _ => trivial) fun _ => .pure fun _ _ => trivial

theorem forLoop_respects {init condition step : Option Expr} {body : Expr}
    (hi : ∀ x ∈ init, Respects host own w fuel invoke x)
    (hc : ∀ x ∈ condition, Respects host own w fuel invoke x)
    (hs : ∀ x ∈ step, Respects host own w fuel invoke x) (hb : Respects host own w fuel invoke body) :
    Respects host own w fuel invoke (.forLoop l init condition step body) := by
  intro here k shapes type htyped hk
  cases htyped with
  | @forLoop _ _ _ _ _ _ scope _ _ hscope hinit hcondition hstep hbody =>
    have hround {shapes : Shapes} : Sound k shapes (do
        w.settle body (← w.eval fuel invoke ⟨scope, here.function⟩ body)
        w.evalOptional fuel invoke ⟨scope, here.function⟩ step
        return some ()) fun _ o => ∀ c ∈ o, True :=
      round_sound hb hbody hk fun _ _ =>
        (optional_sound hs hstep hk).bind fun _ _ _ _ => .pure fun _ _ => trivial
    cases condition with
    | none =>
      rw [World.eval]
      refine .need (within?_eq_some hscope) ?_
      refine (optional_sound hi hinit hk).bind fun _ _ _ _ => ?_
      refine (Sound.iterate (fun _ _ => True) fuel trivial fun _ _ _ _ => ?_).bind
        fun _ _ _ _ => .pure .nothing
      exact hround
    | some condition =>
      rw [World.eval]
      refine .need (within?_eq_some hscope) ?_
      refine (optional_sound hi hinit hk).bind fun _ _ _ _ => ?_
      refine (Sound.iterate (fun _ _ => True) fuel trivial fun _ _ _ _ => ?_).bind
        fun _ _ _ _ => .pure .nothing
      refine (hc condition rfl (hcondition condition rfl) hk).bind fun _ v _ hv => ?_
      refine .truth hv fun b => .ite (fun _ => hround) fun _ => .pure fun _ _ => trivial

theorem forTo_respects {counter start bound body : Expr} {direction : Direction}
    (hw : Reliable host own w) (hmem : counter ∈ w.body.nodes)
    (hs : Respects host own w fuel invoke start) (ht : Respects host own w fuel invoke bound)
    (hb : Respects host own w fuel invoke body) :
    Respects host own w fuel invoke (.forTo l counter start bound direction body) := by
  intro here k shapes type htyped hk
  cases htyped with
  | @forTo _ _ lc name d _ _ _ _ scope _ _ hscope hvar hstart hbound hbody =>
    have hk' : w.Binds host own (Position.mk scope here.function).function k := hk
    obtain ⟨place, hplace, htype, hne⟩ := hw.place hk' (hw.names lc name d hmem) hvar
    rw [World.eval]
    refine .need (within?_eq_some hscope) (.need hplace ?_)
    refine (hs hstart hk).bind fun _ v _ hv => .value hv hne fun x hx => ?_
    refine (Sound.write htype hx).bind fun _ _ _ _ => ?_
    refine (Sound.iterate (fun _ _ => True) fuel trivial fun _ _ _ _ => ?_).bind
      fun _ _ _ _ => .pure .nothing
    refine (Sound.read htype hne).bind fun _ now _ hnow => .number (.value hnow) fun now => ?_
    refine (ht hbound hk).bind fun _ v _ hv => .number hv fun last => ?_
    refine .ite (fun _ => .pure fun _ _ => trivial) fun _ => round_sound hb hbody hk fun _ _ => ?_
    refine (Sound.read htype hne).bind fun _ now _ hnow => .number (.value hnow) fun now => ?_
    exact (Sound.write htype (.scalar rfl rfl)).bind fun _ _ _ _ => .pure fun _ _ => trivial

theorem forIn_respects {item iterable body : Expr} (hw : Reliable host own w)
    (hmem : item ∈ w.body.nodes) (hi : Respects host own w fuel invoke iterable)
    (hb : Respects host own w fuel invoke body) :
    Respects host own w fuel invoke (.forIn l item iterable body) := by
  intro here k shapes type htyped hk
  cases htyped with
  | @forIn _ _ li name d _ _ scope element _ _ hscope hne hitem hvar hiterable hbody =>
    have hk' : w.Binds host own (Position.mk scope here.function).function k := hk
    obtain ⟨place, hplace, htype, -⟩ := hw.place hk' (hw.names li name d hmem) hvar
    rw [World.eval]
    refine .need (within?_eq_some hscope) (.need hplace (.need hitem ?_))
    refine (hi hiterable hk).bind fun _ v _ hv => .ref hv fun cell hcell => ?_
    refine (Sound.iterate (fun _ _ => True) fuel trivial fun _ position hle _ => ?_).bind
      fun _ _ _ _ => .pure .nothing
    refine Sound.length.bind fun _ _ hle' _ => .ite (fun _ => ?_) fun _ => .pure fun _ _ => trivial
    refine (Sound.readElement (hcell.mono (hle.trans hle')) hne).bind fun _ x _ hx => ?_
    refine (Sound.write htype hx).bind fun _ _ _ _ => ?_
    exact round_sound hb hbody hk fun _ _ => .pure fun _ _ => trivial

theorem all_sound {es : List Expr} {types : Expr → Ty}
    (hes : ∀ x ∈ es, Respects host own w fuel invoke x)
    (htyped : ∀ x ∈ es, Typed host w.tree w.resolution here x (types x))
    (hk : w.Binds host own here.function k) (hne : ∀ x ∈ es, types x ≠ .empty) :
    Sound k shapes (w.evalAll fuel invoke here es) fun shapes' vs =>
      vs.length = es.length ∧ Holds shapes' vs.toArray (es.map types) := by
  induction es generalizing shapes with
  | nil => exact .pure ⟨rfl, .nil⟩
  | cons e es ih =>
    obtain ⟨he, hes⟩ := List.forall_mem_cons.mp hes
    obtain ⟨hte, htes⟩ := List.forall_mem_cons.mp htyped
    obtain ⟨hee, hees⟩ := List.forall_mem_cons.mp hne
    rw [World.evalAll]
    refine (he hte hk).bind fun _ v _ hv => .value hv hee fun x hx => ?_
    refine (ih hes htes hees).bind fun _ vs hle ⟨hlen, hvs⟩ => .pure ⟨?_, ?_⟩
    · rw [List.length_cons, List.length_cons, hlen]
    · exact .cons (hx.mono hle) hvs

theorem call_respects {name : String} {args : List Expr} (hw : Reliable host own w)
    (hinvoke : Delivers host own w invoke) (ha : ∀ x ∈ args, Respects host own w fuel invoke x) :
    Respects host own w fuel invoke (.call l name args) := by
  intro here k shapes type htyped hk
  cases htyped with
  | call _ hargs ho hyields =>
    obtain ⟨hdeclares, hparams, -⟩ := resolveCall?_eq_some ho
    have hne (x : Expr) (hx : x ∈ args) : w.resolution.type x ≠ .empty :=
      hw.wf.params_ne_empty hw.regular hdeclares _ (hparams ▸ List.mem_map_of_mem hx)
    rw [World.eval]
    refine (all_sound ha hargs hk hne).bind fun _ vs _ ⟨hlen, hvs⟩ => ?_
    refine .need (Resolution.mapM_typeOf? fun x hx => (hargs x hx).typeOf?) (.need ho ?_)
    refine apply_sound hw hinvoke hk hdeclares hyields ?_ (hparams ▸ hvs)
    rw [hparams, List.length_map, hlen]

theorem ret_respects {value : Option Expr} (hv : ∀ x ∈ value, Respects host own w fuel invoke x) :
    Respects host own w fuel invoke (.ret l value) := by
  intro here k shapes type htyped hk
  cases htyped with
  | ret _ _ hvalue hreturns =>
    have hresult : k.result = (value.map w.resolution.type).getD .empty := by
      obtain ⟨f, hf, hresult, -⟩ := hk
      obtain ⟨f', hf', hresult'⟩ := hreturns
      cases hf.symm.trans hf'
      exact Option.some.inj (hresult.symm.trans hresult')
    cases value with
    | none => exact fun _ hs => .returned List.prefix_rfl hs (hresult ▸ .nothing)
    | some x =>
      rw [World.eval]
      refine (hv x rfl (hvalue x rfl) hk).bind fun _ v _ hgives => ?_
      refine (Sound.settle (hvalue x rfl).typeOf? hgives).bind fun _ _ hle _ => ?_
      exact fun _ hs => .returned List.prefix_rfl hs (hresult ▸ hgives.mono hle)

theorem paren_respects {inner : Expr} (h : Respects host own w fuel invoke inner) :
    Respects host own w fuel invoke (.paren l inner) := by
  intro here k shapes type htyped hk
  cases htyped with
  | paren _ hinner => exact h hinner hk

theorem element_respects {array : Expr} {index : Option Expr}
    (ha : Respects host own w fuel invoke array) (hi : ∀ x ∈ index, Respects host own w fuel invoke x) :
    Respects host own w fuel invoke (.element l array index) := by
  intro here k shapes type htyped hk
  cases htyped with
  | element htype hne harray hindex =>
    rw [World.eval]
    refine .need htype ((ha harray hk).bind fun _ v _ hv => .ref hv fun cell hcell => ?_)
    refine (hi _ rfl hindex hk).bind fun _ v hle hv => .number hv fun position => ?_
    exact .map ((Sound.readElement (hcell.mono hle) hne).imp fun _ _ _ hv => .value hv)

theorem array_respects {elements : List Expr} (he : ∀ x ∈ elements, Respects host own w fuel invoke x) :
    Respects host own w fuel invoke (.array l elements) := by
  intro here k shapes type htyped hk
  cases htyped with
  | @array _ _ _ type htype hempty helements =>
    have hne (x : Expr) (hx : x ∈ elements) : type ≠ .empty := fun hbare => by
      rw [hempty.mpr hbare] at hx
      cases hx
    rw [World.eval]
    refine (all_sound he helements hk hne).bind fun _ vs _ ⟨hlen, hvs⟩ => .need htype ?_
    refine .map ((Sound.newArray (fun hbare => ?_) fun v hv => ?_).imp fun _ _ _ hv => .value hv)
    · rw [hempty.mpr hbare] at hlen
      exact List.eq_nil_of_length_eq_zero hlen
    · obtain ⟨n, hn⟩ := List.mem_iff_getElem?.mp hv
      have hlt := (List.getElem?_eq_some_iff.mp hn).1
      have htype := List.getElem?_eq_getElem (hlen ▸ hlt)
      obtain ⟨x, hx, hty⟩ := hvs n type (by rw [List.getElem?_map, htype]; rfl)
      rw [List.getElem?_toArray, hn] at hx
      cases hx
      exact hty (hne _ (List.mem_of_getElem? htype))

/-- The evaluation of every typed node keeps to its type. -/
theorem respects (hw : Reliable host own w) (hinvoke : Delivers host own w invoke) (e : Expr)
    (he : e ∈ w.body.nodes) : Respects host own w fuel invoke e := by
  refine Expr.mem_nodes_induction (fun e he mem below within => ?_) e he
  cases e with
  | constant l value => exact constant_respects value
  | var l name d => exact var_respects hw (hw.names l name d he)
  | binary l op left right =>
    have hright := below right (by simp)
    by_cases hop : op = .assign
    · subst hop
      cases left with
      | var target name d =>
        exact assignVar_respects hw (hw.names target name d (mem _ (by simp)))
          hright
      | element target array index =>
        cases index with
        | none => exact not_target rfl
        | some index =>
          have part (y : Expr) (hy : y ∈ [array, index]) :=
            within (.element target array (some index)) (by simp) y hy
          exact assignElement_respects (part array (by simp)) (part index (by simp)) hright
      | _ => exact not_target rfl
    · exact operator_respects hw hinvoke hop he (below left (by simp)) hright
  | function l name params body => exact function_respects
  | block l body => exact block_respects below
  | cond l condition thenBranch elseBranch =>
    exact cond_respects (below condition (by simp))
      (below thenBranch (by simp))
      fun x hx => below x (by simp_all)
  | forLoop l init condition step body =>
    exact forLoop_respects (fun x hx => below x (by simp_all))
      (fun x hx => below x (by simp_all))
      (fun x hx => below x (by simp_all)) (below body (by simp))
  | forTo l counter start bound direction body =>
    exact forTo_respects hw (mem counter (by simp))
      (below start (by simp)) (below bound (by simp))
      (below body (by simp))
  | forIn l item iterable body =>
    exact forIn_respects hw (mem item (by simp))
      (below iterable (by simp)) (below body (by simp))
  | whileLoop l condition body =>
    exact whileLoop_respects (below condition (by simp))
      (below body (by simp))
  | repeatUntil l body condition =>
    exact repeatUntil_respects (below body (by simp))
      (below condition (by simp))
  | call l name args => exact call_respects hw hinvoke below
  | ret l value => exact ret_respects fun x hx => below x (by simp_all)
  | paren l inner => exact paren_respects (below inner (by simp))
  | element l array index =>
    exact element_respects (below array (by simp))
      fun x hx => below x (by simp_all)
  | array l elements => exact array_respects below

end Nodes

section Programs

variable {host : Host} {own : Holdings σ} {w : World σ} {fuel : Nat} {invoke : Invoke σ}
  {k : Contract σ} {shapes : Shapes} {f : FunctionRecord} {result type : Ty} {body : Expr}

/-- The value of a body is one of the result, if there is one. -/
theorem body_sound {function scope : Nat} (hb : Respects host own w fuel invoke body)
    (htyped : Typed host w.tree w.resolution ⟨scope, function⟩ body type)
    (hk : w.Binds host own function k) :
    Sound k shapes (w.evalBody fuel invoke ⟨scope, function⟩ result body) fun shapes' v =>
      ∀ x ∈ v, HasType shapes' x result := by
  have hk' : w.Binds host own (Position.mk scope function).function k := hk
  refine (hb htyped hk').bind fun _ v _ hv => ?_
  refine (Sound.settle htyped.typeOf? hv).bind fun _ _ hle _ => .pure fun x hx => ?_
  split at hx
  case isTrue hresult =>
    obtain ⟨-, hresult⟩ : (!result.isEmpty) = true ∧ w.typeOf? body = some result := by
      simpa using hresult
    cases htyped.typeOf?.symm.trans hresult
    cases hx
    cases hv with
    | value hv => exact hv.mono hle
  case isFalse => cases hx

/-- The end of an activation: back to the locals of the caller. -/
theorem conclude_sound {s s' : Store σ} {v : Option Value} {shapes' : Shapes}
    (hs : s.Keeps k shapes) (hle : shapes <+: shapes') (hheap : s'.heap.Conforms shapes')
    (hglobals : Holds shapes' s'.globals k.globals) (hhost : k.holdings.fits shapes' s'.host)
    (hv : ∀ y ∈ v, HasType shapes' y result) :
    Settles k shapes (fun shapes' v => Gives shapes' v result)
      (if v = none ∧ result ≠ .empty then
        .error (.stopped (.fault (.missingReturnValue f.name))) s'
      else .ok v { s' with locals := s.locals }) := by
  split
  case isTrue => exact .stopped (.noResult _)
  case isFalse hno =>
    refine .value hle ⟨hheap, hglobals, hs.locals.mono hle, hhost⟩ ?_
    cases v with
    | none =>
      obtain rfl : result = .empty := Decidable.not_not.mp fun hne => hno ⟨rfl, hne⟩
      exact .nothing
    | some y => exact .value (hv y rfl)

/-- An activation of a function with arguments of the types of its parameters. -/
theorem activate_sound {args : List Value} {x : Eval σ (Option Value)}
    (hglobals : k.globals = host.globals.map (·.type)) (hholdings : k.holdings = own)
    (hparams : f.paramCount ≤ f.slots.length) (hlen : args.length = f.paramCount)
    (hargs : Holds shapes args.toArray ((w.slotTypes f).take f.paramCount))
    (hx : ∀ shapes', Sound (w.contract host own f result) shapes' x fun shapes'' v =>
      ∀ y ∈ v, HasType shapes'' y result) :
    Sound k shapes (w.activate f result args x) fun shapes' v => Gives shapes' v result := by
  intro s hs
  have hsize : args.toArray.size = ((w.slotTypes f).take f.paramCount).length := by
    simp [World.slotTypes, hlen, Nat.min_eq_left hparams]
  obtain ⟨shapes₁, hle₁, hheap, hlocals⟩ :=
    hs.heap.fill ((w.slotTypes f).drop args.length) hargs hsize
  rw [hlen, List.take_append_drop] at hlocals
  rw [World.activate, if_neg (by simpa using hlen), hlen]
  rw [hlen] at hheap
  cases hfill : World.fill s.heap args.toArray ((w.slotTypes f).drop f.paramCount) with
  | mk locals heap =>
    rw [hfill] at hheap hlocals
    have hsame : (w.contract host own f result).globals = k.globals := hglobals.symm
    have hsame' : (w.contract host own f result).holdings = k.holdings := hholdings.symm
    have hstart : Store.Keeps { s with locals, heap } (w.contract host own f result)
        shapes₁ :=
      ⟨hheap, hsame ▸ hs.globals.mono hle₁, hlocals, hsame' ▸ k.holdings.mono hle₁ hs.host⟩
    have hbody := hx shapes₁ _ hstart
    dsimp only
    generalize x { s with locals, heap } = r at hbody
    cases hbody with
    | value hle₂ hs' hv =>
      exact conclude_sound hs (hle₁.trans hle₂) hs'.heap (hsame ▸ hs'.globals)
        (hsame' ▸ hs'.host) hv
    | returned hle₂ hs' hv =>
      refine conclude_sound hs (hle₁.trans hle₂) hs'.heap (hsame ▸ hs'.globals)
        (hsame' ▸ hs'.host) ?_
      intro y hy
      cases hy
      cases hv with
      | value hv => exact hv
    | stopped hwhy => exact .stopped hwhy
    | exhausted => exact .exhausted

theorem invoke_sound (hw : Reliable host own w) (fuel : Nat) : Delivers host own w (w.invoke fuel) := by
  induction fuel with
  | zero => exact fun _ _ _ _ _ _ _ _ _ _ _ _ _ _ _ => .exhausted
  | succ fuel ih =>
    intro k shapes p f result args hglobals hholdings hp hf hresult hlen hargs
    obtain ⟨l, body, scope, result', type, hdecl, hscope, hbody⟩ := hw.bodies p hp
    obtain ⟨f', hf', hresult'⟩ := hbody.returns
    cases hf.symm.trans hf'
    cases hresult.symm.trans hresult'
    rw [World.invoke]
    refine .need hdecl (.need hscope (.need hf (.need hresult ?_)))
    refine activate_sound hglobals hholdings (hw.wf.params _ f hf) hlen hargs fun shapes' => ?_
    have hmem : body ∈ w.body.nodes := by
      obtain ⟨name, params, hmem, -⟩ := World.declaration?_eq_some hdecl
      exact Expr.mem_nodes_trans hmem
        (Expr.mem_nodes_child (by simp) body.mem_nodes_self)
    exact body_sound (respects hw ih body hmem) hbody.typed ⟨f, hf, hresult, rfl⟩

/-- The evaluation of a typed program keeps to its types. -/
theorem evaluate_sound {f : FunctionRecord} (hw : Reliable host own w)
    (htyped : Typed host w.tree w.resolution ⟨w.tree.program, ScopeTree.main⟩ w.body type)
    (hf : w.tree.functions[ScopeTree.main]? = some f) (hcount : f.paramCount = 0)
    (hresult : f.returnType = some .empty) (hglobals : k.globals = host.globals.map (·.type))
    (hholdings : k.holdings = own) (fuel : Nat) :
    Sound k shapes (w.evaluate fuel) fun shapes' v => Gives shapes' v .empty := by
  refine .need hf (activate_sound hglobals hholdings (hw.wf.params _ f hf) hcount.symm ?_
    fun shapes' => ?_)
  · rw [hcount]
    exact .nil
  · exact body_sound (respects hw (invoke_sound hw fuel) w.body w.body.mem_nodes_self) htyped
      ⟨f, hf, hresult, rfl⟩

end Programs

end Semantics

end TurtleScript

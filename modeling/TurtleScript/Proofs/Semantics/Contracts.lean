import TurtleScript.Proofs.Monad
import TurtleScript.Proofs.Semantics.Values

/-!
# Evaluations that keep to types

An evaluation is sound if, started in a store whose places hold values of their types, it ends
in such a store with a value of the expected type, returns with a value of the type that its
function returns, stops for a reason that types do not exclude, or runs out of fuel. It is
never stuck.
-/
namespace TurtleScript.Semantics

variable {σ α β : Type}

/-- What an activation is held to: the types of the globals, of its slots and of its result, and
what the state of the host relies on. -/
structure Contract (σ : Type) where
  globals : List Ty
  slots : List Ty
  result : Ty
  holdings : Holdings σ

/-- The type of a place, as far as it is in reach. -/
def Contract.typeAt? (k : Contract σ) (function : Nat) : Storage → Option Ty
  | .slot owner n => if owner = function then k.slots[n]? else none
  | .global n => k.globals[n]?

/-- The places of a store hold values of their types. -/
structure Store.Keeps (s : Store σ) (k : Contract σ) (shapes : Shapes) : Prop where
  heap : s.heap.Conforms shapes
  globals : Holds shapes s.globals k.globals
  locals : Holds shapes s.locals k.slots
  host : k.holdings.fits shapes s.host

/-- Reasons to stop that no type excludes. -/
inductive Harmless : Stop → Prop where
  | bounds (index : Int) (length : Nat) : Harmless (.fault (.indexOutOfBounds index length))
  | noResult (function : String) : Harmless (.fault (.missingReturnValue function))
  | native (name message : String) : Harmless (.fault (.native name message))

/-- The ways in which a sound evaluation ends. -/
inductive Settles (k : Contract σ) (shapes : Shapes) (post : Shapes → α → Prop) :
    EStateM.Result Exit (Store σ) α → Prop where
  | value {a : α} {s : Store σ} {shapes' : Shapes} : shapes <+: shapes' → s.Keeps k shapes' →
      post shapes' a → Settles k shapes post (.ok a s)
  | returned {v : Option Value} {s : Store σ} {shapes' : Shapes} : shapes <+: shapes' →
      s.Keeps k shapes' → Gives shapes' v k.result → Settles k shapes post (.error (.returned v) s)
  | stopped {why : Stop} {s : Store σ} : Harmless why →
      Settles k shapes post (.error (.stopped why) s)
  | exhausted {s : Store σ} : Settles k shapes post (.error .exhausted s)

/-- From arrays of these shapes on, the evaluation keeps to the contract. -/
def Sound (k : Contract σ) (shapes : Shapes) (x : Eval σ α) (post : Shapes → α → Prop) : Prop :=
  ∀ s, s.Keeps k shapes → Settles k shapes post (x s)

namespace Store.Keeps

variable {s : Store σ} {k : Contract σ} {shapes : Shapes} {function : Nat} {place : Storage}
  {type : Ty}

theorem get? (h : s.Keeps k shapes) (hplace : k.typeAt? function place = some type) :
    ∃ v, s.get? function place = some v ∧ (type ≠ .empty → HasType shapes v type) := by
  cases place with
  | slot owner n =>
    rw [Contract.typeAt?] at hplace
    split at hplace
    case isTrue howner =>
      obtain ⟨v, hv, htype⟩ := h.locals n type hplace
      exact ⟨v, by rw [Store.get?, if_pos howner, hv], htype⟩
    case isFalse => cases hplace
  | global n => exact h.globals n type hplace

theorem set? {v : Value} (h : s.Keeps k shapes) (hplace : k.typeAt? function place = some type)
    (hv : HasType shapes v type) : ∃ s', s.set? function place v = some s' ∧ s'.Keeps k shapes := by
  cases place with
  | slot owner n =>
    rw [Contract.typeAt?] at hplace
    split at hplace
    case isTrue howner =>
      obtain ⟨hlt, hholds⟩ := h.locals.set hplace hv
      exact ⟨{ s with locals := s.locals.setIfInBounds n v },
        by rw [Store.set?, if_pos ⟨howner, hlt⟩], h.heap, h.globals, hholds, h.host⟩
    case isFalse => cases hplace
  | global n =>
    obtain ⟨hlt, hholds⟩ := h.globals.set hplace hv
    exact ⟨{ s with globals := s.globals.setIfInBounds n v },
      by rw [Store.set?, if_pos hlt], h.heap, hholds, h.locals, h.host⟩

end Store.Keeps

namespace Settles

variable {k : Contract σ} {shapes shapes' : Shapes} {post : Shapes → α → Prop}
  {r : EStateM.Result Exit (Store σ) α}

theorem imp {post' : Shapes → α → Prop} (h : Settles k shapes post r)
    (himp : ∀ shapes' a, shapes <+: shapes' → post shapes' a → post' shapes' a) :
    Settles k shapes post' r := by
  cases h with
  | value hle hs ha => exact .value hle hs (himp _ _ hle ha)
  | returned hle hs hv => exact .returned hle hs hv
  | stopped hwhy => exact .stopped hwhy
  | exhausted => exact .exhausted

/-- What settles after more arrays settled before. -/
theorem of_later (h : Settles k shapes' post r) (hle : shapes <+: shapes') :
    Settles k shapes post r := by
  cases h with
  | value hle' hs ha => exact .value (hle.trans hle') hs ha
  | returned hle' hs hv => exact .returned (hle.trans hle') hs hv
  | stopped hwhy => exact .stopped hwhy
  | exhausted => exact .exhausted

end Settles

namespace Sound

variable {k : Contract σ} {shapes : Shapes} {post : Shapes → α → Prop} {post' : Shapes → β → Prop}
  {x : Eval σ α} {f : α → Eval σ β}

theorem imp {post' : Shapes → α → Prop} (h : Sound k shapes x post)
    (himp : ∀ shapes' a, shapes <+: shapes' → post shapes' a → post' shapes' a) :
    Sound k shapes x post' :=
  fun s hs => (h s hs).imp himp

theorem pure {a : α} (h : post shapes a) : Sound k shapes (Pure.pure a : Eval σ α) post :=
  fun _ hs => .value List.prefix_rfl hs h

theorem bind (hx : Sound k shapes x post)
    (hf : ∀ shapes' a, shapes <+: shapes' → post shapes' a → Sound k shapes' (f a) post') :
    Sound k shapes (x >>= f) post' := by
  intro s hs
  have hfirst := hx s hs
  rw [EStateM.bind_apply]
  generalize x s = r at hfirst
  cases hfirst with
  | value hle hs' ha => exact (hf _ _ hle ha _ hs').of_later hle
  | returned hle hs' hv => exact .returned hle hs' hv
  | stopped hwhy => exact .stopped hwhy
  | exhausted => exact .exhausted

theorem map {g : α → β} (h : Sound k shapes x fun shapes' a => post' shapes' (g a)) :
    Sound k shapes (g <$> x) post' := by
  rw [map_eq_pure_bind]
  exact h.bind fun _ _ _ ha => .pure ha

theorem ite {p : Prop} [Decidable p] {y : Eval σ α} (hx : p → Sound k shapes x post)
    (hy : ¬ p → Sound k shapes y post) : Sound k shapes (if p then x else y) post := by
  split
  case isTrue h => exact hx h
  case isFalse h => exact hy h

/-- What is needed is there. -/
theorem need {o : Option α} {a : α} (ho : o = some a) (h : Sound k shapes (f a) post') :
    Sound k shapes (Eval.need o >>= f) post' := by
  subst ho
  exact h

/-- An evaluation that goes by the store it finds. -/
theorem get {f : Store σ → Eval σ β}
    (h : ∀ s, s.Keeps k shapes → Settles k shapes post' (f s s)) :
    Sound k shapes (MonadState.get >>= f) post' := h

theorem fault {f : Fault} (h : Harmless (.fault f)) :
    Sound k shapes (Eval.fault f : Eval σ α) post := fun _ _ => .stopped h

section Values

variable {v : Option Value} {type : Ty}

theorem value {f : Value → Eval σ β} (hv : Gives shapes v type) (hne : type ≠ .empty)
    (h : ∀ x, HasType shapes x type → Sound k shapes (f x) post') :
    Sound k shapes (Eval.need v >>= f) post' := by
  obtain ⟨x, rfl, hx⟩ := hv.exists_value hne
  exact need rfl (h x hx)

theorem number {f : Double → Eval σ β} (hv : Gives shapes v .double)
    (h : ∀ d, Sound k shapes (f d) post') : Sound k shapes (Eval.number v >>= f) post' := by
  obtain ⟨x, rfl, hx⟩ := hv.exists_value (by simp)
  obtain ⟨d, rfl⟩ := hx.double
  exact need rfl (h d)

theorem truth {f : Bool → Eval σ β} (hv : Gives shapes v .boolean)
    (h : ∀ b, Sound k shapes (f b) post') : Sound k shapes (Eval.truth v >>= f) post' := by
  obtain ⟨x, rfl, hx⟩ := hv.exists_value (by simp)
  obtain ⟨b, rfl⟩ := hx.boolean
  exact need rfl (h b)

theorem ref {f : Nat → Eval σ β} (hv : Gives shapes v (.array type))
    (h : ∀ cell, HasType shapes (.array cell) (.array type) → Sound k shapes (f cell) post') :
    Sound k shapes (Eval.ref v >>= f) post' := by
  obtain ⟨x, rfl, hx⟩ := hv.exists_value (by simp)
  obtain ⟨cell, rfl⟩ := hx.array_ref
  exact need rfl (h cell hx)

theorem settle {w : World σ} {e : Expr} (htype : w.typeOf? e = some type)
    (hv : Gives shapes v type) : Sound k shapes (w.settle e v) fun _ _ => True :=
  need htype (ite (fun _ => .pure trivial) fun hne => absurd hv.isSome_eq hne)

end Values

section Places

variable {function : Nat} {place : Storage} {type : Ty}

theorem read (hplace : k.typeAt? function place = some type) (hne : type ≠ .empty) :
    Sound k shapes (Eval.read function place : Eval σ Value) fun shapes' v =>
      HasType shapes' v type := by
  refine get fun s hs => ?_
  obtain ⟨v, hv, htype⟩ := hs.get? hplace
  rw [hv]
  exact .value List.prefix_rfl hs (htype hne)

theorem write {v : Value} (hplace : k.typeAt? function place = some type)
    (hv : HasType shapes v type) :
    Sound k shapes (Eval.write function place v : Eval σ Unit) fun _ _ => True := by
  refine get fun s hs => ?_
  obtain ⟨s', hset, hs'⟩ := hs.set? hplace hv
  rw [hset]
  exact .value List.prefix_rfl hs' trivial

end Places

section Arrays

variable {cell : Nat} {index : Double} {type : Ty}

theorem length : Sound k shapes (Eval.length cell : Eval σ Nat) fun shapes' n =>
    ∀ shape, shapes'[cell]? = some shape → n = shape.length :=
  get fun _ hs => .value List.prefix_rfl hs fun _ hshape => (hs.heap.cell hshape).1

/-- An element that was found is of the type of the elements. -/
theorem locate (hcell : HasType shapes (.array cell) (.array type)) (hne : type ≠ .empty) :
    Sound k shapes (Eval.locate cell index type : Eval σ Nat) fun shapes' n =>
      ∃ shape, shapes'[cell]? = some shape ∧ shape.element = type ∧ n < shape.length := by
  rw [Eval.locate]
  refine ite (fun hempty => absurd (by simpa [Ty.isEmpty] using hempty) hne) fun _ => ?_
  refine length.bind fun shapes' n hle hn => ite (fun hbounds => ?_) fun _ => fault (.bounds _ _)
  cases hcell.mono hle with
  | scalar hscalar => cases hscalar
  | array hshape hcase =>
    have hlen := hn _ hshape
    exact .pure ⟨_, hshape, hcase.resolve_left (by omega), by omega⟩

theorem readElement (hcell : HasType shapes (.array cell) (.array type)) (hne : type ≠ .empty) :
    Sound k shapes (Eval.readElement cell index type : Eval σ Value) fun shapes' v =>
      HasType shapes' v type := by
  refine (locate hcell hne).bind fun shapes' n _ ⟨shape, hshape, helement, hlt⟩ => ?_
  refine get fun s hs => ?_
  obtain ⟨hlen, helements⟩ := hs.heap.cell hshape
  have hget := Array.getElem?_eq_getElem (hlen ▸ hlt)
  rw [hget]
  exact .value List.prefix_rfl hs (helement ▸ helements _ (Array.mem_of_getElem? hget))

theorem writeElement {v : Value} (hcell : HasType shapes (.array cell) (.array type))
    (hv : HasType shapes v type) :
    Sound k shapes (Eval.writeElement cell index type v : Eval σ Unit) fun _ _ => True := by
  refine (locate hcell hv.ne_empty).bind fun shapes' n hle ⟨shape, hshape, helement, _⟩ => ?_
  intro s hs
  have hheap : (withElement s.heap cell n v).Conforms shapes' :=
    write_eq_withElement .. ▸ hs.heap.write hshape (helement ▸ hv.mono hle)
  exact .value List.prefix_rfl ⟨hheap, hs.globals, hs.locals, hs.host⟩ trivial

theorem defaultOf (hne : type ≠ .empty) :
    Sound k shapes (Eval.defaultOf type : Eval σ Value) fun shapes' v =>
      HasType shapes' v type := by
  intro s hs
  obtain ⟨shapes', hle, hheap, hv⟩ := hs.heap.defaultOf type
  exact .value hle ⟨hheap, hs.globals.mono hle, hs.locals.mono hle, k.holdings.mono hle hs.host⟩ (hv hne)

theorem newArray {values : List Value} (hempty : type = .empty → values = [])
    (hvalues : ∀ v ∈ values, HasType shapes v type) :
    Sound k shapes (Eval.newArray type values : Eval σ Value) fun shapes' v =>
      HasType shapes' v (.array type) := by
  intro s hs
  let shape : Shape := ⟨type, values.length, fun he => by rw [hempty he]; rfl⟩
  have hle : shapes <+: shapes ++ [shape] := List.prefix_append ..
  exact .value hle ⟨hs.heap.alloc rfl (by simpa using hvalues), hs.globals.mono hle,
    hs.locals.mono hle, k.holdings.mono hle hs.host⟩ hs.heap.hasType_new

end Arrays

theorem native {g : Native σ} {n : NativeSignature} {args : List Value} (hg : g.Respects k.holdings n)
    (hlen : args.length = n.params.length) (hargs : Holds shapes args.toArray n.params) :
    Sound k shapes (Eval.native g args) fun shapes' v => Gives shapes' v n.returnType := by
  intro s hs
  have hanswers := hg shapes s.heap args s.host hs.heap hs.host hlen hargs
  rw [Eval.native]
  generalize g args s.heap s.host = r at hanswers
  cases hanswers with
  | value hle hheap hhost hv =>
    exact .value hle ⟨hheap, hs.globals.mono hle, hs.locals.mono hle, hhost⟩ hv
  | failure => exact .stopped (.native _ _)

/-- Rounds that keep something go on as long as they like. -/
theorem iterate {round : α → Eval σ (Option α)} {a : α} (inv : Shapes → α → Prop) (fuel : Nat)
    (ha : inv shapes a)
    (hround : ∀ shapes' b, shapes <+: shapes' → inv shapes' b →
      Sound k shapes' (round b) fun shapes'' o => ∀ c ∈ o, inv shapes'' c) :
    Sound k shapes (Eval.iterate round fuel a) fun _ _ => True := by
  induction fuel generalizing shapes a with
  | zero => exact fun _ _ => .exhausted
  | succ fuel ih =>
    rw [Eval.iterate]
    refine (hround shapes a List.prefix_rfl ha).bind fun shapes' o hle ho => ?_
    cases o with
    | none => exact .pure trivial
    | some c =>
      exact ih (ho c rfl) fun shapes'' b hle' hb => hround shapes'' b (hle.trans hle') hb

end Sound

end TurtleScript.Semantics

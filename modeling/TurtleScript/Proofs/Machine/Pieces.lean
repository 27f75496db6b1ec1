import TurtleScript.Proofs.Code.Levels
import TurtleScript.Proofs.Machine.Steps

/-!
# Pieces of instructions

Most instructions go straight on to the next one. Such an instruction is put together from
pieces of a few kinds: it takes values off the stack, gives others, looks at the store or changes
it, or stops. How many values it takes and gives adds up from its pieces. What holds of each kind
of piece and of a sequence holds of all these instructions.
-/
namespace TurtleScript

open Semantics (Store)

variable {σ : Type}

/-- A stop by a check of an instruction: a fault other than the end of the budget. -/
def Stop.isCheck : Stop → Bool
  | .fault (.stepLimit _) | .crash => false
  | .fault _ => true

namespace State

/-- What an instruction can look at beside the stack. -/
def store (s : State σ) : Store σ := ⟨s.globals, s.frame.locals, s.heap, s.host⟩

def withStore (s : State σ) (d : Store σ) : State σ :=
  { s with
    frame := { s.frame with locals := d.locals }
    globals := d.globals
    heap := d.heap
    host := d.host }

end State

/-- The instruction goes on to the next one, and calls nothing on its way. -/
def Instr.isStraight : Instr → Bool
  | jump _ _ | call _ _ | callNative _ _ | ret _ => false
  | _ => true

namespace Exec

/-- A piece of an instruction that takes and gives so many values if it comes to its end. A check
can stop it, and a crash if it is one that `crashes`. -/
inductive Piece (crashes : Prop) : {α : Type} → Nat → Nat → Exec σ α → Prop where
  | pure {α : Type} (a : α) : Piece crashes 0 0 (Pure.pure a)
  | throw {α : Type} {takes gives : Nat} {stop : Stop}
      (hstop : stop.isCheck = true ∨ crashes ∧ stop = .crash) :
      Piece (α := α) crashes takes gives (MonadExcept.throw stop)
  | push (v : Value) : Piece crashes 0 1 (push v)
  | pop (op : Opcode) : Piece crashes 1 0 (pop op)
  | popMany {n : Nat} (hn : n < 2 ^ 32) (op : Opcode) : Piece crashes n 0 (popMany n op)
  | look {α : Type} {takes gives : Nat} {k : Store σ → Exec σ α}
      (hk : ∀ d, Piece crashes takes gives (k d)) : Piece crashes takes gives fun s => k s.store s
  | change {α : Type} (k : Store σ → α × Store σ) :
      Piece crashes 0 0 fun s => .ok (k s.store).1 (s.withStore (k s.store).2)
  /-- Nothing is taken after something was given, so that the numbers add up. -/
  | bind {α β : Type} {takes gives takes' gives' : Nat} {x : Exec σ α} {f : α → Exec σ β}
      (hx : Piece crashes takes gives x) (hf : ∀ a, Piece crashes takes' gives' (f a))
      (h : gives = 0 ∨ takes' = 0) : Piece crashes (takes + takes') (gives + gives') (x >>= f)

namespace Piece

variable {crashes : Prop} {α β : Type} {takes gives : Nat} {x : Exec σ α} {f : α → Exec σ β}

/-- A piece that leaves the stack alone comes first. -/
theorem lead (hx : Piece crashes 0 0 x) (hf : ∀ a, Piece crashes takes gives (f a)) :
    Piece crashes takes gives (x >>= f) := by
  have h := hx.bind hf (.inl rfl)
  rwa [Nat.zero_add, Nat.zero_add] at h

/-- Values are taken first. -/
theorem after (hx : Piece crashes takes 0 x) (hf : ∀ a, Piece crashes 0 gives (f a)) :
    Piece crashes takes gives (x >>= f) := by
  have h := hx.bind hf (.inl rfl)
  rwa [Nat.zero_add] at h

/-- Two operands are taken and one result is given. -/
theorem binary {γ : Type} {y : Exec σ γ} {g : α → γ → Exec σ β} (hx : Piece crashes 1 0 x)
    (hy : Piece crashes 1 0 y) (hg : ∀ a b, Piece crashes 0 1 (g a b)) :
    Piece crashes 2 1 (x >>= fun a => y >>= g a) :=
  hx.bind (fun a => hy.after (hg a)) (.inl rfl)

theorem map (hx : Piece crashes takes gives x) (g : α → β) : Piece crashes takes gives (g <$> x) := by
  rw [← bind_pure_comp]
  exact hx.bind (fun a => pure (g a)) (.inr rfl)

theorem fault {f : Fault} (hf : (Stop.fault f).isCheck = true) :
    Piece crashes takes gives (Exec.fault f : Exec σ α) :=
  throw (.inl hf)

theorem orFault {f : Fault} (hf : (Stop.fault f).isCheck = true) :
    (o : Option α) → Piece crashes 0 0 (Exec.orFault f o : Exec σ α)
  | none => fault hf
  | some a => pure a

/-- What the store has at a place, if anything, is pushed. -/
theorem entry {x : Exec σ Unit} (f : Fault) (hf : (Stop.fault f).isCheck = true)
    (find : Store σ → Option Value)
    (hx : ∀ s, x s = (Exec.orFault f (find s.store) >>= Exec.push) s) : Piece crashes 0 1 x := by
  rw [funext hx]
  exact look (k := fun d => Exec.orFault f (find d) >>= Exec.push) fun _ => (orFault hf _).lead push

theorem ite {p : Prop} [Decidable p] {x y : Exec σ α} (hx : Piece crashes takes gives x)
    (hy : Piece crashes takes gives y) : Piece crashes takes gives (if p then x else y) := by
  split
  · exact hx
  · exact hy

/-- A check before a piece. -/
theorem guarded {p : Prop} [Decidable p] {f : Fault} (hf : (Stop.fault f).isCheck = true)
    (hx : Piece crashes takes gives x) :
    Piece crashes takes gives (if p then Exec.fault f >>= fun _ : Unit => x else x) :=
  ite ((fault hf).lead fun _ => hx) hx

/-- A change that is made only if a check of the store allows it. -/
theorem checked {p : Store σ → Prop} [DecidablePred p] {k : Store σ → α × Store σ}
    {f : Store σ → Fault} (hf : ∀ d, (Stop.fault (f d)).isCheck = true) :
    Piece crashes 0 0 fun s : State σ =>
      if p s.store then .ok (k s.store).1 (s.withStore (k s.store).2)
      else Exec.fault (f s.store) s := by
  refine look (k := fun d s => if p d then .ok (k s.store).1 (s.withStore (k s.store).2)
    else Exec.fault (f d) s) fun d => ?_
  by_cases h : p d
  · simp only [if_pos h]
    exact change k
  · simp only [if_neg h]
    exact fault (hf d)

theorem popDouble (op : Opcode) : Piece crashes 1 0 (Exec.popDouble op : Exec σ Double) :=
  (pop op).after fun v => by cases v <;> first | exact pure _ | exact fault rfl

theorem popBool (op : Opcode) : Piece crashes 1 0 (Exec.popBool op : Exec σ Bool) :=
  (pop op).after fun v => by cases v <;> first | exact pure _ | exact fault rfl

theorem popInt (op : Opcode) : Piece crashes 1 0 (Exec.popInt op : Exec σ Int64) :=
  (pop op).after fun v => by cases v <;> first | exact pure _ | exact fault rfl

theorem alloc (c : Cell) : Piece crashes 0 0 (Exec.alloc c : Exec σ Value) :=
  change fun d => (Value.array (d.heap.alloc c).1, { d with heap := (d.heap.alloc c).2 })

theorem defaultOf (k : Kind) : Piece crashes 0 0 (Exec.defaultOf k : Exec σ Value) :=
  change fun d => ((d.heap.defaultOf k).1, { d with heap := (d.heap.defaultOf k).2 })

end Piece

end Exec

open Exec

namespace Machine

variable {m : Machine σ} {crashes : Prop}

theorem loadLocal_piece (a : Int32) : Piece crashes 0 1 (loadLocal a : Exec σ Unit) := by
  refine .entry (.unknownEntry .local a.toInt) rfl (fun d => (Int32.index? a).bind (d.locals[·]?)) ?_
  intro s
  rw [loadLocal]
  dsimp only [State.store]
  cases (Int32.index? a).bind (s.frame.locals[·]?) <;> rfl

theorem loadGlobal_piece (a : Int32) : Piece crashes 0 1 (loadGlobal a : Exec σ Unit) := by
  refine .entry (.unknownEntry .global a.toInt) rfl (fun d => (Int32.index? a).bind (d.globals[·]?)) ?_
  intro s
  rw [loadGlobal]
  dsimp only [State.store]
  cases (Int32.index? a).bind (s.globals[·]?) <;> rfl

theorem storeLocal_piece (a : Int32) : Piece crashes 1 0 (storeLocal a : Exec σ Unit) := by
  refine (Piece.pop _).after fun v => ?_
  cases Int32.index? a with
  | none => exact .fault rfl
  | some slot =>
    exact .checked (p := fun d => slot < d.locals.size)
      (k := fun d => ((), { d with locals := d.locals.setIfInBounds slot v }))
      (f := fun _ => .unknownEntry .local a.toInt) fun _ => rfl

theorem storeGlobal_piece (a : Int32) : Piece crashes 1 0 (storeGlobal a : Exec σ Unit) := by
  refine (Piece.pop _).after fun v => ?_
  cases Int32.index? a with
  | none => exact .fault rfl
  | some index =>
    exact .checked (p := fun d => index < d.globals.size)
      (k := fun d => ((), { d with globals := d.globals.setIfInBounds index v }))
      (f := fun _ => .unknownEntry .global a.toInt) fun _ => rfl

theorem eq_piece : Piece crashes 2 1 (eq : Exec σ Unit) := by
  have hscalar (v : Value) : Piece crashes 0 0 (requireScalar v : Exec σ Unit) := by
    cases v with
    | array | address => exact .fault rfl
    | _ => exact .pure ()
  exact .binary (.pop _) (.pop _) fun right left => (hscalar left).lead fun _ =>
    (hscalar right).lead fun _ => .push _

/-- The one instruction of this kind that can crash. -/
theorem intAdd_piece (h : crashes) : Piece crashes 2 1 (intAdd : Exec σ Unit) := by
  refine .binary (.popInt _) (.pop _) fun right left => ?_
  cases left with
  | int | array => exact .push _
  | address ref offset => exact .ite (.push _) (.throw (.inr ⟨h, rfl⟩))
  | _ => exact .fault rfl

theorem toNat_of_index? {a : Int32} {n : Nat} (h : Int32.index? a = some n) :
    a.toInt.toNat = n := by
  rw [Int32.index?] at h
  split at h
  · exact Option.some.inj h
  · cases h

theorem index?_lt {a : Int32} {n : Nat} (h : Int32.index? a = some n) : n < 2 ^ 31 := by
  have := a.toInt_lt
  have := toNat_of_index? h
  omega

theorem newArray_piece (count type : Int32) :
    Piece crashes count.toInt.toNat 1 (m.newArray count type) := by
  rw [newArray]
  cases hcount : Int32.index? count with
  | none => exact .throw (.inl rfl)
  | some n =>
    rw [toNat_of_index? hcount]
    have hn := index?_lt hcount
    exact (Piece.popMany (by omega) _).after fun _ => (Piece.orFault rfl _).lead fun _ =>
      (Piece.alloc _).lead fun _ => .push _

theorem length_piece : Piece crashes 1 1 (length : Exec σ Unit) := by
  refine (Piece.pop _).after fun v => ?_
  cases v with
  | array ref =>
    exact .look (k := fun d => push (.double (.ofNat (d.heap.cell ref).elements.size)))
      fun _ => .push _
  | _ => exact .fault rfl

theorem element_piece (op : Opcode) (v : Value) (field stride : Int32) :
    Piece crashes 0 0 (element op v field stride : Exec σ (Nat × Nat)) := by
  have hbounds (ref : Nat) (index : Int) : Piece crashes 0 0 (fun s : State σ =>
      if 0 ≤ index ∧ index < (s.heap.cell ref).elements.size then .ok (ref, index.toNat) s
      else fault (.indexOutOfBounds index (s.heap.cell ref).elements.size) s) :=
    .checked (p := fun d => 0 ≤ index ∧ index < (d.heap.cell ref).elements.size)
      (k := fun d => ((ref, index.toNat), d))
      (f := fun d => .indexOutOfBounds index (d.heap.cell ref).elements.size) fun _ => rfl
  refine Piece.guarded rfl ?_
  cases v with
  | address ref offset => exact .guarded rfl (hbounds ref _)
  | array ref => exact .guarded rfl (hbounds ref _)
  | empty | boolean | double | int | string =>
    exact (Piece.fault rfl).lead fun _ => .guarded rfl (hbounds _ _)

theorem getField_piece (field stride : Int32) :
    Piece crashes 1 1 (getField field stride : Exec σ Unit) :=
  (Piece.pop _).after fun _ => (element_piece _ _ _ _).lead fun ⟨ref, index⟩ =>
    .look (k := fun d => push (((d.heap.cell ref).elements[index]?).getD .empty)) fun _ => .push _

theorem setField_piece (field stride : Int32) :
    Piece crashes 2 1 (setField field stride : Exec σ Unit) :=
  .binary (.pop _) (.pop _) fun v _ => (element_piece _ _ _ _).lead fun ⟨ref, index⟩ =>
    (Piece.change fun d => ((), { d with heap := d.heap.write ref index v })).lead fun _ => .push _

theorem fillSlots_piece (locals : Array Value) (slots : List VariableDef) :
    Piece crashes 0 0 (m.fillSlots locals slots) := by
  induction slots generalizing locals with
  | nil => exact .pure _
  | cons v vs ih =>
    exact (Piece.orFault rfl _).lead fun _ => (Piece.defaultOf _).lead fun _ => ih _

/-- An instruction that goes straight on takes and gives what the tables say. -/
theorem execute_piece (host : Host) (here : Nat) {i : Instr} (hi : i.isStraight = true) :
    Piece (i = .intAdd) i.takes (m.gives host i) (m.execute here i) := by
  cases i with
  | nop | halt => exact .pure ()
  | loadConst a => exact (Piece.orFault rfl _).lead fun _ => .push _
  | loadLocal a => exact loadLocal_piece a
  | storeLocal a => exact storeLocal_piece a
  | loadGlobal a => exact loadGlobal_piece a
  | storeGlobal a => exact storeGlobal_piece a
  | pushInt a => exact .push _
  | pushDefault a =>
    exact (Piece.orFault rfl _).lead fun _ => (Piece.defaultOf _).lead fun _ => .push _
  | pop => exact (Piece.pop _).map _
  | dup =>
    exact (Piece.pop _).after fun v => (Piece.push v).bind (fun _ => .push v) (.inr rfl)
  | arith op => exact .binary (.popDouble _) (.popDouble _) fun _ _ => .push _
  | compare op => exact .binary (.popDouble _) (.popDouble _) fun _ _ => .push _
  | eq => exact eq_piece
  | logic op => exact .binary (.popBool _) (.popBool _) fun _ _ => .push _
  | toInt => exact (Piece.popDouble _).after fun _ => .push _
  | intMul => exact .binary (.popInt _) (.popInt _) fun _ _ => .push _
  | intAdd => exact intAdd_piece rfl
  | newArray count type => exact newArray_piece count type
  | length => exact length_piece
  | getField field stride => exact getField_piece field stride
  | setField field stride => exact setField_piece field stride
  | jump | call | callNative | ret => cases hi

end Machine

end TurtleScript

import TurtleScript.Proofs.Scope.Layout
import TurtleScript.Proofs.Semantics.Evaluation

/-!
# Types of values

An array has a number of elements and a type of elements, and keeps both for good: whoever
holds it may exchange elements, but only for others of that type. What stays of all arrays is
a list of shapes, which grows with every new array, and the type of a value is a matter of
these shapes alone. An array without elements is an array of any type.
-/
namespace TurtleScript

/-- The class that the values of a type belong to. -/
def Ty.valueClass? : Ty → Option ValueClass
  | .empty => none
  | .boolean => some .boolean
  | .byte | .int16 | .int32 | .int64 => some .integer
  | .single | .double => some .number
  | .string => some .string
  | .array _ => some .array

/-- What an array keeps. -/
structure Shape where
  element : Ty
  length : Nat
  /-- There is nothing of the type without values. -/
  bare : element = .empty → length = 0
deriving DecidableEq

/-- The shapes of all arrays, by their numbers. -/
abbrev Shapes := List Shape

/-- A value is of a type. -/
inductive HasType (shapes : Shapes) : Value → Ty → Prop where
  | scalar {v : Value} {type : Ty} : type.isArray = false → type.valueClass? = some v.classOf →
      HasType shapes v type
  | array {ref : Nat} {element : Ty} {shape : Shape} : shapes[ref]? = some shape →
      shape.length = 0 ∨ shape.element = element → HasType shapes (.array ref) (.array element)

/-- What an expression of a type comes to: a value of the type, or nothing. -/
inductive Gives (shapes : Shapes) : Option Value → Ty → Prop where
  | nothing : Gives shapes none .empty
  | value {v : Value} {type : Ty} : HasType shapes v type → Gives shapes (some v) type

namespace HasType

variable {shapes shapes' : Shapes} {v : Value} {type target source : Ty}

theorem mono (h : HasType shapes v type) (hle : shapes <+: shapes') : HasType shapes' v type := by
  cases h with
  | scalar hscalar hclass => exact .scalar hscalar hclass
  | array hshape hcase =>
    have hlater := getElem?_of_prefix hle hshape
    exact .array hlater hcase

theorem ne_empty (h : HasType shapes v type) : type ≠ .empty := by
  rintro rfl
  cases h with
  | scalar _ hclass => cases hclass

theorem boolean (h : HasType shapes v .boolean) : ∃ b, v = .boolean b := by
  cases h with
  | scalar _ hclass => cases v <;> cases hclass; exact ⟨_, rfl⟩

theorem double (h : HasType shapes v .double) : ∃ d, v = .double d := by
  cases h with
  | scalar _ hclass => cases v <;> cases hclass; exact ⟨_, rfl⟩

theorem array_ref (h : HasType shapes v (.array type)) : ∃ ref, v = .array ref := by
  cases h with
  | scalar hscalar => cases hscalar
  | array => exact ⟨_, rfl⟩

/-- A value that is no array can be compared. -/
theorem isScalar (h : HasType shapes v type) (htype : type.isArray = false) :
    v.isScalar = true := by
  cases h with
  | scalar _ hclass =>
    cases v with
    | array | address => cases type <;> cases htype <;> cases hclass
    | _ => rfl
  | array => cases htype

/-- Where a type is accepted, its values are of the type that accepts them. -/
theorem accepts (h : HasType shapes v source) (haccepts : target.accepts source = true) :
    HasType shapes v target := by
  rw [Ty.accepts, Bool.or_eq_true, Bool.and_eq_true, decide_eq_true_eq, decide_eq_true_eq] at haccepts
  rcases haccepts with rfl | ⟨harray, rfl⟩
  · exact h
  cases target with
  | array element =>
    cases h with
    | scalar hscalar => cases hscalar
    | @array ref _ shape hshape hcase =>
      exact .array hshape (.inl (hcase.elim id fun hempty => shape.bare hempty))
  | _ => cases harray

end HasType

namespace Gives

variable {shapes shapes' : Shapes} {v : Option Value} {type : Ty}

theorem mono (h : Gives shapes v type) (hle : shapes <+: shapes') : Gives shapes' v type := by
  cases h with
  | nothing => exact .nothing
  | value hv => exact .value (hv.mono hle)

theorem isSome_eq (h : Gives shapes v type) : v.isSome = !type.isEmpty := by
  cases h with
  | nothing => rfl
  | value hv => simpa [Ty.isEmpty] using hv.ne_empty

/-- An expression of a type with values has one. -/
theorem exists_value (h : Gives shapes v type) (hne : type ≠ .empty) :
    ∃ x, v = some x ∧ HasType shapes x type := by
  cases h with
  | nothing => exact absurd rfl hne
  | value hv => exact ⟨_, rfl, hv⟩

end Gives

/-- The arrays have these shapes. -/
structure Heap.Conforms (h : Heap) (shapes : Shapes) : Prop where
  size : h.cells.size = shapes.length
  cells : ∀ (ref : Nat) (c : Cell) (shape : Shape), h.cells[ref]? = some c →
    shapes[ref]? = some shape →
      c.elements.size = shape.length ∧ ∀ v ∈ c.elements, HasType shapes v shape.element

namespace Heap

variable {h : Heap} {shapes : Shapes}

theorem Conforms.cell {ref : Nat} {shape : Shape} (hc : h.Conforms shapes)
    (hshape : shapes[ref]? = some shape) : (h.cell ref).elements.size = shape.length ∧
      ∀ v ∈ (h.cell ref).elements, HasType shapes v shape.element := by
  have hlt : ref < h.cells.size := hc.size ▸ (List.getElem?_eq_some_iff.mp hshape).1
  have hcell := Array.getElem?_eq_getElem hlt
  rw [Heap.cell, hcell]
  exact hc.cells ref _ shape hcell hshape

/-- A new array of elements of a type. -/
theorem Conforms.alloc {c : Cell} {shape : Shape} (hc : h.Conforms shapes)
    (hsize : c.elements.size = shape.length) (hv : ∀ v ∈ c.elements, HasType shapes v shape.element) :
    (h.alloc c).2.Conforms (shapes ++ [shape]) := by
  have hle : shapes <+: shapes ++ [shape] := List.prefix_append ..
  constructor
  case size => simp [Heap.alloc, hc.size]
  case cells =>
    intro ref c' shape' hcell hshape
    rw [Heap.alloc, Array.getElem?_push] at hcell
    split at hcell
    case isTrue hnew =>
      cases hcell
      rw [hnew, hc.size, List.getElem?_concat_length] at hshape
      cases hshape
      exact ⟨hsize, fun v hmem => (hv v hmem).mono hle⟩
    case isFalse =>
      have hlt : ref < shapes.length := hc.size ▸ (Array.getElem?_eq_some_iff.mp hcell).1
      rw [List.getElem?_append_left hlt] at hshape
      obtain ⟨hlen, helements⟩ := hc.cells ref c' shape' hcell hshape
      exact ⟨hlen, fun v hmem => (helements v hmem).mono hle⟩

theorem Conforms.hasType_new {shape : Shape} (hc : h.Conforms shapes) :
    HasType (shapes ++ [shape]) (.array h.cells.size) (.array shape.element) := by
  have hnew : (shapes ++ [shape])[h.cells.size]? = some shape := by
    rw [hc.size]
    exact List.getElem?_concat_length
  exact .array hnew (.inr rfl)

theorem Conforms.write {ref index : Nat} {shape : Shape} {v : Value} (hc : h.Conforms shapes)
    (hshape : shapes[ref]? = some shape) (hv : HasType shapes v shape.element) :
    (h.write ref index v).Conforms shapes := by
  constructor
  case size => simp [Heap.write, hc.size]
  case cells =>
    intro ref' c shape' hcell hshape'
    rw [Heap.write, Array.getElem?_modify] at hcell
    split at hcell
    case isTrue href =>
      subst href
      cases hshape.symm.trans hshape'
      obtain ⟨c₀, hc₀, rfl⟩ := Option.map_eq_some_iff.mp hcell
      obtain ⟨hlen, helements⟩ := hc.cells ref c₀ shape hc₀ hshape
      refine ⟨by simpa using hlen, fun x hx => ?_⟩
      rcases Array.mem_or_eq_of_mem_setIfInBounds hx with hx | rfl
      · exact helements x hx
      · exact hv
    case isFalse => exact hc.cells ref' c shape' hcell hshape'

/-- What a variable of a type starts with is of the type. -/
theorem Conforms.defaultOf (hc : h.Conforms shapes) (type : Ty) :
    ∃ shapes', shapes <+: shapes' ∧ (h.defaultOf type.kind).2.Conforms shapes' ∧
      (type ≠ .empty → HasType shapes' (h.defaultOf type.kind).1 type) := by
  cases type with
  | array element =>
    exact ⟨shapes ++ [⟨element, 0, fun _ => rfl⟩], List.prefix_append .., hc.alloc rfl (by simp),
      fun _ => hc.hasType_new⟩
  | empty => exact ⟨shapes, List.prefix_rfl, hc, fun hne => absurd rfl hne⟩
  | _ => exact ⟨shapes, List.prefix_rfl, hc, fun _ => .scalar rfl rfl⟩

end Heap

/-- Places of some types hold values of these types. A place of the type without values may
hold anything. -/
def Holds (shapes : Shapes) (values : Array Value) (types : List Ty) : Prop :=
  ∀ (n : Nat) (type : Ty), types[n]? = some type →
    ∃ v, values[n]? = some v ∧ (type ≠ .empty → HasType shapes v type)

namespace Holds

variable {shapes shapes' : Shapes} {values : Array Value} {types : List Ty}

theorem mono (h : Holds shapes values types) (hle : shapes <+: shapes') :
    Holds shapes' values types := by
  intro n type htype
  obtain ⟨v, hv, hty⟩ := h n type htype
  exact ⟨v, hv, fun hne => (hty hne).mono hle⟩

theorem nil : Holds shapes [].toArray [] := nofun

theorem cons {type : Ty} {v : Value} {vs : List Value} (hv : HasType shapes v type)
    (h : Holds shapes vs.toArray types) : Holds shapes (v :: vs).toArray (type :: types) := by
  intro n type' htype
  cases n with
  | zero =>
    cases htype
    exact ⟨v, rfl, fun _ => hv⟩
  | succ n =>
    obtain ⟨u, hu, hty⟩ := h n type' htype
    exact ⟨u, by simpa using hu, hty⟩

theorem set {n : Nat} {type : Ty} {v : Value} (h : Holds shapes values types)
    (htype : types[n]? = some type) (hv : HasType shapes v type) :
    n < values.size ∧ Holds shapes (values.setIfInBounds n v) types := by
  obtain ⟨old, hold, -⟩ := h n type htype
  refine ⟨(Array.getElem?_eq_some_iff.mp hold).1, fun k type' htype' => ?_⟩
  obtain ⟨u, hu, hty⟩ := h k type' htype'
  rw [Array.getElem?_setIfInBounds]
  by_cases hk : n = k
  · subst hk
    cases htype.symm.trans htype'
    exact ⟨v, by simp [(Array.getElem?_eq_some_iff.mp hold).1], fun _ => hv⟩
  · exact ⟨u, by rw [if_neg hk, hu], hty⟩

theorem push {type : Ty} {v : Value} (h : Holds shapes values types)
    (hsize : values.size = types.length) (hv : type ≠ .empty → HasType shapes v type) :
    Holds shapes (values.push v) (types ++ [type]) := by
  intro n type' htype
  rw [Array.getElem?_push]
  by_cases hn : n = types.length
  · subst hn
    rw [List.getElem?_concat_length] at htype
    cases htype
    exact ⟨v, by rw [if_pos hsize.symm], hv⟩
  · have hlt : n < types.length := by
      have := (List.getElem?_eq_some_iff.mp htype).1
      simp only [List.length_append, List.length_singleton] at this
      omega
    rw [List.getElem?_append_left hlt] at htype
    rw [if_neg (by omega)]
    exact h n type' htype

end Holds

/-- The slots of an activation hold values of their types. -/
theorem Heap.Conforms.fill {h : Heap} {shapes : Shapes} (types : List Ty) {done : List Ty}
    {locals : Array Value} (hc : h.Conforms shapes) (hholds : Holds shapes locals done)
    (hsize : locals.size = done.length) :
    ∃ shapes', shapes <+: shapes' ∧ (Semantics.World.fill h locals types).2.Conforms shapes' ∧
      Holds shapes' (Semantics.World.fill h locals types).1 (done ++ types) := by
  induction types generalizing h locals shapes done with
  | nil => exact ⟨shapes, List.prefix_rfl, hc, by rwa [List.append_nil]⟩
  | cons type types ih =>
    obtain ⟨shapes₁, hle₁, hc₁, hv⟩ := hc.defaultOf type
    obtain ⟨shapes₂, hle₂, hc₂, hholds₂⟩ :=
      ih hc₁ ((hholds.mono hle₁).push hsize hv) (by simp [hsize])
    refine ⟨shapes₂, hle₁.trans hle₂, hc₂, ?_⟩
    rwa [List.append_assoc, List.singleton_append] at hholds₂

/-- What the state of the host relies on, such as the types of the arrays it remembers. New
arrays do not disturb it. -/
structure Holdings (σ : Type) where
  fits : Shapes → σ → Prop
  mono : ∀ {shapes shapes' : Shapes} {s : σ}, shapes <+: shapes' → fits shapes s → fits shapes' s

/-- A host that remembers no arrays. -/
def Holdings.none (σ : Type) : Holdings σ := ⟨fun _ _ => True, fun _ _ => trivial⟩

/-- What a native of a return type comes to: a value of the type, or a failure of its own. -/
inductive Answers {σ : Type} (holdings : Holdings σ) (shapes : Shapes) (type : Ty) :
    Except Stop (Option Value) × Heap × σ → Prop where
  | value {v : Option Value} {heap : Heap} {host : σ} {shapes' : Shapes} : shapes <+: shapes' →
      heap.Conforms shapes' → holdings.fits shapes' host → Gives shapes' v type →
      Answers holdings shapes type (.ok v, heap, host)
  | failure {name message : String} {heap : Heap} {host : σ} :
      Answers holdings shapes type (.error (.fault (.native name message)), heap, host)

/-- A native does what its signature says, whatever arrays there are. It may make new arrays;
those that were there keep their shapes. -/
def Native.Respects {σ : Type} (f : Native σ) (holdings : Holdings σ) (n : NativeSignature) : Prop :=
  ∀ (shapes : Shapes) (heap : Heap) (args : List Value) (host : σ), heap.Conforms shapes →
    holdings.fits shapes host → args.length = n.params.length →
    Holds shapes args.toArray n.params → Answers holdings shapes n.returnType (f args heap host)

/-- The natives do what the host's signatures say. -/
def Host.Respected {σ : Type} (host : Host) (holdings : Holdings σ) (natives : Array (Native σ)) :
    Prop :=
  ∀ (i : Nat) (n : NativeSignature), host.natives[i]? = some n →
    ∃ f, natives[i]? = some f ∧ f.Respects holdings n

/-- Variables and parameters have values, and sums of strings are strings. -/
structure Host.Regular (host : Host) : Prop where
  globals : ∀ g ∈ host.globals, g.type ≠ .empty
  params : ∀ n ∈ host.natives, Ty.empty ∉ n.params
  concat : ∀ n ∈ host.natives, foldName n.name = foldName Host.concatName → n.returnType = .string

end TurtleScript

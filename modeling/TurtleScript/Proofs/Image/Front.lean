import TurtleScript.Proofs.Image.Bodies

/-!
# What stands before the code

An image is a front and a code section. The front holds everything but the bodies: it
ends with the definitions of the functions, in the order of the image, and with the
place of each body. Its own places follow from the lengths of its parts, so a front is
read in one way only.
-/
namespace TurtleScript.Image

section Order

variable {α : Type} (key : α → UInt32)

theorem decide_le_trans (a b c : α) (hab : decide (key a ≤ key b) = true)
    (hbc : decide (key b ≤ key c) = true) : decide (key a ≤ key c) = true :=
  decide_eq_true (UInt32.le_trans (of_decide_eq_true hab) (of_decide_eq_true hbc))

theorem decide_le_total (a b : α) : (decide (key a ≤ key b) || decide (key b ≤ key a)) = true := by
  simpa using UInt32.le_total (key a) (key b)

theorem insertByKey_append {a : α} {xs ys : List α} (hx : ∀ b ∈ xs, ¬ key a ≤ key b)
    (hy : ∀ b ∈ ys, key a ≤ key b) :
    insertByKey key a (xs ++ ys) = xs ++ a :: ys := by
  induction xs with
  | nil =>
    cases ys with
    | nil => rfl
    | cons b ys => exact if_pos (hy b List.mem_cons_self)
  | cons b xs ih =>
    obtain ⟨hb, hx⟩ := List.forall_mem_cons.mp hx
    rw [List.cons_append, insertByKey, if_neg hb, ih hx, List.cons_append]

/-- Ordering by key is the library's stable sort. -/
theorem sortByKey_eq_mergeSort (as : List α) :
    sortByKey key as = as.mergeSort fun a b => key a ≤ key b := by
  induction as with
  | nil => rw [sortByKey, List.foldr_nil, List.mergeSort_nil]
  | cons a as ih =>
    obtain ⟨xs, ys, hcons, hsort, hx⟩ :=
      List.mergeSort_cons (decide_le_trans key) (decide_le_total key) a as
    have hsorted := List.pairwise_mergeSort (decide_le_trans key) (decide_le_total key) (a :: as)
    rw [hcons, List.pairwise_append, List.pairwise_cons] at hsorted
    change insertByKey key a (sortByKey key as) = _
    rw [ih, hsort, hcons]
    refine insertByKey_append key (fun b hb => ?_) fun b hb => ?_
    · simpa using hx b hb
    · simpa using hsorted.2.1.1 b hb

theorem mem_sortByKey {a : α} {as : List α} : a ∈ sortByKey key as ↔ a ∈ as := by
  rw [sortByKey_eq_mergeSort, List.mem_mergeSort]

theorem sortByKey_perm (as : List α) : (sortByKey key as).Perm as := by
  rw [sortByKey_eq_mergeSort]
  exact List.mergeSort_perm as _

theorem sortByKey_of_pairwise {as : List α} (h : as.Pairwise fun a b => key a ≤ key b) :
    sortByKey key as = as := by
  rw [sortByKey_eq_mergeSort]
  exact List.mergeSort_of_pairwise (h.imp decide_eq_true)

theorem pairwise_sortByKey (as : List α) :
    (sortByKey key as).Pairwise fun a b => key a ≤ key b := by
  rw [sortByKey_eq_mergeSort]
  exact (List.pairwise_mergeSort (decide_le_trans key) (decide_le_total key) as).imp of_decide_eq_true

end Order

structure Heading where
  form : Addressing
  name : String
  vendor : String
  version : Version
  entryPoint : UInt32

/-- The parts of an image before its code section. -/
structure Front extends Heading where
  constants : List Constant
  types : List TypeDef
  defs : List (FunctionDef × Nat)
  codeLength : Nat

/-- The lengths of the sections, as they are counted in a front. -/
def Front.counts (f : Front) : Read.SectionTable where
  constants := f.constants.length
  types := f.types.length
  typeRefs := 0
  functions := f.defs.length
  functionRefs := 0
  code := f.codeLength

def Read.SectionTable.toList (t : Read.SectionTable) : List Nat :=
  [t.constants, t.types, t.typeRefs, t.functions, t.functionRefs, t.code]

/-- Everything up to the entry function. -/
def heading (h : Heading) : Except ImageProblem (List UInt8) := do
  let name ← text h.name
  let vendor ← text h.vendor
  return magic ++ word 2 formatVersion ++ [flag h.form] ++ name ++ vendor ++
    h.version.toList.flatMap (fun part => word 2 part.toNat) ++ word32 h.entryPoint

/-- The starts of the sections of a front whose records start at `start`. -/
def starts (start : Nat) (constants types defs : List UInt8) : Read.SectionTable where
  constants := start
  types := start + constants.length
  typeRefs := start + constants.length + types.length
  functions := start + constants.length + types.length
  functionRefs := start + constants.length + types.length + defs.length
  code := start + constants.length + types.length + defs.length

/-- The bytes of a front. -/
def front (f : Front) : Except ImageProblem (List UInt8) := do
  let constants ← concat constant f.constants
  let types ← concat typeDef f.types
  let defs ← concat (fun p => functionDef p.1 p.2) f.defs
  let head ← heading f.toHeading
  let counts ← concat sized f.counts.toList
  let starts ← concat sized (starts (head.length + 48) constants types defs).toList
  return head ++ counts ++ starts ++ constants ++ types ++ defs

theorem length_sized {n : Nat} {bytes : List UInt8} (h : sized n = .ok bytes) :
    bytes.length = 4 := by
  rw [sized] at h
  split at h
  · cases h
    exact length_word 4 n
  · cases h

theorem length_concat_sized {ns : List Nat} {bytes : List UInt8}
    (h : concat sized ns = .ok bytes) : bytes.length = 4 * ns.length := by
  induction ns generalizing bytes with
  | nil =>
    cases h
    rfl
  | cons n ns ih =>
    obtain ⟨first, hf, h1⟩ := Except.bind_eq_ok h
    obtain ⟨rest, hr, h2⟩ := Except.bind_eq_ok h1
    cases h2
    rw [List.length_append, length_sized hf, ih hr, List.length_cons]
    omega

theorem pointers_eq_starts (n : Nat) {counts : List UInt8} (h : counts.length = 24)
    (constants types defs code : List UInt8) :
    pointers (n + counts.length + 4 * [constants, types, [], defs, [], code].length)
      [constants, types, [], defs, [], code] = (starts (n + 48) constants types defs).toList := by
  rw [h, show n + 24 + 4 * [constants, types, [], defs, [], code].length = n + 48 from rfl]
  rfl

/-- The parts that a front is written in. -/
theorem front_eq_ok_iff {f : Front} {b : List UInt8} :
    front f = .ok b ↔ ∃ constants types defs before counts places,
      concat constant f.constants = .ok constants ∧ concat typeDef f.types = .ok types ∧
      concat (fun p => functionDef p.1 p.2) f.defs = .ok defs ∧ heading f.toHeading = .ok before ∧
      concat sized f.counts.toList = .ok counts ∧
      concat sized (starts (before.length + 48) constants types defs).toList = .ok places ∧
      b = before ++ counts ++ places ++ constants ++ types ++ defs := by
  constructor
  · intro h
    obtain ⟨constants, hc, h1⟩ := Except.bind_eq_ok h
    obtain ⟨types, ht, h2⟩ := Except.bind_eq_ok h1
    obtain ⟨defs, hd, h3⟩ := Except.bind_eq_ok h2
    obtain ⟨before, hb, h4⟩ := Except.bind_eq_ok h3
    obtain ⟨counts, hn, h5⟩ := Except.bind_eq_ok h4
    obtain ⟨places, hp, h6⟩ := Except.bind_eq_ok h5
    cases h6
    exact ⟨constants, types, defs, before, counts, places, hc, ht, hd, hb, hn, hp, rfl⟩
  · rintro ⟨constants, types, defs, before, counts, places, hc, ht, hd, hb, hn, hp, rfl⟩
    exact (Except.bind_ok hc).trans <| (Except.bind_ok ht).trans <| (Except.bind_ok hd).trans <|
      (Except.bind_ok hb).trans <| (Except.bind_ok hn).trans <| Except.bind_ok hp

theorem bodies_placed {a : Addressing} {base : Nat} {fs : List FunctionDef}
    {placed : List (FunctionDef × Nat)} {code : List UInt8}
    (h : Image.bodies a base fs = .ok (placed, code)) : placed.map (·.1) = fs := by
  induction fs generalizing base placed code with
  | nil =>
    cases h
    rfl
  | cons f fs ih =>
    obtain ⟨first, placed', rest, _, hr, rfl, _⟩ := Read.bodies_cons h
    rw [List.map_cons, ih hr]

/-- The front of a module whose bodies have these places and fill `codeLength` bytes. -/
def frontOf (m : Module) (a : Addressing) (placed : List (FunctionDef × Nat)) (codeLength : Nat) :
    Front :=
  { m with form := a, constants := m.constants.toList, defs := placed, codeLength }

/-- A module is written as a front, the boot code and the bodies. -/
theorem bytes_eq_ok {m : Module} {a : Addressing} {b : List UInt8} :
    Image.bytes m a = .ok b ↔
      (∃ f ∈ m.functions, f.id = m.entryPoint) ∧
      ∃ placed code before,
        Image.bodies a ((Module.boot m.entryPoint).toList.flatMap instr).length
          (sortByKey (·.id) m.functions.toList) = .ok (placed, code) ∧
        front (frontOf m a placed
          ((Module.boot m.entryPoint).toList.flatMap instr ++ code).length) = .ok before ∧
        b = before ++ ((Module.boot m.entryPoint).toList.flatMap instr ++ code) := by
  generalize hboot : (Module.boot m.entryPoint).toList.flatMap instr = boot
  have hentry : (sortByKey (·.id) m.functions.toList).all (·.id ≠ m.entryPoint) = false ↔
      ∃ f ∈ m.functions, f.id = m.entryPoint := by
    simp [List.all_eq_false, mem_sortByKey]
  by_cases hall : (sortByKey (·.id) m.functions.toList).all (·.id ≠ m.entryPoint) = true
  · have herr : Image.bytes m a = .error (.noEntryFunction m.entryPoint.toNat) := if_pos hall
    constructor
    · intro h
      cases herr.symm.trans h
    · rintro ⟨he, _⟩
      rw [hentry.mpr he] at hall
      cases hall
  · have hsome := hentry.mp (Bool.eq_false_iff.mpr hall)
    have hcount {placed : List (FunctionDef × Nat)} {code : List UInt8}
        (h : Image.bodies a boot.length (sortByKey (·.id) m.functions.toList) =
          .ok (placed, code)) :
        [m.constants.size, m.types.length, 0, (sortByKey (·.id) m.functions.toList).length, 0,
          (boot ++ code).length] = (frontOf m a placed (boot ++ code).length).counts.toList := by
      rw [← bodies_placed h, List.length_map]
      rfl
    subst hboot
    constructor
    · intro h
      have h1 := (if_neg hall).symm.trans h
      obtain ⟨⟨placed, code⟩, hbodies, h2⟩ := Except.bind_eq_ok h1
      obtain ⟨constants, hc, h3⟩ := Except.bind_eq_ok h2
      obtain ⟨types, ht, h4⟩ := Except.bind_eq_ok h3
      obtain ⟨defs, hd, h5⟩ := Except.bind_eq_ok h4
      obtain ⟨name, hn, h6⟩ := Except.bind_eq_ok h5
      obtain ⟨vendor, hv, h7⟩ := Except.bind_eq_ok h6
      obtain ⟨counts, hcounts, h8⟩ := Except.bind_eq_ok h7
      obtain ⟨places, hplaces, h9⟩ := Except.bind_eq_ok h8
      rw [hcount hbodies] at hcounts
      rw [pointers_eq_starts _ (length_concat_sized hcounts)] at hplaces
      cases h9
      refine ⟨hsome, placed, code, _, hbodies, front_eq_ok_iff.mpr ⟨constants, types, defs, _,
        counts, places, hc, ht, hd,
        (Except.bind_ok hn).trans (Except.bind_ok hv), hcounts, hplaces, rfl⟩, ?_⟩
      simp only [List.flatten_cons, List.flatten_nil, List.append_nil, List.append_assoc,
        List.nil_append]
      rfl
    · rintro ⟨_, placed, code, before, hbodies, hfront, rfl⟩
      obtain ⟨constants, types, defs, hd, counts, places, hc, ht, hdefs, hhead, hcounts, hplaces,
        rfl⟩ := front_eq_ok_iff.mp hfront
      obtain ⟨name, hn, h1⟩ := Except.bind_eq_ok hhead
      obtain ⟨vendor, hv, h2⟩ := Except.bind_eq_ok h1
      cases h2
      refine (if_neg hall).trans <| (Except.bind_ok hbodies).trans <| (Except.bind_ok hc).trans <|
        (Except.bind_ok ht).trans <| (Except.bind_ok hdefs).trans <| (Except.bind_ok hn).trans <|
        (Except.bind_ok hv).trans <| (Except.bind_ok (hcount hbodies ▸ hcounts)).trans <|
        (Except.bind_ok (a := places) ?_).trans ?_
      · rw [pointers_eq_starts _ (length_concat_sized hcounts)]
        exact hplaces
      · simp only [List.flatten_cons, List.flatten_nil, List.append_nil, List.append_assoc,
          List.nil_append]
        rfl

namespace Read

def format : Read Unit := do
  let format ← word16
  if format.toNat ≠ formatVersion then fail (.formatVersion format)

def heading : Read Heading := do
  signature
  format
  return {
    form := ← addressing
    name := ← text
    vendor := ← text
    version := ← version
    entryPoint := ← word32 }

/-- The parts of an image up to its code. -/
def front : Read Front := do
  let heading ← heading
  let counts ← sectionTable
  let starts ← sectionTable
  reserved "type-refs" counts.typeRefs
  reserved "function-refs" counts.functionRefs
  sectionStart "constants" starts.constants
  let constants ← many constant counts.constants
  sectionStart "types" starts.types
  let types ← many typeDef counts.types
  sectionStart "type-refs" starts.typeRefs
  sectionStart "functions" starts.functions
  let defs ← many functionDef counts.functions
  sectionStart "function-refs" starts.functionRefs
  sectionStart "code" starts.code
  return { heading with constants, types, defs, codeLength := counts.code }

/-- The code section, and the module that it completes. -/
def back (f : Front) : Read Module := do
  let placed := sortByKey (·.1.id) f.defs
  if placed.all (·.1.id ≠ f.entryPoint) then fail (.noEntryFunction f.entryPoint.toNat)
  let start ← position
  boot (Module.boot f.entryPoint).toList
  let functions ← bodies f.form start f.codeLength placed
  let left := (← get).rest.length
  if left ≠ 0 then fail (.trailingBytes left)
  return { f with constants := f.constants.toArray, functions := functions.toArray }

theorem module_eq : Read.module = front >>= back := by
  simp only [front, heading, format, bind_assoc, pure_bind]
  refine congrArg (signature >>= ·) (funext fun _ => congrArg (Read.word16 >>= ·) (funext fun n => ?_))
  by_cases hn : n.toNat ≠ formatVersion
  · simp only [if_pos hn]
    rfl
  · simp only [if_neg hn]
    rfl

theorem signature_codec : Codec signature fun _ => .ok magic where
  reads {u bytes} h := by
    cases h
    intro position rest
    rw [signature, (take_reads magic).bind_apply]
    rfl
  writes {c d u} h := by
    obtain ⟨bytes, e, hb, hk⟩ := bind_eq_ok h
    obtain ⟨_, ht⟩ := take_eq_ok hb
    split at hk
    · cases hk
    · rename_i hm
      obtain ⟨_, rfl⟩ := pure_eq_ok hk
      exact ⟨magic, rfl, Decidable.not_not.mp hm ▸ ht⟩

theorem addressing_codec : Codec addressing fun a => .ok [Image.flag a] where
  reads {a bytes} h := by
    cases h
    intro position rest
    rw [addressing, (byte_codec.reads rfl).bind_apply]
    cases a <;> rfl
  writes {c d a} h := by
    obtain ⟨b, e, hb, hk⟩ := bind_eq_ok h
    obtain ⟨bytes, hw, ht⟩ := byte_codec.writes hb
    cases hw
    split at hk
    · obtain ⟨rfl, rfl⟩ := pure_eq_ok hk
      exact ⟨_, rfl, ht⟩
    · obtain ⟨rfl, rfl⟩ := pure_eq_ok hk
      exact ⟨_, rfl, ht⟩
    · cases hk

theorem version_codec :
    Codec version fun v => .ok (v.toList.flatMap fun part => word 2 part.toNat) where
  reads {v bytes} h := by
    cases h
    exact (word16_codec.reads rfl).bind <| (word16_codec.reads rfl).bind <|
      (word16_codec.reads rfl).bind <| (word16_codec.reads rfl).bind (reads_pure v)
  writes {c e v} h := by
    obtain ⟨major, c1, h1, r1⟩ := bind_eq_ok h
    obtain ⟨minor, c2, h2, r2⟩ := bind_eq_ok r1
    obtain ⟨build, c3, h3, r3⟩ := bind_eq_ok r2
    obtain ⟨revision, c4, h4, r4⟩ := bind_eq_ok r3
    obtain ⟨rfl, rfl⟩ := pure_eq_ok r4
    obtain ⟨_, w1, t1⟩ := word16_codec.writes h1
    obtain ⟨_, w2, t2⟩ := word16_codec.writes h2
    obtain ⟨_, w3, t3⟩ := word16_codec.writes h3
    obtain ⟨_, w4, t4⟩ := word16_codec.writes h4
    cases w1
    cases w2
    cases w3
    cases w4
    exact ⟨_, rfl, t1.trans <| t2.trans <| t3.trans <| t4.trans <| .refl _⟩

theorem format_codec : Codec format fun _ => .ok (word 2 formatVersion) where
  reads {u bytes} h := by
    cases h
    intro position rest
    have hr : Reads word16 (word 2 formatVersion) 1 := word16_codec.reads rfl
    rw [format, hr.bind_apply]
    rfl
  writes {c d u} h := by
    obtain ⟨n, e, hn, hk⟩ := bind_eq_ok h
    obtain ⟨bytes, hw, ht⟩ := word16_codec.writes hn
    cases hw
    split at hk
    · cases hk
    · rename_i hv
      obtain ⟨_, rfl⟩ := pure_eq_ok hk
      exact ⟨_, rfl, Decidable.not_not.mp hv ▸ ht⟩

theorem heading_codec : Codec heading Image.heading where
  reads {h bytes} hw := by
    obtain ⟨name, hn, h1⟩ := Except.bind_eq_ok hw
    obtain ⟨vendor, hv, h2⟩ := Except.bind_eq_ok h1
    cases h2
    simp only [List.append_assoc]
    exact (signature_codec.reads (a := ()) rfl).bind <| (format_codec.reads (a := ()) rfl).bind <|
      (addressing_codec.reads rfl).bind <| (text_codec.reads hn).bind <|
      (text_codec.reads hv).bind <| (version_codec.reads rfl).bind <|
      (word32_codec.reads rfl).map _
  writes {c e h} hr := by
    obtain ⟨_, c1, h1, r1⟩ := bind_eq_ok hr
    obtain ⟨_, c2, h2, r2⟩ := bind_eq_ok r1
    obtain ⟨form, c3, h3, r3⟩ := bind_eq_ok r2
    obtain ⟨name, c4, h4, r4⟩ := bind_eq_ok r3
    obtain ⟨vendor, c5, h5, r5⟩ := bind_eq_ok r4
    obtain ⟨version, c6, h6, r6⟩ := bind_eq_ok r5
    obtain ⟨entryPoint, c7, h7, r7⟩ := bind_eq_ok r6
    obtain ⟨rfl, rfl⟩ := pure_eq_ok r7
    obtain ⟨_, w1, t1⟩ := signature_codec.writes h1
    obtain ⟨_, w2, t2⟩ := format_codec.writes h2
    obtain ⟨_, w3, t3⟩ := addressing_codec.writes h3
    obtain ⟨_, w4, t4⟩ := text_codec.writes h4
    obtain ⟨_, w5, t5⟩ := text_codec.writes h5
    obtain ⟨_, w6, t6⟩ := version_codec.writes h6
    obtain ⟨_, w7, t7⟩ := word32_codec.writes h7
    cases w1
    cases w2
    cases w3
    cases w6
    cases w7
    exact ⟨_, (Except.bind_ok w4).trans (Except.bind_ok w5),
      (((((t1.trans t2).trans t3).trans t4).trans t5).trans t6).trans t7⟩

def SectionTable.ofList : List Nat → SectionTable
  | [constants, types, typeRefs, functions, functionRefs, code] =>
    { constants, types, typeRefs, functions, functionRefs, code }
  | _ => ⟨0, 0, 0, 0, 0, 0⟩

theorem SectionTable.toList_ofList {ns : List Nat} (h : ns.length = 6) : (ofList ns).toList = ns := by
  match ns, h with
  | [_, _, _, _, _, _], _ => rfl

/-- A table is read as a sequence of six numbers is. -/
theorem sectionTable_eq : sectionTable = do return .ofList (← many (number 4) 6) := by
  simp only [many, bind_assoc, pure_bind]
  rfl

theorem sectionTable_codec : Codec sectionTable fun t => concat sized t.toList where
  reads h := by
    rw [sectionTable_eq]
    exact (many_reads sized_codec h).map SectionTable.ofList
  writes h := by
    rw [sectionTable_eq] at h
    obtain ⟨ns, d, hn, hp⟩ := bind_eq_ok h
    obtain ⟨rfl, rfl⟩ := pure_eq_ok hp
    obtain ⟨hlen, bytes, hw, ht⟩ := many_eq_ok sized_codec hn
    exact ⟨bytes, (SectionTable.toList_ofList hlen).symm ▸ hw, ht⟩

section Defs

variable {placed : List (FunctionDef × Nat)} {bytes : List UInt8}

/-- The parameters of every definition have slots. -/
def ParamsFit (placed : List (FunctionDef × Nat)) : Prop :=
  ∀ p ∈ placed, p.1.paramCount.toNat ≤ p.1.slots.length

theorem defs_reads (h : concat (fun p => Image.functionDef p.1 p.2) placed = .ok bytes)
    (hp : ParamsFit placed) :
    Reads (many functionDef placed.length) bytes (placed.map definition) := by
  induction placed generalizing bytes with
  | nil =>
    cases h
    exact reads_pure []
  | cons p placed ih =>
    obtain ⟨first, hf, h1⟩ := Except.bind_eq_ok h
    obtain ⟨rest, hr, h2⟩ := Except.bind_eq_ok h1
    cases h2
    obtain ⟨hp, hps⟩ := List.forall_mem_cons.mp hp
    exact (functionDef_reads hf hp).bind ((ih hr hps).map _)

theorem defs_fail (h : concat (fun p => Image.functionDef p.1 p.2) placed = .ok bytes)
    (hp : ¬ ParamsFit placed) (position : Nat) (rest : List UInt8) :
    ∃ d, many functionDef placed.length ⟨position, bytes ++ rest⟩ = .error d := by
  induction placed generalizing bytes position with
  | nil => exact absurd nofun hp
  | cons p placed ih =>
    obtain ⟨first, hf, h1⟩ := Except.bind_eq_ok h
    obtain ⟨others, hr, h2⟩ := Except.bind_eq_ok h1
    cases h2
    rw [List.append_assoc, List.length_cons, many, Read.bind_apply, functionDef_apply hf]
    by_cases hlt : p.1.slots.length < p.1.paramCount.toNat
    · rw [if_pos hlt]
      exact ⟨_, rfl⟩
    · rw [if_neg hlt]
      have hps : ¬ ParamsFit placed := fun hps =>
        hp (List.forall_mem_cons.mpr ⟨Nat.not_lt.mp hlt, hps⟩)
      obtain ⟨d, hd⟩ := ih hr hps (position + first.length)
      exact ⟨d, by simp only [Read.bind_apply, hd]⟩

theorem defs_eq_ok {n : Nat} {c d : Cursor} (h : many functionDef n c = .ok (placed, d)) :
    placed.length = n ∧ (∀ p ∈ placed, bare p.1 = p.1) ∧ ParamsFit placed ∧
      ∃ bytes, concat (fun p => Image.functionDef p.1 p.2) placed = .ok bytes ∧
        Takes c bytes d := by
  induction n generalizing c placed with
  | zero =>
    obtain ⟨rfl, rfl⟩ := pure_eq_ok h
    exact ⟨rfl, nofun, nofun, [], rfl, .refl c⟩
  | succ n ih =>
    obtain ⟨p, e, hp, hk⟩ := bind_eq_ok h
    obtain ⟨ps, e', hps, hr⟩ := bind_eq_ok hk
    obtain ⟨rfl, rfl⟩ := pure_eq_ok hr
    obtain ⟨hbare, hfit, first, hf, hc⟩ := functionDef_eq_ok hp
    obtain ⟨hn, hbares, hfits, rest, hw, hd⟩ := ih hps
    exact ⟨congrArg (· + 1) hn, List.forall_mem_cons.mpr ⟨hbare, hbares⟩,
      List.forall_mem_cons.mpr ⟨hfit, hfits⟩, first ++ rest,
      (Except.bind_ok hf).trans (Except.bind_ok hw), hc.trans hd⟩

end Defs

theorem sectionStart_apply {name : String} {pointer : Nat} {c : Cursor} :
    sectionStart name pointer c =
      if c.position = pointer then .ok ((), c)
      else fail (.sectionPointer name pointer c.position) c := by
  change (if c.position ≠ pointer then _ else _ : Read Unit) c = _
  by_cases h : c.position = pointer
  · rw [if_neg (not_not_intro h), if_pos h]
    rfl
  · rw [if_pos h, if_neg h]

theorem sectionStart_bind {α : Type} {name : String} {pointer position : Nat}
    (h : position = pointer) (k : Unit → Read α) (rest : List UInt8) :
    (sectionStart name pointer >>= k) ⟨position, rest⟩ = k () ⟨position, rest⟩ := by
  rw [Read.bind_apply, sectionStart_apply, if_pos h]

theorem sectionStart_eq_ok {name : String} {pointer : Nat} {c d : Cursor} {u : Unit}
    (h : sectionStart name pointer c = .ok (u, d)) : d = c ∧ c.position = pointer := by
  rw [sectionStart_apply] at h
  split at h
  · cases h
    exact ⟨rfl, ‹_›⟩
  · cases h

theorem reserved_bind {α : Type} (name : String) (k : Unit → Read α) (c : Cursor) :
    (reserved name 0 >>= k) c = k () c :=
  rfl

theorem reserved_eq_ok {name : String} {count : Nat} {c d : Cursor} {u : Unit}
    (h : reserved name count c = .ok (u, d)) : d = c ∧ count = 0 := by
  rw [reserved] at h
  split at h
  · cases h
    exact ⟨rfl, ‹_›⟩
  · cases h

section Front

variable {f : Front} {bytes : List UInt8}

/-- A written front is read up to its definitions, and to its end if the parameters of
all of them have slots. -/
theorem front_apply (h : Image.front f = .ok bytes) (rest : List UInt8) :
    (ParamsFit f.defs → front ⟨0, bytes ++ rest⟩ =
      .ok ({ f with defs := f.defs.map definition }, ⟨bytes.length, rest⟩)) ∧
    (¬ ParamsFit f.defs → ∃ d, front ⟨0, bytes ++ rest⟩ = .error d) := by
  obtain ⟨constants, types, defs, before, counts, places, hc, ht, hd, hb, hn, hp, rfl⟩ :=
    front_eq_ok_iff.mp h
  have hcounts : counts.length = 24 := length_concat_sized hn
  have hplaces : places.length = 24 := length_concat_sized hp
  have hbefore : 0 + before.length + counts.length + places.length = before.length + 48 := by omega
  simp only [List.append_assoc]
  rw [front, (heading_codec.reads hb).bind_apply, (sectionTable_codec.reads hn).bind_apply,
    (sectionTable_codec.reads hp).bind_apply, hbefore]
  simp only [Front.counts, starts]
  rw [reserved_bind, reserved_bind, sectionStart_bind rfl, (many_reads constant_codec hc).bind_apply,
    sectionStart_bind rfl, (many_reads typeDef_codec ht).bind_apply, sectionStart_bind rfl,
    sectionStart_bind rfl]
  constructor
  · intro hfit
    rw [(defs_reads hd hfit).bind_apply, sectionStart_bind rfl, sectionStart_bind rfl]
    have hend : before.length + 48 + constants.length + types.length + defs.length =
        (before ++ (counts ++ (places ++ (constants ++ (types ++ defs))))).length := by
      simp only [List.length_append]
      omega
    rw [hend]
    rfl
  · intro hfit
    obtain ⟨d, hd⟩ := defs_fail hd hfit (before.length + 48 + constants.length + types.length) rest
    exact ⟨d, by rw [Read.bind_apply, hd]⟩

theorem front_eq_ok {b : List UInt8} {d : Cursor} (h : front ⟨0, b⟩ = .ok (f, d)) :
    (∀ p ∈ f.defs, bare p.1 = p.1) ∧ ParamsFit f.defs ∧
      ∃ bytes, Image.front f = .ok bytes ∧ Takes ⟨0, b⟩ bytes d := by
  obtain ⟨heading, c1, h1, r1⟩ := bind_eq_ok h
  obtain ⟨counts, c2, h2, r2⟩ := bind_eq_ok r1
  obtain ⟨places, c3, h3, r3⟩ := bind_eq_ok r2
  obtain ⟨_, c4, h4, r4⟩ := bind_eq_ok r3
  obtain ⟨_, c5, h5, r5⟩ := bind_eq_ok r4
  obtain ⟨_, c6, h6, r6⟩ := bind_eq_ok r5
  obtain ⟨constants, c7, h7, r7⟩ := bind_eq_ok r6
  obtain ⟨_, c8, h8, r8⟩ := bind_eq_ok r7
  obtain ⟨types, c9, h9, r9⟩ := bind_eq_ok r8
  obtain ⟨_, c10, h10, r10⟩ := bind_eq_ok r9
  obtain ⟨_, c11, h11, r11⟩ := bind_eq_ok r10
  obtain ⟨defs, c12, h12, r12⟩ := bind_eq_ok r11
  obtain ⟨_, c13, h13, r13⟩ := bind_eq_ok r12
  obtain ⟨_, c14, h14, r14⟩ := bind_eq_ok r13
  obtain ⟨rfl, rfl⟩ := pure_eq_ok r14
  obtain ⟨rfl, hrefs⟩ := reserved_eq_ok h4
  obtain ⟨rfl, hfuns⟩ := reserved_eq_ok h5
  obtain ⟨rfl, p1⟩ := sectionStart_eq_ok h6
  obtain ⟨rfl, p2⟩ := sectionStart_eq_ok h8
  obtain ⟨rfl, p3⟩ := sectionStart_eq_ok h10
  obtain ⟨rfl, p4⟩ := sectionStart_eq_ok h11
  obtain ⟨rfl, p5⟩ := sectionStart_eq_ok h13
  obtain ⟨rfl, p6⟩ := sectionStart_eq_ok h14
  obtain ⟨before, w1, t1⟩ := heading_codec.writes h1
  obtain ⟨_, w2, t2⟩ := sectionTable_codec.writes h2
  obtain ⟨_, w3, t3⟩ := sectionTable_codec.writes h3
  obtain ⟨hlen1, b1, w4, t4⟩ := many_eq_ok constant_codec h7
  obtain ⟨hlen2, b2, w5, t5⟩ := many_eq_ok typeDef_codec h9
  obtain ⟨hlen3, hbare, hfit, b3, w6, t6⟩ := defs_eq_ok h12
  have hl2 : _ = 24 := length_concat_sized w2
  have hl3 : _ = 24 := length_concat_sized w3
  refine ⟨hbare, hfit, _, front_eq_ok_iff.mpr ⟨b1, b2, b3, before, _, _, w4, w5, w6, w1, ?_, ?_, rfl⟩,
    ((((t1.trans t2).trans t3).trans t4).trans t5).trans t6⟩
  · rw [← w2]
    simp only [Front.counts, SectionTable.toList, hlen1, hlen2, hlen3, hrefs, hfuns]
  · have q1 : c1.position = 0 + before.length := t1.position
    have q2 := t2.position
    have q3 := t3.position
    have q4 := t4.position
    have q5 := t5.position
    have q6 := t6.position
    rw [← w3]
    simp only [starts, SectionTable.toList]
    refine congrArg (concat sized) ?_
    simp only [List.cons.injEq, and_true]
    omega

end Front

end Read

end TurtleScript.Image

import TurtleScript.Machine.Step
import TurtleScript.Proofs.Code.Segments

/-!
# Heights of the operand stack

An instruction takes values off the operand stack and puts others there, and from it control
goes to some places of the code. So a path through code comes with the height of the stack
along it. Code has levels if every place can be given one height that all paths agree on; the
levels of a construct come from those of its parts.
-/
namespace TurtleScript

/-- How many values an expression of the type leaves. -/
def Ty.values (type : Ty) : Nat := if type.isEmpty then 0 else 1

@[simp] theorem Ty.values_empty : Ty.empty.values = 0 := rfl

theorem Ty.values_of_ne {type : Ty} (h : type ≠ .empty) : type.values = 1 :=
  if_neg (by simpa [isEmpty] using h)

/-- What a jump takes off the stack. -/
def JumpKind.takes : JumpKind → Nat
  | .always => 0
  | .ifFalse | .ifTrue => 1

namespace Instr

/-- What an instruction takes off the operand stack. -/
def takes : Instr → Nat
  | nop | loadConst _ | loadLocal _ | loadGlobal _ | pushInt _ | pushDefault _ | halt => 0
  | storeLocal _ | storeGlobal _ | pop | dup | toInt | length | getField _ _ => 1
  | arith _ | compare _ | eq | logic _ | intMul | intAdd | setField _ _ => 2
  | newArray count _ => count.toInt.toNat
  | jump kind _ => kind.takes
  | call _ argc | callNative _ argc => Machine.announced argc
  | ret count => if count = 1 then 1 else 0

/-- Where control may go from an instruction at place `here`: nowhere in this code, if it
returns. -/
def successors (here : Nat) : Instr → List Int
  | jump .always delta => [here + delta.toInt]
  | jump _ delta => [here + 1, here + delta.toInt]
  | ret _ | halt => []
  | _ => [here + 1]

end Instr

variable {σ : Type}

namespace Machine

/-- What an instruction puts on the operand stack: a call, what the callee says that it
returns. -/
def gives (m : Machine σ) (host : Host) : Instr → Nat
  | .nop | .storeLocal _ | .storeGlobal _ | .pop | .jump _ _ | .ret _ | .halt => 0
  | .loadConst _ | .loadLocal _ | .loadGlobal _ | .pushInt _ | .pushDefault _ | .arith _
  | .compare _ | .eq | .logic _ | .toInt | .intMul | .intAdd | .newArray _ _ | .length
  | .getField _ _ | .setField _ _ => 1
  | .dup => 2
  | .call id _ => ((m.callee? id).map fun f => if f.returnType = Ty.empty.id then 0 else 1).getD 0
  | .callNative index _ =>
    (((Int32.index? index).bind (host.natives[·]?)).map (·.returnType.values)).getD 0

/-- The paths through `code` that begin at `start` and have not yet come to `stop`, or have just
come there: the place where they are, and how much higher the stack is than at their
beginning. -/
inductive Path (m : Machine σ) (host : Host) (code : Array Instr) (start stop : Nat) :
    Int → Int → Prop where
  | enter : Path m host code start stop start 0
  | step {here : Nat} {next height : Int} {i : Instr} : Path m host code start stop here height →
      start ≤ here → here < stop → code[here]? = some i → next ∈ i.successors here →
      Path m host code start stop next (height - i.takes + m.gives host i)

/-- All paths through `code` from `start` to `stop` stay between, never take what was on the
stack before, and leave the values of the type. -/
structure Balanced (m : Machine σ) (host : Host) (code : Array Instr) (start stop : Nat)
    (type : Ty) : Prop where
  inside : ∀ place height, Path m host code start stop place height → start ≤ place ∧ place ≤ stop
  above : ∀ (here : Nat) (height : Int) (i : Instr), Path m host code start stop here height →
    here < stop → code[here]? = some i → i.takes ≤ height
  leaves : ∀ height, Path m host code start stop stop height → height = type.values

end Machine

namespace Code

open Machine

/-- The height after an instruction. -/
def after (m : Machine σ) (host : Host) (i : Instr) (height : Nat) : Nat :=
  height - i.takes + m.gives host i

/-- An instruction at place `here` finds what it takes, and the height after it is that of every
place where control may go. -/
def Follows (m : Machine σ) (host : Host) (level : Nat → Nat) (size here : Nat) : Instr → Prop
  | .jump kind delta => kind.takes ≤ level here ∧
      (kind ≠ .always → level (here + 1) = level here - kind.takes) ∧
      ∃ target, target ≤ size ∧ delta = distance (target - here) ∧
        level target = level here - kind.takes
  | .ret count => (Instr.ret count).takes ≤ level here
  | .halt => True
  | i => i.takes ≤ level here ∧ level (here + 1) = after m host i (level here)

/-- Heights for the places of code. -/
def Levels (m : Machine σ) (host : Host) (code : List Instr) (level : Nat → Nat) : Prop :=
  ∀ (k : Nat) (i : Instr), code[k]? = some i → Follows m host level code.length k i

/-- Code that takes the stack from one height to another. -/
def Lifts (m : Machine σ) (host : Host) (code : List Instr) (low high : Nat) : Prop :=
  ∃ level, Levels m host code level ∧ level 0 = low ∧ level code.length = high

/-- The heights `f` up to place `n`, and from there on the heights `g`. -/
def joined (n : Nat) (f g : Nat → Nat) (k : Nat) : Nat := if k < n then f k else g (k - n)

theorem joined_left {n k : Nat} {f g : Nat → Nat} (h : k < n) : joined n f g k = f k := if_pos h

theorem joined_right (n k : Nat) (f g : Nat → Nat) : joined n f g (n + k) = g k := by
  rw [joined, if_neg (by omega), Nat.add_sub_cancel_left]

section Levels

variable {m : Machine σ} {host : Host} {xs ys code test yes no body : List Instr}
  {f g level level' : Nat → Nat} {i : Instr} {kind : JumpKind} {a b low high : Nat}

/-- Code agrees with its heights wherever it is put. -/
theorem Follows.shift {size size' here n : Nat} (h : Follows m host level size here i)
    (hhere : here < size) (hsize : n + size ≤ size')
    (hlevel : ∀ k ≤ size, level' (n + k) = level k) : Follows m host level' size' (n + here) i := by
  have hhere' : level' (n + here) = level here := hlevel here (by omega)
  have hnext : level' (n + here + 1) = level (here + 1) := hlevel (here + 1) (by omega)
  cases i with
  | jump kind delta =>
    obtain ⟨htakes, hfalls, target, htarget, rfl, hjump⟩ := h
    refine ⟨hhere' ▸ htakes, fun hkind => ?_, n + target, by omega, ?_, ?_⟩
    · rw [hnext, hhere']
      exact hfalls hkind
    · congr 1
      omega
    · rw [hlevel target htarget, hhere']
      exact hjump
  | ret count =>
    change (Instr.ret count).takes ≤ level' (n + here)
    rw [hhere']
    exact h
  | halt => trivial
  | _ => exact ⟨hhere' ▸ h.1, by rw [hnext, hhere']; exact h.2⟩

/-- Code agrees with its heights whatever follows it. -/
theorem Follows.widen {size size' here : Nat} (h : Follows m host level size here i)
    (hhere : here < size) (hsize : size ≤ size') (hlevel : ∀ k ≤ size, level' k = level k) :
    Follows m host level' size' here i := by
  rw [← Nat.zero_add here]
  refine h.shift hhere (by rwa [Nat.zero_add]) fun k hk => ?_
  rw [Nat.zero_add, hlevel k hk]

theorem Levels.append (hx : Levels m host xs f) (hy : Levels m host ys g)
    (hmeet : f xs.length = g 0) : Levels m host (xs ++ ys) (joined xs.length f g) := by
  intro k i hi
  by_cases hk : k < xs.length
  · rw [List.getElem?_append_left hk] at hi
    refine (hx k i hi).widen hk (by simp) fun j hj => ?_
    rcases Nat.lt_or_eq_of_le hj with hj | rfl
    · exact joined_left hj
    · exact (joined_right _ 0 f g).trans hmeet.symm
  · obtain ⟨j, rfl⟩ := Nat.exists_eq_add_of_le (Nat.le_of_not_lt hk)
    rw [List.getElem?_append_right (by omega), Nat.add_sub_cancel_left] at hi
    have hj : j < ys.length := (List.getElem?_eq_some_iff.mp hi).1
    exact (hy j i hi).shift hj (by simp) fun j _ => joined_right _ j f g

/-- A jump between two pieces of code, to a place with the height after the jump. -/
theorem Levels.jump (kind : JumpKind) (target : Nat) (hx : Levels m host xs f)
    (hy : Levels m host ys g) (htakes : kind.takes ≤ f xs.length)
    (hfalls : kind ≠ .always → g 0 = f xs.length - kind.takes)
    (htarget : target ≤ xs.length + 1 + ys.length)
    (hlevel : joined (xs.length + 1) f g target = f xs.length - kind.takes) :
    Levels m host (xs ++ .jump kind (distance (target - xs.length)) :: ys)
      (joined (xs.length + 1) f g) := by
  have hsize : (xs ++ .jump kind (distance (target - xs.length)) :: ys).length =
      xs.length + 1 + ys.length := by
    rw [List.length_append, List.length_cons]
    omega
  have hlast : joined (xs.length + 1) f g xs.length = f xs.length := joined_left (Nat.lt_succ_self _)
  intro k i hi
  rw [hsize]
  rcases Nat.lt_trichotomy k xs.length with hk | rfl | hk
  · rw [List.getElem?_append_left hk] at hi
    exact (hx k i hi).widen hk (by omega) fun j hj => joined_left (by omega)
  · rw [List.getElem?_append_right (Nat.le_refl _), Nat.sub_self] at hi
    cases hi
    refine ⟨hlast ▸ htakes, fun hkind => ?_, target, htarget, rfl, hlast ▸ hlevel⟩
    rw [hlast, ← hfalls hkind]
    exact joined_right (xs.length + 1) 0 f g
  · obtain ⟨j, rfl⟩ := Nat.exists_eq_add_of_le (Nat.succ_le_of_lt hk)
    rw [List.getElem?_append_right (by omega),
      show xs.length.succ + j - xs.length = j + 1 by omega, List.getElem?_cons_succ] at hi
    have hj : j < ys.length := (List.getElem?_eq_some_iff.mp hi).1
    exact (hy j i hi).shift hj (Nat.le_refl _) fun j _ => joined_right _ j f g

theorem Lifts.nil (a : Nat) : Lifts m host [] a a := ⟨fun _ => a, nofun, rfl, rfl⟩

theorem Lifts.append (hx : Lifts m host xs low a) (hy : Lifts m host ys a high) :
    Lifts m host (xs ++ ys) low high := by
  obtain ⟨f, hf, rfl, rfl⟩ := hx
  obtain ⟨g, hg, hmeet, rfl⟩ := hy
  refine ⟨_, hf.append hg hmeet.symm, ?_, ?_⟩
  · cases xs with
    | nil => exact hmeet
    | cons i xs => exact joined_left (Nat.succ_pos _)
  · rw [List.length_append]
    exact joined_right ..

/-- One instruction that does not jump. -/
theorem Lifts.one {takes gives : Nat} (low : Nat) (htakes : i.takes = takes)
    (hgives : m.gives host i = gives) (hjump : ∀ kind delta, i ≠ .jump kind delta) :
    Lifts m host [i] (low + takes) (low + gives) := by
  have hafter : low + gives = after m host i (low + takes) := by
    rw [after, htakes, hgives, Nat.add_sub_cancel]
  refine ⟨fun k => if k = 0 then low + takes else low + gives, fun k j hj => ?_, rfl, rfl⟩
  cases k with
  | succ k => cases hj
  | zero =>
    cases hj
    have hle : i.takes ≤ low + takes := htakes ▸ Nat.le_add_left ..
    cases i with
    | jump kind delta => exact absurd rfl (hjump kind delta)
    | ret => exact hle
    | halt => trivial
    | _ => exact ⟨hle, hafter⟩

/-- A return leaves the code, so any height may be thought to follow. -/
theorem Lifts.ret {count : Int32} (htakes : (Instr.ret count).takes ≤ low) (high : Nat) :
    Lifts m host [.ret count] low high := by
  refine ⟨fun k => if k = 0 then low else high, fun k j hj => ?_, rfl, rfl⟩
  cases k with
  | succ k => cases hj
  | zero =>
    cases hj
    exact htakes

theorem Lifts.skip (ht : Lifts m host test low (a + 1)) (hy : Lifts m host yes a a) :
    Lifts m host (Code.skip test yes) low a := by
  obtain ⟨f, hf, rfl, hfa⟩ := ht
  obtain ⟨g, hg, hga, hend⟩ := hy
  have hlast : joined (test.length + 1) f g (test.length + 1 + yes.length) = a :=
    (joined_right ..).trans hend
  have hjump := Levels.jump .ifFalse (test.length + 1 + yes.length) hf hg
    (by rw [hfa]; exact Nat.le_add_left ..) (fun _ => by rw [hga, hfa]; rfl) (Nat.le_refl _)
    (by rw [hlast, hfa]; rfl)
  rw [show ((test.length + 1 + yes.length : Nat) : Int) - test.length = yes.length + 1 by omega]
    at hjump
  refine ⟨_, hjump, joined_left (Nat.succ_pos _), ?_⟩
  rw [Code.skip, List.length_append, List.length_cons, ← hlast]
  congr 1
  omega

theorem Lifts.branch (ht : Lifts m host test low (a + 1)) (hy : Lifts m host yes a high)
    (hn : Lifts m host no a high) : Lifts m host (Code.branch test yes no) low high := by
  obtain ⟨f, hf, rfl, hfa⟩ := ht
  obtain ⟨g, hg, hga, hgend⟩ := hy
  obtain ⟨h, hh, hha, hhend⟩ := hn
  have hlast : joined (yes.length + 1) g h (yes.length + 1 + no.length) = high :=
    (joined_right ..).trans hhend
  have hinner := Levels.jump .always (yes.length + 1 + no.length) hg hh
    (Nat.zero_le _) (fun hkind => absurd rfl hkind) (Nat.le_refl _) (by rw [hlast, hgend]; rfl)
  rw [show ((yes.length + 1 + no.length : Nat) : Int) - yes.length = no.length + 1 by omega]
    at hinner
  have hfirst : joined (yes.length + 1) g h 0 = a :=
    (joined_left (Nat.succ_pos _)).trans hga
  have hother : joined (test.length + 1) f (joined (yes.length + 1) g h)
      (test.length + 1 + (yes.length + 1)) = a :=
    (joined_right ..).trans ((joined_right _ 0 g h).trans hha)
  have houter := Levels.jump .ifFalse (test.length + 1 + (yes.length + 1)) hf hinner
    (by rw [hfa]; exact Nat.le_add_left ..) (fun _ => by rw [hfirst, hfa]; rfl)
    (by simp only [List.length_append, List.length_cons]; omega) (by rw [hother, hfa]; rfl)
  rw [show ((test.length + 1 + (yes.length + 1) : Nat) : Int) - test.length = yes.length + 2
    by omega] at houter
  refine ⟨_, houter, joined_left (Nat.succ_pos _), ?_⟩
  have hsize : (Code.branch test yes no).length =
      test.length + 1 + (yes.length + 1 + no.length) := by
    simp only [Code.branch, List.length_append, List.length_cons]
    omega
  rw [hsize]
  exact (joined_right ..).trans hlast

/-- A jump back to the start, at the end of code. -/
theorem Levels.back (kind : JumpKind) (hf : Levels m host code f)
    (hend : f code.length = f 0 + kind.takes) :
    Levels m host (code ++ [.jump kind (distance (-code.length))])
      (joined (code.length + 1) f fun _ => f 0) := by
  have hfirst : joined (code.length + 1) f (fun _ => f 0) 0 = f 0 := joined_left (Nat.succ_pos _)
  have hnone : Levels m host [] fun _ => f 0 := nofun
  have hjump := Levels.jump kind 0 hf hnone
    (by omega) (fun _ => by omega) (Nat.zero_le _) (by omega)
  rwa [show ((0 : Nat) : Int) - code.length = -code.length by omega] at hjump

theorem Lifts.again (hb : Lifts m host body low (low + 1)) :
    Lifts m host (Code.again body) low low := by
  obtain ⟨f, hf, rfl, hend⟩ := hb
  refine ⟨_, hf.back .ifFalse hend, joined_left (Nat.succ_pos _), ?_⟩
  rw [Code.again, List.length_append]
  exact joined_right _ 0 f _

theorem Lifts.loop (hb : Lifts m host body low low)
    (ht : Lifts m host test low (low + kind.takes)) :
    Lifts m host (Code.loop kind body test) low low := by
  obtain ⟨f, hf, rfl, hfend⟩ := hb
  obtain ⟨g, hg, hglow, hgend⟩ := ht
  have hfirst : joined body.length f g 0 = f 0 := by
    cases body with
    | nil => exact hglow
    | cons i body => exact joined_left (Nat.succ_pos _)
  have hend : joined body.length f g (body ++ test).length = f 0 + kind.takes := by
    rw [List.length_append]
    exact (joined_right ..).trans hgend
  have hround := (hf.append hg (hfend.trans hglow.symm)).back kind (by rw [hend, hfirst])
  rw [hfirst] at hround
  -- the loop is entered at the test, which is as high as the start
  have htest : joined ((body ++ test).length + 1) (joined body.length f g) (fun _ => f 0)
      body.length = f 0 := by
    rw [joined_left (by rw [List.length_append]; omega)]
    exact (joined_right _ 0 f g).trans hglow
  have htarget : joined 1 (fun _ => f 0)
      (joined ((body ++ test).length + 1) (joined body.length f g) fun _ => f 0)
      (body.length + 1) = f 0 := by
    rw [Nat.add_comm body.length 1]
    exact (joined_right ..).trans htest
  have hnone : Levels m host [] fun _ => f 0 := nofun
  have hjump := Levels.jump .always (body.length + 1) hnone hround (Nat.zero_le _)
    (fun hkind => absurd rfl hkind)
    (by simp only [List.length_append, List.length_cons, List.length_nil]; omega) htarget
  have hcode : Code.loop kind body test =
      [] ++ .jump .always (distance ((body.length + 1 : Nat) - ([] : List Instr).length)) ::
        (body ++ test ++ [.jump kind (distance (-(body ++ test).length))]) := by
    simp [Code.loop]
  rw [← hcode] at hjump
  refine ⟨_, hjump, rfl, ?_⟩
  have hsize : (Code.loop kind body test).length = 1 + ((body ++ test).length + 1) := by
    simp only [Code.loop, List.length_cons, List.length_append, List.length_nil]
    omega
  rw [hsize]
  exact (joined_right ..).trans (joined_right _ 0 _ _)

end Levels

section Paths

variable {m : Machine σ} {host : Host} {code : List Instr} {level : Nat → Nat} {i : Instr}

/-- Control goes on inside the code, to a place with the height after the instruction. -/
theorem Levels.successor {base k : Nat} {next : Int} (h : Levels m host code level)
    (hsize : code.length < 2 ^ 31) (hi : code[k]? = some i)
    (hnext : next ∈ i.successors (base + k)) :
    ∃ k', k' ≤ code.length ∧ next = base + k' ∧ level k' = after m host i (level k) := by
  have hk : k < code.length := (List.getElem?_eq_some_iff.mp hi).1
  have hfollows := h k i hi
  cases i with
  | jump kind delta =>
    obtain ⟨-, hfalls, target, htarget, rfl, hlevel⟩ := hfollows
    have hjump : ∃ k', k' ≤ code.length ∧
        ((base + k : Nat) : Int) + (distance (target - k)).toInt = base + k' ∧
        level k' = after m host (.jump kind (distance (target - k))) (level k) := by
      refine ⟨target, htarget, ?_, hlevel⟩
      rw [toInt_distance (by omega)]
      omega
    cases kind with
    | always =>
      cases List.mem_singleton.mp hnext
      exact hjump
    | _ =>
      rcases List.mem_cons.mp hnext with rfl | hnext
      · exact ⟨k + 1, hk, by omega, hfalls nofun⟩
      · cases List.mem_singleton.mp hnext
        exact hjump
  | ret | halt => cases hnext
  | _ =>
    cases List.mem_singleton.mp hnext
    exact ⟨k + 1, hk, by omega, hfollows.2⟩

theorem Levels.takes_le {k : Nat} (h : Levels m host code level) (hi : code[k]? = some i) :
    i.takes ≤ level k := by
  have hfollows := h k i hi
  cases i with
  | ret => exact hfollows
  | halt => exact Nat.zero_le _
  | _ => exact hfollows.1

variable {whole : Array Instr} {before rest : List Instr}

theorem getElem?_part (hwhole : whole.toList = before ++ code ++ rest) {k : Nat}
    (hk : k < code.length) : whole[before.length + k]? = code[k]? := by
  rw [← Array.getElem?_toList, hwhole, List.append_assoc, List.getElem?_append_right (by omega),
    Nat.add_sub_cancel_left, List.getElem?_append_left hk]

/-- Paths are as high as the levels say. -/
theorem Levels.path (h : Levels m host code level) (hstart : level 0 = 0)
    (hwhole : whole.toList = before ++ code ++ rest) (hsize : code.length < 2 ^ 31)
    {place height : Int}
    (hpath : Path m host whole before.length (before.length + code.length) place height) :
    ∃ k, k ≤ code.length ∧ place = before.length + k ∧ height = level k := by
  induction hpath with
  | enter => exact ⟨0, Nat.zero_le _, by omega, by omega⟩
  | @step here next height i _ hfrom hto hi hnext ih =>
    obtain ⟨k, hk, hplace, rfl⟩ := ih
    obtain rfl : here = before.length + k := by omega
    rw [getElem?_part hwhole (by omega)] at hi
    obtain ⟨k', hk', rfl, hlevel⟩ := h.successor hsize hi hnext
    refine ⟨k', hk', rfl, ?_⟩
    have := h.takes_le hi
    rw [hlevel, after]
    omega

/-- Code that begins with nothing takes only what it gave. -/
theorem Lifts.above {high here : Nat} {height : Int} (h : Lifts m host code 0 high)
    (hwhole : whole.toList = before ++ code ++ rest) (hsize : code.length < 2 ^ 31)
    (hpath : Path m host whole before.length (before.length + code.length) here height)
    (hhere : here < before.length + code.length) (hi : whole[here]? = some i) :
    i.takes ≤ height := by
  obtain ⟨level, hlevels, hstart, -⟩ := h
  obtain ⟨k, hk, hplace, rfl⟩ := hlevels.path hstart hwhole hsize hpath
  obtain rfl : here = before.length + k := by omega
  rw [getElem?_part hwhole (by omega)] at hi
  exact Int.ofNat_le.mpr (hlevels.takes_le hi)

/-- Code that leaves the values of a type does so wherever it is put. -/
theorem Lifts.balanced {type : Ty} (h : Lifts m host code 0 type.values)
    (hwhole : whole.toList = before ++ code ++ rest) (hsize : code.length < 2 ^ 31) :
    Balanced m host whole before.length (before.length + code.length) type := by
  obtain ⟨level, hlevels, hstart, hend⟩ := id h
  constructor
  case inside =>
    intro place height hpath
    obtain ⟨k, hk, rfl, -⟩ := hlevels.path hstart hwhole hsize hpath
    omega
  case above => exact fun here height i => h.above hwhole hsize
  case leaves =>
    intro height hpath
    obtain ⟨k, hk, hplace, rfl⟩ := hlevels.path hstart hwhole hsize hpath
    obtain rfl : k = code.length := by omega
    rw [hend]

end Paths

end Code

end TurtleScript

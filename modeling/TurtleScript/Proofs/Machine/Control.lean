import TurtleScript.Proofs.Machine.Compiled

/-!
# Branches and loops

The code of a loop starts with a jump to the test, and the test ends with a jump back to the
body. So a round of the evaluator is matched from the test to the test, and it takes at least
one step, which is what makes the machine outlast every bound on the rounds.
-/
namespace TurtleScript

open Semantics Code

namespace Machine

variable {σ α : Type}

namespace Setting

variable {z : Setting σ} {c next : Nat} {ghost : Nat → Option Value} {seg : List Instr}

theorem Spot.eq_of_next {next' : Nat} {temps : List Value} (h : next = next') :
    (⟨next, ghost, temps⟩ : Spot) = ⟨next', ghost, temps⟩ := h ▸ rfl

/-- Hidden slots may be given up. -/
theorem Silent.forget {ghost' : Nat → Option Value} {temps : List Value}
    (h : ∀ i v, ghost' i = some v → ghost i = some v) :
    z.Silent 0 ⟨next, ghost, temps⟩ ⟨next, ghost', temps⟩ := by
  rintro s rest st ⟨locals, hagrees, rfl⟩
  have hfewer : Agrees z.width z.hidden ghost' locals s.locals :=
    { hagrees with ghost := fun i v hv => hagrees.ghost i v (h i v hv) }
  exact ⟨0, _, Nat.le_refl 0, .refl _, locals, hfewer, rfl⟩

section Branches

variable {test yes no : List Instr} {b : Bool} {x y : Eval σ (Option Value)}

theorem length_branch :
    (branch test yes no).length = test.length + 1 + yes.length + 1 + no.length := by
  simp only [branch, List.length_append, List.length_cons]
  omega

theorem length_skip : (skip test yes).length = test.length + 1 + yes.length := by
  simp only [skip, List.length_append, List.length_cons]
  omega

theorem Sim.branch
    (hcode : z.Holds next (.jump .ifFalse (distance (yes.length + 2)) ::
      (yes ++ .jump .always (distance (no.length + 1)) :: no)))
    (hsize : z.code.size < 2 ^ 31)
    (hx : z.Sim 0 ⟨next + 1, ghost, []⟩ x fun v => ⟨next + 1 + yes.length, ghost, v.toList⟩)
    (hy : z.Sim 0 ⟨next + 1 + yes.length + 1, ghost, []⟩ y
      fun v => ⟨next + 1 + yes.length + 1 + no.length, ghost, v.toList⟩) :
    z.Sim 0 ⟨next, ghost, [.boolean b]⟩ (if b then x else y)
      fun v => ⟨next + 1 + yes.length + 1 + no.length, ghost, v.toList⟩ := by
  have hlength := hcode.length_le
  simp only [List.length_cons, List.length_append] at hlength
  obtain ⟨-, hcodeN⟩ := hcode.tail.append
  have hjump : z.Silent 1 ⟨next, ghost, [.boolean b]⟩ _ :=
    .jumpIf false (next + 1 + yes.length + 1) hcode.head (by omega) (by omega)
  refine hjump.seq ?_
  cases b with
  | false => exact hy
  | true =>
    have hskip : z.Silent 1 ⟨next + 1 + yes.length, ghost, []⟩
        ⟨next + 1 + yes.length + 1 + no.length, ghost, []⟩ :=
      .goTo hcodeN.head (by omega) (by omega)
    exact (hx.thenSilent fun v => hskip.frame v.toList).uncounted

theorem Sim.skip
    (hcode : z.Holds next (.jump .ifFalse (distance (yes.length + 1)) :: yes))
    (hsize : z.code.size < 2 ^ 31)
    (hx : z.Sim 0 ⟨next + 1, ghost, []⟩ x fun v => ⟨next + 1 + yes.length, ghost, v.toList⟩) :
    z.Sim 0 ⟨next, ghost, [.boolean b]⟩ (if b then x else Pure.pure none)
      fun v => ⟨next + 1 + yes.length, ghost, v.toList⟩ := by
  have hlength := hcode.length_le
  simp only [List.length_cons] at hlength
  have hjump : z.Silent 1 ⟨next, ghost, [.boolean b]⟩ _ :=
    .jumpIf false (next + 1 + yes.length) hcode.head (by omega) (by omega)
  refine hjump.seq ?_
  cases b with
  | false => exact Sim.pure rfl
  | true => exact hx

end Branches

section Loops

variable {kind : JumpKind} {round check : List Instr}

theorem Holds.body (h : z.Holds next (loop kind round check)) : z.Holds (next + 1) round :=
  h.tail.append.1

theorem Holds.test (h : z.Holds next (loop kind round check)) :
    z.Holds (next + 1 + round.length) check :=
  h.tail.append.2.append.1

theorem length_loop : (loop kind round check).length = round.length + check.length + 2 := by
  simp [loop, Nat.add_assoc]

/-- The jump with which a loop starts. -/
theorem Silent.enter (hcode : z.Holds next (loop kind round check)) (hsize : z.code.size < 2 ^ 31) :
    z.Silent 1 ⟨next, ghost, []⟩ ⟨next + 1 + round.length, ghost, []⟩ := by
  have hlength := hcode.length_le
  rw [length_loop] at hlength
  exact .goTo hcode.head (by omega) (by omega)

/-- The jump with which a round ends, whatever it depends on. -/
theorem Holds.back (hcode : z.Holds next (loop kind round check)) (hsize : z.code.size < 2 ^ 31) :
    ∃ d : Int, z.code[next + 1 + round.length + check.length]? = some (.jump kind (distance d)) ∧
      d.natAbs < 2 ^ 31 ∧
      ((next + 1 + round.length + check.length : Nat) : Int) + d = (next + 1 : Nat) := by
  have hlength := hcode.length_le
  rw [length_loop] at hlength
  exact ⟨_, hcode.tail.append.2.append.2.head, by omega, by omega⟩

theorem Silent.backIf (taken : Bool) {b : Bool} {here : Nat}
    (hcode : z.Holds next (loop (jumpOn taken) round check)) (hsize : z.code.size < 2 ^ 31)
    (hhere : here = next + 1 + round.length + check.length) :
    z.Silent 1 ⟨here, ghost, [.boolean b]⟩
      ⟨if b = taken then next + 1 else next + (loop (jumpOn taken) round check).length,
        ghost, []⟩ := by
  obtain ⟨d, hi, hd, htarget⟩ := hcode.back hsize
  have hexit : next + (loop (jumpOn taken) round check).length =
      next + 1 + round.length + check.length + 1 := by rw [length_loop]; omega
  rw [hexit, hhere]
  exact .jumpIf taken _ hi hd htarget

/-- A loop whose rounds lead from its head to its head, each with hidden slots of its own. -/
theorem Sim.rounds {once : α → Eval σ (Option α)} {a : α} {p : Spot} {head exit : Nat}
    (hidden : α → Nat → Option Value) (henter : z.Silent c p ⟨head, hidden a, []⟩)
    (h : ∀ a, z.Sim 1 ⟨head, hidden a, []⟩ (once a)
      fun r => r.elim ⟨exit, ghost, []⟩ fun a => ⟨head, hidden a, []⟩) :
    z.Sim 0 p (do Eval.iterate once z.fuel a; return none)
      fun v : Option Value => ⟨exit, ghost, v.toList⟩ :=
  henter.seq <| (Sim.iterate h a).seq fun _ => Sim.pure rfl

end Loops

end Setting

section Expressions

open Setting

variable {w : World σ} {m : Machine σ} {pool : Pool} {fuel : Nat} {invoke : Invoke σ}
  {z : Setting σ} {here : Position} {ghost : Nat → Option Value} {next : Nat} {seg : List Instr}
  {l : Label}

/-- In a scope of its own. -/
theorem Carries.inner {e : Expr} {function scope : Nat} (h : Carries w m pool fuel invoke e)
    (hz : Ready w m fuel z function ghost e)
    (hseg : lower pool ⟨w.tree, w.resolution, scope⟩ e = some seg) (hcode : z.Holds next seg) :
    z.Sim 0 ⟨next, ghost, []⟩ (w.eval fuel invoke ⟨scope, function⟩ e)
      fun v => ⟨next + seg.length, ghost, v.toList⟩ :=
  @h z ⟨scope, function⟩ ghost next seg hz hseg hcode

theorem ifElse_carries {condition thenBranch elseBranch : Expr}
    (hc : Carries w m pool fuel invoke condition) (ht : Carries w m pool fuel invoke thenBranch)
    (he : Carries w m pool fuel invoke elseBranch) :
    Carries w m pool fuel invoke (.cond l condition thenBranch (some elseBranch)) := by
  intro z here ghost next seg hz hseg hcode
  obtain ⟨type, htype, hk⟩ := Option.bind_eq_some_iff.mp hseg
  obtain ⟨test, htest, hk⟩ := Option.bind_eq_some_iff.mp hk
  obtain ⟨yes, hyes, hk⟩ := Option.bind_eq_some_iff.mp hk
  obtain ⟨no, hno, hk⟩ := Option.bind_eq_some_iff.mp hk
  cases hk
  obtain ⟨hcodeC, hcode⟩ := hcode.append
  obtain ⟨hcodeT, hcodeE⟩ := hcode.tail.append
  have hthen := ht (hz.child rfl (by simp)) hyes hcodeT
  have helse := he (hz.child rfl (by simp)) hno hcodeE.tail
  refine Sim.need fun _ _ => ?_
  refine (hc (hz.child rfl (by simp)) htest hcodeC).seq fun v =>
    truth_need fun b hb => ?_
  subst hb
  simp only [length_branch, ← Nat.add_assoc]
  exact Sim.branch hcode hz.size hthen helse

/-- Without a second branch the value is missing or the default of its type, as the type says. -/
theorem if_carries (hl : Linked w m pool) {condition thenBranch : Expr}
    (hc : Carries w m pool fuel invoke condition) (ht : Carries w m pool fuel invoke thenBranch) :
    Carries w m pool fuel invoke (.cond l condition thenBranch none) := by
  intro z here ghost next seg hz hseg hcode
  obtain ⟨type, htype, hk⟩ := Option.bind_eq_some_iff.mp hseg
  obtain ⟨test, htest, hk⟩ := Option.bind_eq_some_iff.mp hk
  obtain ⟨yes, hyes, hk⟩ := Option.bind_eq_some_iff.mp hk
  cases hk
  have hzc := hz.child (x := condition) rfl (by simp)
  have hzt := hz.child (x := thenBranch) rfl (by simp)
  refine Sim.known htype ?_
  cases hempty : type.isEmpty with
  | true =>
    simp only [orDefault, hempty, if_true] at hcode ⊢
    obtain ⟨hcodeC, hcode⟩ := hcode.append
    refine (hc hzc htest hcodeC).seq fun v => truth_need fun b hb => ?_
    subst hb
    simp only [length_skip, ← Nat.add_assoc]
    exact Sim.skip hcode hz.size (ht hzt hyes hcode.tail)
  | false =>
    simp only [orDefault, hempty, Bool.false_eq_true, if_false] at hcode ⊢
    obtain ⟨hcodeC, hcode⟩ := hcode.append
    obtain ⟨hcodeT, hcodeE⟩ := hcode.tail.append
    have htypes : z.machine.module.types = TypeDef.catalogue := hz.machine ▸ hl.types
    have hdefault : z.Sim 0 ⟨next + test.length + 1 + yes.length + 1, ghost, []⟩
        (some <$> Eval.defaultOf type)
        fun v => ⟨next + test.length + 1 + yes.length + 1 + 1, ghost, v.toList⟩ :=
      Sim.uncounted (Sim.map (Sim.defaultOf htypes hcodeE.tail.head))
    refine (hc hzc htest hcodeC).seq fun v => truth_need fun b hb => ?_
    subst hb
    simp only [length_branch, ← Nat.add_assoc]
    exact Sim.branch hcode hz.size (ht hzt hyes hcodeT) hdefault

theorem whileLoop_carries {condition body : Expr} (hc : Carries w m pool fuel invoke condition)
    (hb : Carries w m pool fuel invoke body) :
    Carries w m pool fuel invoke (.whileLoop l condition body) := by
  intro z here ghost next seg hz hseg hcode
  obtain ⟨bodyCode, hbody, dropped, hdropped, test, htest, rfl⟩ := lower_whileLoop_eq_some hseg
  obtain ⟨hcodeB, hcodeD⟩ := hcode.body.append
  have hzc := hz.child (x := condition) rfl (by simp)
  have hzb := hz.child (x := body) rfl (by simp)
  rw [World.eval, ← hz.fuel]
  refine Sim.rounds (fun _ => ghost) (Silent.enter hcode hz.size) fun _ => ?_
  rw [hz.fuel]
  refine (hc hzc htest hcode.test).late fun v => truth_need fun more hmore => ?_
  subst hmore
  refine Silent.first (Silent.backIf true hcode hz.size rfl) ?_
  cases more with
  | false => exact Sim.pure rfl
  | true =>
    refine (hb hzb hbody hcodeB).seq fun v => ?_
    refine (settle_drop hdropped hcodeD).seq fun _ => Sim.pure ?_
    simp [Nat.add_assoc]

theorem repeatUntil_carries {body condition : Expr} (hb : Carries w m pool fuel invoke body)
    (hc : Carries w m pool fuel invoke condition) :
    Carries w m pool fuel invoke (.repeatUntil l body condition) := by
  intro z here ghost next seg hz hseg hcode
  obtain ⟨bodyCode, hbody, dropped, hdropped, test, htest, rfl⟩ := lower_repeatUntil_eq_some hseg
  have hlength := hcode.length_le
  have hsize := hz.size
  simp only [again, List.append_assoc, List.length_append] at hcode hlength ⊢
  obtain ⟨hcodeB, hcode⟩ := hcode.append
  obtain ⟨hcodeD, hcode⟩ := hcode.append
  obtain ⟨hcodeC, hcodeJ⟩ := hcode.append
  have hzb := hz.child (x := body) rfl (by simp)
  have hzc := hz.child (x := condition) rfl (by simp)
  rw [World.eval, ← hz.fuel]
  refine Sim.rounds (fun _ => ghost) (Silent.refl _) fun _ => ?_
  rw [hz.fuel]
  refine (hb hzb hbody hcodeB).late fun v => ?_
  refine (settle_drop hdropped hcodeD).late fun _ => ?_
  refine (hc hzc htest hcodeC).late fun v => truth_need fun b hb => ?_
  subst hb
  refine Silent.first (.jumpIf false next hcodeJ.head (by omega) (by omega)) ?_
  cases b with
  | true => exact Sim.pure (by simp [Nat.add_assoc])
  | false => exact Sim.pure rfl

theorem optional_sim {e : Option Expr} (hc : ∀ x ∈ e.toList, Carries w m pool fuel invoke x)
    (hz : ∀ x ∈ e.toList, Ready w m fuel z here.function ghost x)
    (hseg : lowerOptional pool ⟨w.tree, w.resolution, here.scope⟩ e = some seg)
    (hcode : z.Holds next seg) :
    z.Sim 0 ⟨next, ghost, []⟩ (w.evalOptional fuel invoke here e)
      fun _ => ⟨next + seg.length, ghost, []⟩ := by
  cases e with
  | none =>
    cases hseg
    exact Sim.pure rfl
  | some e =>
    obtain ⟨code, he, hk⟩ := Option.bind_eq_some_iff.mp hseg
    obtain ⟨dropped, hdropped, hk⟩ := Option.bind_eq_some_iff.mp hk
    cases hk
    obtain ⟨hcodeE, hcodeD⟩ := hcode.append
    rw [List.length_append, ← Nat.add_assoc]
    exact (hc e (by simp) (hz e (by simp)) he hcodeE).seq fun v => settle_drop hdropped hcodeD

section ForLoop

variable {init condition step : Option Expr} {body : Expr}
  (hi : ∀ x ∈ init.toList, Carries w m pool fuel invoke x)
  (hs : ∀ x ∈ step.toList, Carries w m pool fuel invoke x)
  (hb : Carries w m pool fuel invoke body)
include hi hs hb

theorem forLoop_carries (hc : ∀ x ∈ condition.toList, Carries w m pool fuel invoke x) :
    Carries w m pool fuel invoke (.forLoop l init condition step body) := by
  intro z here ghost next seg hz hseg hcode
  unfold World.eval
  obtain ⟨inner, hinner, initCode, hinit, bodyCode, hbody, dropped, hdropped, stepCode, hstep, kind,
    test, htest, rfl⟩ := lower_forLoop_eq_some hseg
  rw [List.append_assoc] at hcode ⊢
  obtain ⟨hcodeI, hcode⟩ := hcode.append
  obtain ⟨hcodeB, hcodeS⟩ := hcode.body.append
  obtain ⟨hcodeD, hcodeS⟩ := hcodeS.append
  refine within_need hinner fun scope hscope => ?_
  subst hscope
  refine Sim.seq (optional_sim hi (fun x hx => hz.child rfl (by simp_all)) hinit
    hcodeI) fun _ => ?_
  rw [List.length_append, ← Nat.add_assoc, ← hz.fuel]
  refine Sim.rounds (fun _ => ghost) (Silent.enter hcode hz.size) fun _ => ?_
  rw [hz.fuel]
  dsimp only
  have hstepped : z.Sim 0 _ (w.evalOptional fuel invoke ⟨scope, here.function⟩ step) _ :=
    optional_sim hs (fun x hx => hz.child rfl (by simp_all)) hstep hcodeS
  have hround : z.Sim 0 _ _ fun again : Option Unit => again.elim
      ⟨next + initCode.length + (loop kind (bodyCode ++ (dropped ++ stepCode)) test).length, ghost, []⟩
      fun _ => ⟨next + initCode.length + 1 + (bodyCode ++ (dropped ++ stepCode)).length, ghost, []⟩ :=
    Sim.seq (hb.inner (hz.child rfl (by simp)) hbody hcodeB) fun v =>
      (settle_drop hdropped hcodeD).seq fun _ =>
        hstepped.seq fun _ => Sim.pure (v := some ()) (by simp [Nat.add_assoc])
  cases htest with
  | none =>
    rw [pure_bind, if_pos rfl]
    obtain ⟨d, hi, hd, htarget⟩ := hcode.back hz.size
    exact Silent.first (.goTo hi hd htarget) hround
  | some htest =>
    refine Sim.late ((hc _ (by simp)).inner (hz.child rfl (by simp)) htest
      hcode.test) fun v => truth_need fun more hmore => ?_
    subst hmore
    refine Silent.first (.backIf true hcode hz.size rfl) ?_
    cases more with
    | false => exact Sim.pure rfl
    | true => exact hround

end ForLoop

section ForTo

variable {direction : Direction} {now last : Double}

/-- Whether the counter has passed the bound. -/
theorem Setting.Silent.passed
    (hi : z.code[next]? = some (.compare (if direction = .up then .gt else .lt))) :
    z.Silent 1 ⟨next, ghost, [.double last, .double now]⟩
      ⟨next + 1, ghost, [.boolean (if direction = .up then last.less now else now.less last)]⟩ := by
  cases direction with
  | up => exact .rewrite hi (by simp) (rewrites_compare .gt now last)
  | down => exact .rewrite hi (by simp) (rewrites_compare .lt now last)

theorem Setting.Silent.advance
    (hi : z.code[next]? = some (.arith (if direction = .up then .add else .sub))) :
    z.Silent 1 ⟨next, ghost, [.double .one, .double now]⟩
      ⟨next + 1, ghost, [.double (if direction = .up then now.add .one else now.sub .one)]⟩ := by
  cases direction with
  | up => exact .rewrite hi (by simp) (rewrites_arith .add now .one)
  | down => exact .rewrite hi (by simp) (rewrites_arith .sub now .one)

/-- The variable of a loop is one of the program's names. -/
theorem counter_facts (hl : Linked w m pool) {counter : Expr} {place : Storage}
    (hmem : counter ∈ w.body.nodes) (hplace : w.counter? here counter = some place)
    (hz : z.hidden = w.tree.Hidden here.function) :
    place.number < 2 ^ 31 ∧ ∀ slot, place = .slot here.function slot → ¬ z.hidden slot := by
  cases counter with
  | var l name d => exact place_facts hl hmem hz hplace
  | _ => cases hplace

theorem loopVariable?_eq (here : Position) (counter : Expr) :
    loopVariable? ⟨w.tree, w.resolution, here.scope⟩ counter = w.counter? here counter := by
  cases counter <;> rfl

theorem forTo_carries (hl : Linked w m pool) {counter start bound body : Expr}
    (hmem : counter ∈ w.body.nodes) (hs : Carries w m pool fuel invoke start)
    (hbound : Carries w m pool fuel invoke bound) (hb : Carries w m pool fuel invoke body) :
    Carries w m pool fuel invoke (.forTo l counter start bound direction body) := by
  intro z here ghost next seg hz hseg hcode
  obtain ⟨inner, hinner, place, hplace, startCode, hstart, bodyCode, hbody, dropped, hdropped, one,
    hone, boundCode, hboundCode, rfl⟩ := lower_forTo_eq_some hseg
  simp only [List.append_assoc] at hcode ⊢
  obtain ⟨hcodeS, hcode⟩ := hcode.append
  obtain ⟨hcodeP, hcode⟩ := hcode.append
  obtain ⟨hcodeB, hround⟩ := hcode.body.append
  obtain ⟨hcodeD, hround⟩ := hround.append
  obtain ⟨hcodeL, hround⟩ := hround.append
  obtain ⟨hcodeO, hround⟩ := hround.append
  obtain ⟨hcodeN, htest⟩ := hcode.test.append
  obtain ⟨hcodeE, hcodeC⟩ := htest.append
  refine within_need hinner fun scope hscope => ?_
  subst hscope
  rw [loopVariable?_eq ⟨scope, here.function⟩] at hplace
  obtain ⟨hsmall, hvisible⟩ := counter_facts hl hmem hplace hz.hidden
  refine Sim.known hplace ?_
  refine Sim.seq (hs (hz.child rfl (by simp)) hstart hcodeS) fun v =>
    Sim.need fun first hfirst => ?_
  subst hfirst
  refine Sim.seq (Sim.write hcodeP.head hsmall hvisible) fun _ => ?_
  rw [List.length_append, List.length_append, ← Nat.add_assoc, ← Nat.add_assoc, ← hz.fuel]
  refine Sim.rounds (fun _ => ghost) (Silent.enter hcode hz.size) fun _ => ?_
  rw [hz.fuel]
  refine Sim.late (Sim.read hcodeN.head hsmall hvisible) fun v => number_need fun now hnow => ?_
  cases hnow
  have hlimit := (hbound.inner (hz.child rfl (by simp)) hboundCode hcodeE).frame
    [.double now]
  refine hlimit.late fun v => number_need fun last hlast => ?_
  subst hlast
  refine Silent.first (.passed hcodeC.head) ?_
  refine Silent.seq (.backIf false hcode hz.size ?_) ?_
  · simp only [List.length_append, List.length_cons, List.length_nil]
    omega
  generalize (if direction = .up then last.less now else now.less last) = passed
  cases passed with
  | true => exact Sim.pure rfl
  | false =>
    refine Sim.seq (hb.inner (hz.child rfl (by simp)) hbody hcodeB) fun v => ?_
    refine (settle_drop hdropped hcodeD).seq fun _ => ?_
    refine Sim.seq (Sim.read hcodeL.head hsmall hvisible) fun v => number_need fun now hnow => ?_
    cases hnow
    have hload : z.Silent 1 ⟨_, ghost, [.double now]⟩ ⟨_, ghost, [.double .one, .double now]⟩ :=
      Silent.frame (.constant hl hz.machine hone hcodeO) [.double now]
    refine hload.seq <| Silent.seq (.advance hround.head) ?_
    refine (Sim.write hround.tail.head hsmall hvisible).seq fun _ =>
      Sim.pure (Spot.eq_of_next ?_)
    simp only [List.length_append, List.length_cons, List.length_nil]
    omega

end ForTo

section ForIn

variable {item iterable body : Expr} {function a i cell : Nat} {position : Double}

/-- What the hidden slots hold while a loop goes through `cell`. -/
def during (ghost : Nat → Option Value) (a i cell : Nat) (position : Double) :
    Nat → Option Value := fun slot =>
  if slot = i then some (.double position)
  else if slot = a then some (.array cell)
  else ghost slot

theorem during_index : during ghost a i cell position i = some (.double position) := if_pos rfl

theorem during_array (h : a ≠ i) : during ghost a i cell position a = some (.array cell) :=
  (if_neg h).trans (if_pos rfl)

theorem during_other {slot : Nat} (ha : slot ≠ a) (hi : slot ≠ i) :
    during ghost a i cell position slot = ghost slot := (if_neg hi).trans (if_neg ha)

theorem during_next {slot : Nat} {v : Value} {next : Double}
    (h : during ghost a i cell next slot = some v) :
    (if slot = i then some (.double next) else during ghost a i cell position slot) = some v := by
  simp only [during] at h ⊢
  split <;> simp_all

theorem during_of_free {slot : Nat} {v : Value} (ha : ghost a = none) (hi : ghost i = none)
    (h : ghost slot = some v) : during ghost a i cell position slot = some v := by
  have hnea : slot ≠ a := fun he => by simp [he, ha] at h
  have hnei : slot ≠ i := fun he => by simp [he, hi] at h
  rw [during_other hnea hnei, h]

theorem loop_slots (hl : Linked w m pool)
    (hz : Ready w m fuel z function ghost (.forIn l item iterable body))
    {c : Code.Context} (hc : c.tree = w.tree) {slots : LoopSlots} {array index : Storage}
    (hslots : w.tree.loopSlotsOf? l.id = some slots) (harray : hidden? c slots.array = some array)
    (hindex : hidden? c slots.index = some index) :
    ∃ a i, array = .slot function a ∧ index = .slot function i ∧
      w.tree.LoopPlaces function l.id a i ∧ a ≠ i ∧ a < z.width ∧ i < z.width ∧ a < 2 ^ 31 ∧
      i < 2 ^ 31 := by
  obtain ⟨a, i, hplaces, hne, ha, hi⟩ := hz.loops l item iterable body (.self _)
  obtain ⟨slots', va, vi, hslots', hva, hvi, hsa, hsi⟩ := id hplaces
  obtain rfl : slots = slots' := Option.some.inj (hslots.symm.trans hslots')
  rw [hidden?, hc, hva] at harray
  rw [hidden?, hc, hvi] at hindex
  have hsmalla := hl.places _ _ hva
  have hsmalli := hl.places _ _ hvi
  rw [hsa] at hsmalla
  rw [hsi] at hsmalli
  cases harray
  cases hindex
  exact ⟨a, i, hsa, hsi, hplaces, hne, ha, hi, hsmalla, hsmalli⟩

/-- The loops in the body of a loop use other slots than the loop does. -/
theorem Ready.during (hl : Linked w m pool) (hmem : .forIn l item iterable body ∈ w.body.nodes)
    (hz : Ready w m fuel z function ghost (.forIn l item iterable body))
    (hplaces : w.tree.LoopPlaces function l.id a i) :
    Ready w m fuel z function (during ghost a i cell position) body :=
  { hz.child (x := body) rfl (by simp) with
    free := by
      intro l' item' iterable' body' hin a' i' hplaces'
      have hother : l'.id ≠ l.id :=
        hl.below _ hmem body (by simp) _ hin.mem_nodes
      have hfree := hz.free l' item' iterable' body'
        (.child rfl (by simp) hin) a' i' hplaces'
      obtain ⟨haa, hai, hia, hii⟩ := hl.apart _ _ _ _ _ _ _ hplaces' hplaces hother
      exact ⟨(during_other haa hai).trans hfree.1, (during_other hia hii).trans hfree.2⟩ }

section Pieces

variable {owner : Nat} (hne : a ≠ i) (ha : a < 2 ^ 31) (hi : i < 2 ^ 31)
include hne ha hi

/-- The test of the loop: whether the position is before the end of the array. -/
theorem test_sim
    (hcode : z.Holds next [Generate.load (.slot owner i), Generate.load (.slot owner a), .length,
      .compare .lt]) :
    z.Sim 1 ⟨next, during ghost a i cell position, []⟩ (Eval.length cell)
      fun n => ⟨next + 4, during ghost a i cell position,
        [.boolean (position.less (.ofNat n))]⟩ := by
  have hindex : z.Silent 1 ⟨next, during ghost a i cell position, []⟩
      ⟨next + 1, during ghost a i cell position, [.double position]⟩ :=
    .loadHidden hcode.head hi during_index
  have harray : z.Silent 1 ⟨next + 1, during ghost a i cell position, [.double position]⟩
      ⟨next + 2, during ghost a i cell position, [.array cell, .double position]⟩ :=
    Silent.frame (.loadHidden hcode.tail.head ha (during_array hne)) [.double position]
  have hlength : z.Sim 1 ⟨next + 2, during ghost a i cell position, [.array cell, .double position]⟩
      (Eval.length cell) fun n =>
        ⟨next + 3, during ghost a i cell position, [.double (.ofNat n), .double position]⟩ :=
    (Sim.length hcode.tail.tail.head).frame [.double position]
  have hcompare (n : Nat) : z.Silent 1
      ⟨next + 3, during ghost a i cell position, [.double (.ofNat n), .double position]⟩
      ⟨next + 4, during ghost a i cell position, [.boolean (position.less (.ofNat n))]⟩ :=
    .rewrite hcode.tail.tail.tail.head (by simp) (rewrites_compare .lt position (.ofNat n))
  exact hindex.first <| harray.seq <| (hlength.thenSilent hcompare).uncounted

/-- The address of the element at the position. -/
theorem fetch_silent {type : Ty}
    (hcode : z.Holds next ([Generate.load (.slot owner a), Generate.load (.slot owner i)] ++
      Generate.elementAddress type.size.toInt32)) :
    z.Silent 6 ⟨next, during ghost a i cell position, []⟩
      ⟨next + 6, during ghost a i cell position, [.address cell (Eval.offset position type)]⟩ := by
  have harray : z.Silent 1 ⟨next, during ghost a i cell position, []⟩
      ⟨next + 1, during ghost a i cell position, [.array cell]⟩ :=
    .loadHidden hcode.head ha (during_array hne)
  have hindex : z.Silent 1 ⟨next + 1, during ghost a i cell position, [.array cell]⟩
      ⟨next + 2, during ghost a i cell position, [.double position, .array cell]⟩ :=
    Silent.frame (.loadHidden hcode.tail.head hi during_index) [.array cell]
  exact (harray.trans hindex).trans (.elementAddress hcode.append.2)

omit hne ha in
/-- The position goes on by one. -/
theorem advance_silent (hl : Linked w m pool) (hm : z.machine = m) (hhidden : z.hidden i)
    (hlt : i < z.width) {one : List Instr} (hone : constant? pool (.double .one) = some one)
    (hcode : z.Holds next (Generate.load (.slot owner i) :: (one ++
      [.arith .add, Generate.store (.slot owner i)]))) :
    z.Silent 4 ⟨next, during ghost a i cell position, []⟩
      ⟨next + 1 + one.length + 2, during ghost a i cell (position.add .one), []⟩ := by
  obtain ⟨hcodeO, hcodeS⟩ := hcode.tail.append
  have hindex : z.Silent 1 ⟨next, during ghost a i cell position, []⟩
      ⟨next + 1, during ghost a i cell position, [.double position]⟩ :=
    .loadHidden hcode.head hi during_index
  have hload : z.Silent 1 ⟨next + 1, during ghost a i cell position, [.double position]⟩
      ⟨next + 1 + one.length, during ghost a i cell position, [.double .one, .double position]⟩ :=
    Silent.frame (.constant hl hm hone hcodeO) [.double position]
  have hadd : z.Silent 1
      ⟨next + 1 + one.length, during ghost a i cell position, [.double .one, .double position]⟩
      ⟨next + 1 + one.length + 1, during ghost a i cell position,
        [.double (position.add .one)]⟩ :=
    .rewrite hcodeS.head (by simp) (rewrites_arith .add position .one)
  refine (((hindex.trans hload).trans hadd).trans
    (.storeHidden hcodeS.tail.head hi hhidden hlt)).trans (.forget fun slot v hv => ?_)
  exact during_next hv

end Pieces

theorem forIn_carries (hl : Linked w m pool) (hmem : .forIn l item iterable body ∈ w.body.nodes)
    (hit : Carries w m pool fuel invoke iterable) (hb : Carries w m pool fuel invoke body) :
    Carries w m pool fuel invoke (.forIn l item iterable body) := by
  intro z here ghost next seg hz hseg hcode
  obtain ⟨inner, hinner, slots, hslots, place, hplace, type, htype, array, harray, index, hindex,
    iterableCode, hiterable, zero, hzero, bodyCode, hbody, dropped, hdropped, one, hone, rfl⟩ :=
      lower_forIn_eq_some hseg
  refine within_need hinner fun scope hscope => ?_
  subst hscope
  obtain ⟨a, i, rfl, rfl, hplaces, hne, haw, hiw, ha, hi⟩ :=
    loop_slots hl hz rfl hslots harray hindex
  have hhiddenA : z.hidden a := hz.hidden ▸ ⟨_, _, _, hplaces, .inl rfl⟩
  have hhiddenI : z.hidden i := hz.hidden ▸ ⟨_, _, _, hplaces, .inr rfl⟩
  have hitem : item ∈ w.body.nodes :=
    Expr.mem_nodes_trans hmem (Expr.mem_nodes_child (by simp) item.mem_nodes_self)
  rw [loopVariable?_eq ⟨scope, here.function⟩] at hplace
  obtain ⟨hsmall, hvisible⟩ := counter_facts hl hitem hplace hz.hidden
  simp only [List.append_assoc] at hcode ⊢
  obtain ⟨hcodeI, hcode⟩ := hcode.append
  obtain ⟨hcodeA, hcode⟩ := hcode.append
  obtain ⟨hcodeZ, hcode⟩ := hcode.append
  obtain ⟨hcodeX, hcode⟩ := hcode.append
  refine Sim.known hplace ?_
  refine Sim.known htype ?_
  refine Sim.seq (hit (hz.child rfl (by simp)) hiterable hcodeI) fun v =>
    ref_need fun cell hcell => ?_
  subst hcell
  refine Silent.seq (.storeHidden hcodeA.head ha hhiddenA haw) ?_
  refine Silent.seq (.constant hl hz.machine hzero hcodeZ) ?_
  have hstart : z.Silent 1 _ ⟨_, during ghost a i cell .zero, []⟩ :=
    .storeHidden hcodeX.head hi hhiddenI hiw
  refine hstart.seq ?_
  obtain ⟨hfreeA, hfreeI⟩ := hz.free _ _ _ _ (.self _) _ _ hplaces
  rw [List.length_append, List.length_append, List.length_append, List.length_append,
    ← Nat.add_assoc, ← Nat.add_assoc, ← Nat.add_assoc, ← Nat.add_assoc, ← hz.fuel]
  refine Sim.rounds (fun position => during ghost a i cell position)
    (Silent.enter hcode hz.size) fun position => ?_
  rw [hz.fuel]
  refine Sim.late (test_sim hne ha hi hcode.test) fun n => ?_
  refine Silent.first (.backIf true hcode hz.size rfl) ?_
  generalize position.less (.ofNat n) = more
  cases more with
  | false => exact Silent.pure (.forget fun slot v hv => during_of_free hfreeA hfreeI hv)
  | true =>
    rw [← List.append_assoc] at hcode
    obtain ⟨hcodeF, hround⟩ := hcode.body.append
    obtain ⟨hcodeG, hround⟩ := hround.append
    obtain ⟨hcodeB, hround⟩ := hround.append
    obtain ⟨hcodeD, hcodeN⟩ := hround.append
    refine Silent.seq (fetch_silent hne ha hi hcodeF) ?_
    refine Sim.seq (Sim.readElement hcodeG.head) fun v => ?_
    refine Sim.seq (Sim.write hcodeG.tail.head hsmall hvisible) fun _ => ?_
    refine Sim.seq (hb.inner (hz.during hl hmem hplaces) hbody hcodeB) fun v => ?_
    refine (settle_drop hdropped hcodeD).seq fun _ => ?_
    refine Silent.seq (advance_silent hi hl hz.machine hhiddenI hiw hone hcodeN) ?_
    refine Sim.pure (Spot.eq_of_next ?_)
    simp only [List.length_append, List.length_cons, List.length_nil]
    omega

end ForIn

end Expressions

end Machine

end TurtleScript

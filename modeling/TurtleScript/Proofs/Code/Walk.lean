import TurtleScript.Proofs.Bytecode.Pool
import TurtleScript.Proofs.Code.Lowering
import TurtleScript.Proofs.Code.Shapes
import TurtleScript.Proofs.Tree.Numbering

/-!
# What the walk over a program leaves behind

The walk that generates code keeps a builder with markers and open jumps. Each part of it
appends the tokens of one expression, and these stand for the code that the expression is
lowered to. So the finished code of every function is the lowered body with the end of the
function after it.
-/
namespace TurtleScript.Code

open Generate (operand load store elementAddress literal)

/-- The code `body` of function `id` is that of a function node of the program `root`. -/
def Origin (root : Expr) (t : ScopeTree) (r : Resolution) (pool : Pool) (id : Nat)
    (body : Array Instr) : Prop :=
  ∃ l name params e scope f result, .function l name params e ∈ root.nodes ∧
    t.functionOf? l.id = some id ∧ t.scopeOf? l.id = some scope ∧ t.functions[id]? = some f ∧
    f.returnType = some result ∧ lowerBody pool ⟨t, r, scope⟩ result e = some body.toList

section Walk

variable (root : Expr) (t : ScopeTree) (r : Resolution)

/-- What a part of the walk does to everything but the code at hand. -/
structure Grows (s s' : Generation) : Prop where
  pool : s.pool.values <+: s'.pool.values
  function : s'.builder.function = s.builder.function
  size : s'.finished.size = s.finished.size
  finished : ∀ pool : Pool, s'.pool.values <+: pool.values → ∀ (id : Nat) (body : Array Instr),
    s'.finished[id]? = some (some body) →
      s.finished[id]? = some (some body) ∨ Origin root t r pool id body

/-- A part of the walk that appends the tokens `te`, which stand for `code`. -/
structure Emits (ts te : List Token) (code : List Instr) (s s' : Generation) : Prop where
  refines : Tokens.Refines (ts ++ te) s'.builder
  segment : Tokens.Segment s.builder.nextMarker s'.builder.nextMarker te code
  grows : Grows root t r s s'

/-- A part of the walk that leaves the code which `spec` gives for every pool that extends
the pool at its end. -/
def Leaves (s s' : Generation) (spec : Pool → Option (List Instr)) : Prop :=
  ∀ ts : List Token, Tokens.Refines ts s.builder →
    ∃ te code, Emits root t r ts te code s s' ∧
      ∀ pool : Pool, s'.pool.values <+: pool.values → spec pool = some code

variable {root t r} {s s' s₁ s₂ s₃ s₄ s₅ s₆ s₇ s₈ s₉ : Generation}

theorem Grows.refl (s : Generation) : Grows root t r s s :=
  ⟨List.prefix_refl _, rfl, rfl, fun _ _ _ _ h => .inl h⟩

theorem Grows.trans (h₁ : Grows root t r s s₁) (h₂ : Grows root t r s₁ s₂) :
    Grows root t r s s₂ where
  pool := h₁.pool.trans h₂.pool
  function := h₂.function.trans h₁.function
  size := h₂.size.trans h₁.size
  finished := by
    intro pool hp id body hb
    rcases h₂.finished pool hp id body hb with hb | ho
    · exact h₁.finished pool (h₂.pool.trans hp) id body hb
    · exact .inr ho

/-- Only the builder changes, and not the function it is for. -/
theorem Grows.of_builder {b : CodeBuilder} (h : b.function = s.builder.function) :
    Grows root t r s { s with builder := b } :=
  ⟨List.prefix_refl _, h, rfl, fun _ _ _ _ h => .inl h⟩

theorem Leaves.append {p q : Pool → Option (List Instr)} (h₁ : Leaves root t r s s₁ p)
    (h₂ : Leaves root t r s₁ s₂ q) :
    Leaves root t r s s₂ fun pool => do return (← p pool) ++ (← q pool) := by
  intro ts hr
  obtain ⟨te₁, code₁, e₁, l₁⟩ := h₁ ts hr
  obtain ⟨te₂, code₂, e₂, l₂⟩ := h₂ _ e₁.refines
  refine ⟨te₁ ++ te₂, code₁ ++ code₂, ⟨?_, e₁.segment.append e₂.segment,
    e₁.grows.trans e₂.grows⟩, fun pool hp => ?_⟩
  · rw [← List.append_assoc]
    exact e₂.refines
  · simp only [l₁ pool (e₂.grows.pool.trans hp), l₂ pool hp]
    rfl

variable (root t r) in
/-- A part of the walk that leaves the code which `spec` gives, wherever it starts. -/
def Lays (x : Generate Unit) (spec : Pool → Option (List Instr)) : Prop :=
  ∀ ⦃s s' : Generation⦄ ⦃u : Unit⦄, x s = .ok u s' → Leaves root t r s s' spec

theorem orFail_eq_ok {α : Type} {p : CodeProblem} {span : Span} {o : Option α} {a : α}
    (h : Generate.orFail p span o s = .ok a s') : o = some a ∧ s' = s := by
  cases o with
  | none => cases h
  | some b =>
    cases h
    exact ⟨rfl, rfl⟩

namespace Lays

variable {α : Type} {x y : Generate Unit} {p q : Pool → Option (List Instr)}

theorem congr (h : Lays root t r x p) (hpq : ∀ pool, q pool = p pool) : Lays root t r x q := by
  intro s s' u hrun ts hr
  obtain ⟨te, code, he, hp⟩ := h hrun ts hr
  exact ⟨te, code, he, fun pool hpool => (hpq pool).trans (hp pool hpool)⟩

theorem nil : Lays root t r (pure ()) fun _ => some [] := by
  rintro s _ _ ⟨⟩ ts hr
  exact ⟨[], [], ⟨(List.append_nil ts).symm ▸ hr, .nil _, .refl s⟩, fun _ _ => rfl⟩

theorem seq (hx : Lays root t r x p) (hy : Lays root t r y q) :
    Lays root t r (x >>= fun _ => y) fun pool => do return (← p pool) ++ (← q pool) := by
  intro s s' u h
  obtain ⟨_, s₁, h₁, h₂⟩ := EStateM.bind_eq_ok h
  exact (hx h₁).append (hy h₂)

theorem orFail {problem : CodeProblem} {span : Span} {o : Option α} {f : α → Generate Unit}
    (h : ∀ a, o = some a → Lays root t r (f a) p) :
    Lays root t r (Generate.orFail problem span o >>= f) p := by
  intro s s' u hrun
  obtain ⟨a, s₁, ha, hk⟩ := EStateM.bind_eq_ok hrun
  obtain ⟨hsome, rfl⟩ := orFail_eq_ok ha
  exact h a hsome hk

theorem within {scope : Nat} {e : Expr} {f : Context → Generate Unit}
    (h : ∀ inner, within? ⟨t, r, scope⟩ e = some ⟨t, r, inner⟩ → Lays root t r (f ⟨t, r, inner⟩) p) :
    Lays root t r (Generate.within ⟨t, r, scope⟩ e >>= f) p := by
  rw [Generate.within, bind_assoc]
  refine orFail fun inner hscope => ?_
  exact h inner (by rw [within?, hscope]; rfl)

theorem loopVariable {c : Context} {e : Expr} {f : Storage → Generate Unit}
    (h : ∀ place, loopVariable? c e = some place → Lays root t r (f place) p) :
    Lays root t r (Generate.loopVariable c e >>= f) p := by
  cases e with
  | var l name d => exact orFail h
  | _ => exact fun _ _ _ hrun => nomatch hrun

end Lays

theorem onCode_eq_ok {α : Type} {step : CodeBuilder.Build α} {a : α}
    (h : Generate.onCode step s = .ok a s') :
    ∃ b, step s.builder = .ok a b ∧ s' = { s with builder := b } := by
  simp only [Generate.onCode] at h
  cases hs : step s.builder with
  | error d b => rw [hs] at h; cases h
  | ok a' b =>
    rw [hs] at h
    cases h
    exact ⟨b, rfl, rfl⟩

theorem lays_emit (i : Instr) : Lays root t r (Generate.emit i) fun _ => some [i] := by
  rintro s _ _ ⟨⟩ ts hr
  exact ⟨_, _, ⟨hr.push i, .instr _ i, .of_builder rfl⟩, fun _ _ => rfl⟩

theorem lays_emitAll (is : List Instr) :
    Lays root t r (Generate.emitAll is) fun _ => some is := by
  induction is with
  | nil => exact .nil
  | cons i is ih => exact (lays_emit i).seq ih

/-- A step that only rearranges the tokens at hand, after which the next mark is `next`. -/
structure Rearranges (ts : List Token) (next : Nat) (s s' : Generation) : Prop where
  refines : Tokens.Refines ts s'.builder
  next : s'.builder.nextMarker = next
  function : s'.builder.function = s.builder.function
  same : s' = { s with builder := s'.builder }

section Rearranging

variable {ts : List Token}

theorem Rearranges.grows {next : Nat} (h : Rearranges ts next s s') : Grows root t r s s' := by
  rw [h.same]
  exact .of_builder h.function

theorem acquire_rearranges {m : Marker} (hr : Tokens.Refines ts s.builder)
    (h : Generate.acquire s = .ok m s') :
    m.id = s.builder.nextMarker ∧
      Rearranges (ts ++ [.mark s.builder.nextMarker]) (s.builder.nextMarker + 1) s s' := by
  cases h
  exact ⟨rfl, hr.mark, rfl, rfl, rfl⟩

theorem placeJump_rearranges {xs ys : List Token} {m target : Marker} {kind : JumpKind} {u : Unit}
    (hr : Tokens.Refines (xs ++ .mark m.id :: ys) s.builder)
    (h : Generate.placeJump m kind target s = .ok u s') :
    Rearranges (xs ++ .mark m.id :: .instr (.jump kind 0) (some target.id) :: ys)
      s.builder.nextMarker s s' := by
  obtain ⟨b, hb, rfl⟩ := onCode_eq_ok h
  obtain ⟨href, hnext, hfun⟩ := Tokens.placeJump_refines hr hb
  exact ⟨href, hnext, hfun, rfl⟩

theorem emitJump_rearranges {target : Marker} {kind : JumpKind} {u : Unit}
    (hr : Tokens.Refines ts s.builder) (h : Generate.emitJump kind target s = .ok u s') :
    Rearranges (ts ++ [.instr (.jump kind 0) (some target.id)]) s.builder.nextMarker s s' := by
  obtain ⟨k, hk⟩ := EStateM.discard_eq_ok h
  obtain ⟨b, hb, rfl⟩ := onCode_eq_ok hk
  obtain ⟨href, hnext, hfun⟩ := Tokens.emitJump_refines hr hb
  exact ⟨href, hnext, hfun, rfl⟩

theorem releaseAll_rearranges {ms : List Marker} {u : Unit} (hr : Tokens.Refines ts s.builder)
    (h : Generate.releaseAll ms s = .ok u s') :
    Rearranges ts s.builder.nextMarker s s' := by
  induction ms generalizing s with
  | nil =>
    cases h
    exact ⟨hr, rfl, rfl, rfl⟩
  | cons m ms ih =>
    obtain ⟨_, s₁, hm, hk⟩ := EStateM.bind_eq_ok h
    obtain ⟨b, hb, rfl⟩ := onCode_eq_ok hm
    obtain ⟨href, hnext, hfun⟩ := Tokens.release_refines hr hb
    have hrest := ih href hk
    exact ⟨hrest.refines, hrest.next.trans hnext, hrest.function.trans hfun, hrest.same⟩

end Rearranging

namespace Lays

variable {p q n : Pool → Option (List Instr)} {test yes no body : Generate Unit} {kind : JumpKind}

/-- Two branches; their jumps are put in when all the code is there. -/
theorem branching (hc : Lays root t r test p) (hy : Lays root t r yes q)
    (hn : Lays root t r no n) : Lays root t r (Generate.branching test yes no) fun pool => do
      return Code.branch (← p pool) (← q pool) (← n pool) := by
  intro s s' u h ts hr
  obtain ⟨_, s₁, h₁, h⟩ := EStateM.bind_eq_ok h
  obtain ⟨away, s₂, haway, h⟩ := EStateM.bind_eq_ok h
  obtain ⟨_, s₃, h₃, h⟩ := EStateM.bind_eq_ok h
  obtain ⟨past, s₄, hover, h⟩ := EStateM.bind_eq_ok h
  obtain ⟨other, s₅, hother, h⟩ := EStateM.bind_eq_ok h
  obtain ⟨_, s₆, h₆, h⟩ := EStateM.bind_eq_ok h
  obtain ⟨stop, s₇, hstop, h⟩ := EStateM.bind_eq_ok h
  obtain ⟨_, s₈, hj, h⟩ := EStateM.bind_eq_ok h
  obtain ⟨_, s₉, hk, hfree⟩ := EStateM.bind_eq_ok h
  obtain ⟨tc, test, ec, lc⟩ := hc h₁ ts hr
  obtain ⟨ida, ra⟩ := acquire_rearranges ec.refines haway
  obtain ⟨ty, yes, ey, ly⟩ := hy h₃ _ ra.refines
  obtain ⟨ido, ro⟩ := acquire_rearranges ey.refines hover
  obtain ⟨ide, re⟩ := acquire_rearranges ro.refines hother
  obtain ⟨tn, no, en, ln⟩ := hn h₆ _ re.refines
  obtain ⟨ids, rs⟩ := acquire_rearranges en.refines hstop
  have h₇ : Tokens.Refines (ts ++ tc ++ .mark away.id ::
      (ty ++ .mark past.id :: .mark other.id :: (tn ++ [.mark stop.id]))) s₇.builder := by
    simpa [ida, ido, ide, ids, List.append_assoc] using rs.refines
  have rj := placeJump_rearranges h₇ hj
  have h₈ : Tokens.Refines ((ts ++ tc ++ .mark away.id ::
      .instr (.jump .ifFalse 0) (some other.id) :: ty) ++
        .mark past.id :: (.mark other.id :: (tn ++ [.mark stop.id]))) s₈.builder := by
    simpa [List.append_assoc] using rj.refines
  have rk := placeJump_rearranges h₈ hk
  have rf := releaseAll_rearranges rk.refines hfree
  have gn : Grows root t r s₆ s' :=
    rs.grows.trans <| rj.grows.trans <| rk.grows.trans rf.grows
  have gy : Grows root t r s₃ s' := ro.grows.trans <| re.grows.trans <| en.grows.trans gn
  have gc : Grows root t r s₁ s' := ra.grows.trans <| ey.grows.trans gy
  refine ⟨tc ++ .mark away.id :: .instr (.jump .ifFalse 0) (some other.id) ::
    (ty ++ .mark past.id :: .instr (.jump .always 0) (some stop.id) :: .mark other.id ::
      (tn ++ [.mark stop.id])), Code.branch test yes no, ⟨?_, ?_, ec.grows.trans gc⟩,
    fun pool hp => ?_⟩
  · simpa [List.append_assoc] using rf.refines
  · have hnext : s'.builder.nextMarker = s₆.builder.nextMarker + 1 := by
      rw [rf.next, rk.next, rj.next, rs.next]
    have hy' := ey.segment
    have hn' := en.segment
    rw [ra.next] at hy'
    rw [re.next, ro.next] at hn'
    rw [hnext, ida, ido, ide, ids, ro.next]
    exact ec.segment.branch hy' hn'
  · simp only [lc pool (gc.pool.trans hp), ly pool (gy.pool.trans hp), ln pool (gn.pool.trans hp)]
    rfl

/-- One branch. -/
theorem skipping (hc : Lays root t r test p) (hy : Lays root t r yes q) :
    Lays root t r (Generate.skipping test yes) fun pool => do
      return Code.skip (← p pool) (← q pool) := by
  intro s s' u h ts hr
  obtain ⟨_, s₁, h₁, h⟩ := EStateM.bind_eq_ok h
  obtain ⟨away, s₂, haway, h⟩ := EStateM.bind_eq_ok h
  obtain ⟨_, s₃, h₃, h⟩ := EStateM.bind_eq_ok h
  obtain ⟨stop, s₄, hstop, h⟩ := EStateM.bind_eq_ok h
  obtain ⟨_, s₅, hj, hfree⟩ := EStateM.bind_eq_ok h
  obtain ⟨tc, test, ec, lc⟩ := hc h₁ ts hr
  obtain ⟨ida, ra⟩ := acquire_rearranges ec.refines haway
  obtain ⟨ty, yes, ey, ly⟩ := hy h₃ _ ra.refines
  obtain ⟨ids, rs⟩ := acquire_rearranges ey.refines hstop
  have h₄ : Tokens.Refines (ts ++ tc ++ .mark away.id :: (ty ++ [.mark stop.id])) s₄.builder := by
    simpa [ida, ids, List.append_assoc] using rs.refines
  have rj := placeJump_rearranges h₄ hj
  have rf := releaseAll_rearranges rj.refines hfree
  have gy : Grows root t r s₃ s' := rs.grows.trans <| rj.grows.trans rf.grows
  have gc : Grows root t r s₁ s' := ra.grows.trans <| ey.grows.trans gy
  refine ⟨tc ++ .mark away.id :: .instr (.jump .ifFalse 0) (some stop.id) ::
    (ty ++ [.mark stop.id]), Code.skip test yes, ⟨?_, ?_, ec.grows.trans gc⟩, fun pool hp => ?_⟩
  · simpa [List.append_assoc] using rf.refines
  · have hnext : s'.builder.nextMarker = s₃.builder.nextMarker + 1 := by
      rw [rf.next, rj.next, rs.next]
    have hy' := ey.segment
    rw [ra.next] at hy'
    rw [hnext, ida, ids]
    exact ec.segment.skip hy'
  · simp only [lc pool (gc.pool.trans hp), ly pool (gy.pool.trans hp)]
    rfl

/-- A loop that tests at the bottom and is entered there. -/
theorem looping (hb : Lays root t r body p) (hc : Lays root t r test q) :
    Lays root t r (Generate.looping kind body test) fun pool => do
      return Code.loop kind (← p pool) (← q pool) := by
  intro s s' u h ts hr
  obtain ⟨entry, s₁, hentry, h⟩ := EStateM.bind_eq_ok h
  obtain ⟨first, s₂, hfirst, h⟩ := EStateM.bind_eq_ok h
  obtain ⟨_, s₃, h₃, h⟩ := EStateM.bind_eq_ok h
  obtain ⟨next, s₄, hnext, h⟩ := EStateM.bind_eq_ok h
  obtain ⟨_, s₅, hj, h⟩ := EStateM.bind_eq_ok h
  obtain ⟨_, s₆, h₆, h⟩ := EStateM.bind_eq_ok h
  obtain ⟨_, s₇, hk, hfree⟩ := EStateM.bind_eq_ok h
  obtain ⟨ide, re⟩ := acquire_rearranges hr hentry
  obtain ⟨idf, rf⟩ := acquire_rearranges re.refines hfirst
  obtain ⟨tb, body, eb, lb⟩ := hb h₃ _ rf.refines
  obtain ⟨idn, rn⟩ := acquire_rearranges eb.refines hnext
  have h₄ : Tokens.Refines (ts ++ .mark entry.id ::
      (.mark first.id :: (tb ++ [.mark next.id]))) s₄.builder := by
    simpa [ide, idf, idn, List.append_assoc] using rn.refines
  have rj := placeJump_rearranges h₄ hj
  obtain ⟨tc, test, ec, lc⟩ := hc h₆ _ rj.refines
  have rk := emitJump_rearranges ec.refines hk
  have rl := releaseAll_rearranges rk.refines hfree
  have gc : Grows root t r s₆ s' := rk.grows.trans rl.grows
  have gb : Grows root t r s₃ s' := rn.grows.trans <| rj.grows.trans <| ec.grows.trans gc
  refine ⟨.mark entry.id :: .instr (.jump .always 0) (some next.id) :: .mark first.id ::
    (tb ++ .mark next.id :: (tc ++ [.instr (.jump kind 0) (some first.id)])),
    Code.loop kind body test,
    ⟨?_, ?_, re.grows.trans <| rf.grows.trans <| eb.grows.trans gb⟩, fun pool hp => ?_⟩
  · simpa [List.append_assoc] using rl.refines
  · have hlast : s'.builder.nextMarker = s₆.builder.nextMarker := by rw [rl.next, rk.next]
    have hb' := eb.segment
    have hc' := ec.segment
    rw [rf.next, re.next] at hb'
    rw [rj.next, rn.next] at hc'
    rw [hlast, ide, idf, idn, re.next]
    exact Tokens.Segment.loop kind hb' hc'
  · simp only [lb pool (gb.pool.trans hp), lc pool (gc.pool.trans hp)]
    rfl

/-- A loop that tests after its body. -/
theorem repeating (hb : Lays root t r body p) :
    Lays root t r (Generate.repeating body) fun pool => do return Code.again (← p pool) := by
  intro s s' u h ts hr
  obtain ⟨first, s₁, hfirst, h⟩ := EStateM.bind_eq_ok h
  obtain ⟨_, s₂, h₂, h⟩ := EStateM.bind_eq_ok h
  obtain ⟨_, s₃, hk, hfree⟩ := EStateM.bind_eq_ok h
  obtain ⟨idf, rf⟩ := acquire_rearranges hr hfirst
  obtain ⟨tb, body, eb, lb⟩ := hb h₂ _ rf.refines
  have rk := emitJump_rearranges eb.refines hk
  have rl := releaseAll_rearranges rk.refines hfree
  have gb : Grows root t r s₂ s' := rk.grows.trans rl.grows
  refine ⟨.mark first.id :: (tb ++ [.instr (.jump .ifFalse 0) (some first.id)]), Code.again body,
    ⟨?_, ?_, rf.grows.trans <| eb.grows.trans gb⟩, fun pool hp => ?_⟩
  · simpa [idf, List.append_assoc] using rl.refines
  · have hlast : s'.builder.nextMarker = s₂.builder.nextMarker := by rw [rl.next, rk.next]
    have hb' := eb.segment
    rw [rf.next] at hb'
    rw [hlast, idf]
    exact Tokens.Segment.again hb'
  · simp only [lb pool (gb.pool.trans hp)]
    rfl

end Lays

theorem lays_constant (value : Constant) :
    Lays root t r (Generate.constant value) (constant? · value) := by
  intro s s' u h ts hr
  obtain ⟨id, s₁, hi, hk⟩ := EStateM.bind_eq_ok h
  obtain ⟨hmem, hid⟩ := Pool.idxOf_intern (p := s.pool) (c := value)
  have hs₁ : s₁ = { s with pool := (s.pool.intern value).2 } ∧ id = (s.pool.intern value).1 := by
    cases hi
    exact ⟨rfl, rfl⟩
  obtain ⟨rfl, rfl⟩ := hs₁
  have hg : Grows root t r s { s with pool := (s.pool.intern value).2 } :=
    ⟨Pool.values_prefix_intern, rfl, rfl, fun _ _ _ _ h => .inl h⟩
  cases hk
  refine ⟨_, _, ⟨hr.push _, .instr _ _, hg.trans (.of_builder rfl)⟩, fun pool hp => ?_⟩
  simp only [constant?, idxOf?_prefix hp (idxOf?_of_mem hmem), hid]
  rfl

theorem lays_dropValue (c : Context) (e : Expr) :
    Lays root t r (Generate.dropValue c e) fun _ => drop? c e := by
  refine .orFail fun type htype => ?_
  rw [drop?, typeOf?, htype, Option.map_some]
  cases type.isEmpty with
  | true => exact .nil
  | false => exact lays_emit _

theorem lays_operate {c : Context} {op : BinaryOp} {left right : Ty} {span : Span} :
    Lays root t r (Generate.operate c op left right span) fun _ => do
      return [← operator? c op left right] := by
  rw [Generate.operate, operator?]
  by_cases hadd : op = .add ∧ (left = .string ∨ right = .string)
  · rw [if_pos hadd, if_pos hadd]
    refine .orFail fun o hcall => ?_
    rw [hcall]
    exact lays_emit _
  · rw [if_neg hadd, if_neg hadd]
    by_cases heq : op = .equal ∧ (left.isArray ∨ right.isArray)
    · rw [if_pos heq]
      exact fun _ _ _ h => nomatch h
    · rw [if_neg heq, if_neg heq]
      exact lays_emit _

theorem lays_epilogue (c : Context) (body : Expr) (result : Ty) :
    Lays root t r (Generate.epilogue c body result) fun _ => do
      return epilogue result (← typeOf? c body) := by
  refine .orFail fun type htype => ?_
  simp only [typeOf?, htype, Option.bind_eq_bind, Option.pure_def, Option.bind_some, epilogue]
  by_cases hret : (!result.isEmpty && decide (type = result)) = true
  · rw [if_pos hret, if_pos hret]
    exact lays_emit _
  · rw [if_neg hret, if_neg hret]
    cases type.isEmpty with
    | true => exact lays_emit _
    | false => exact (lays_emit _).seq (lays_emit _)

variable (root t r) in
/-- The walk over `e` leaves the code that `e` is lowered to. -/
def Lowers (e : Expr) : Prop :=
  ∀ scope, Lays root t r (Generate.expr ⟨t, r, scope⟩ e) (lower · ⟨t, r, scope⟩ e)

section Lists

variable {es : List Expr}

theorem lays_members (hes : ∀ e ∈ es, Lowers root t r e) (scope : Nat) :
    Lays root t r (Generate.members ⟨t, r, scope⟩ es) (lowerMembers · ⟨t, r, scope⟩ es) := by
  induction es with
  | nil => exact .nil
  | cons e es ih =>
    obtain ⟨he, hes⟩ := List.forall_mem_cons.mp hes
    rw [Generate.members]
    cases hempty : es.isEmpty with
    | true =>
      exact ((he scope).seq (ih hes)).congr fun pool => by
        simp [lowerMembers, dropBefore?, hempty]
    | false =>
      exact ((he scope).seq ((lays_dropValue _ e).seq (ih hes))).congr fun pool => by
        simp [lowerMembers, dropBefore?, hempty, Option.bind_assoc]

theorem lays_operands (hes : ∀ e ∈ es, Lowers root t r e) (scope : Nat) :
    Lays root t r (Generate.operands ⟨t, r, scope⟩ es) (lowerAll · ⟨t, r, scope⟩ es) := by
  induction es with
  | nil => exact .nil
  | cons e es ih =>
    obtain ⟨he, hes⟩ := List.forall_mem_cons.mp hes
    exact ((he scope).seq (ih hes)).congr fun pool => by simp only [lowerAll]

theorem arguments_leaves {types : List Ty} {scope : Nat} (hes : ∀ e ∈ es, Lowers root t r e)
    (h : Generate.arguments ⟨t, r, scope⟩ es s = .ok types s') :
    es.mapM (typeOf? ⟨t, r, scope⟩) = some types ∧
      Leaves root t r s s' (lowerAll · ⟨t, r, scope⟩ es) := by
  induction es generalizing s types with
  | nil =>
    cases h
    exact ⟨rfl, Lays.nil rfl⟩
  | cons e es ih =>
    obtain ⟨he, hes⟩ := List.forall_mem_cons.mp hes
    obtain ⟨_, s₁, h₁, k₁⟩ := EStateM.bind_eq_ok h
    obtain ⟨type, s₂, h₂, k₂⟩ := EStateM.bind_eq_ok k₁
    obtain ⟨rest, s₃, h₃, k₃⟩ := EStateM.bind_eq_ok k₂
    obtain ⟨rfl, rfl⟩ := EStateM.pure_eq_ok k₃
    obtain ⟨ht, rfl⟩ := orFail_eq_ok h₂
    obtain ⟨hts, hrest⟩ := ih hes h₃
    refine ⟨?_, by simpa only [lowerAll] using (he scope h₁).append hrest⟩
    rw [List.mapM_cons, typeOf?, ht, hts]
    rfl

theorem lays_optional {o : Option Expr} (ho : ∀ e ∈ o.toList, Lowers root t r e) (scope : Nat) :
    Lays root t r (Generate.optional ⟨t, r, scope⟩ o) (lowerOptional · ⟨t, r, scope⟩ o) := by
  cases o with
  | none => exact .nil
  | some e =>
    exact ((ho e (List.mem_singleton_self e) scope).seq (lays_dropValue _ e)).congr fun pool => by
      simp only [lowerOptional]

end Lists

section Constructs

variable {l : Label}

theorem var_lowers (name : String) (d : Option Expr) : Lowers root t r (.var l name d) := by
  intro scope
  refine .orFail fun place hplace => (lays_emit _).congr fun pool => ?_
  simp only [lower, storage?, hplace]
  rfl

theorem assignVar_lowers {target : Label} {name : String} {d : Option Expr} {right : Expr}
    (hr : Lowers root t r right) :
    Lowers root t r (.binary l .assign (.var target name d) right) := by
  intro scope
  refine .orFail fun place hplace => ((hr scope).seq (lays_emitAll _)).congr fun pool => ?_
  simp only [lower, storage?, hplace]
  rfl

theorem assignElement_lowers {target : Label} {array index right : Expr}
    (ha : Lowers root t r array) (hi : Lowers root t r index) (hr : Lowers root t r right) :
    Lowers root t r (.binary l .assign (.element target array (some index)) right) := by
  intro scope
  refine .orFail fun type htype => ?_
  exact ((ha scope).seq ((hi scope).seq ((lays_emitAll _).seq ((hr scope).seq
    (lays_emit _))))).congr fun pool => by
      simp [Option.bind_assoc, htype]

theorem operator_lowers {op : BinaryOp} {left right : Expr} (hop : op ≠ .assign)
    (hl : Lowers root t r left) (hr : Lowers root t r right) :
    Lowers root t r (.binary l op left right) := by
  intro scope
  rw [Generate.expr_operator _ _ hop]
  have hoperate : Lays root t r (do
      let leftType ← Generate.typeOf ⟨t, r, scope⟩ left
      let rightType ← Generate.typeOf ⟨t, r, scope⟩ right
      Generate.operate ⟨t, r, scope⟩ op leftType rightType l.span) fun _ => do
        return [← operator? ⟨t, r, scope⟩ op (← typeOf? ⟨t, r, scope⟩ left)
          (← typeOf? ⟨t, r, scope⟩ right)] :=
    .orFail fun leftType hleft => .orFail fun rightType hright => lays_operate.congr fun pool => by
      simp [typeOf?, hleft, hright]
  exact ((hl scope).seq ((hr scope).seq hoperate)).congr fun pool => by
    simp [lower_operator hop, Option.bind_assoc]

theorem block_lowers {body : List Expr} (hb : ∀ e ∈ body, Lowers root t r e) :
    Lowers root t r (.block l body) := by
  intro scope
  refine .within fun inner hinner => (lays_members hb inner).congr fun pool => ?_
  simp [hinner]

theorem ifElse_lowers {condition branch other : Expr} (hc : Lowers root t r condition)
    (hy : Lowers root t r branch) (hn : Lowers root t r other) :
    Lowers root t r (.cond l condition branch (some other)) := by
  intro scope
  rw [Generate.expr_ifElse]
  refine .orFail fun type htype =>
    (Lays.branching (hc scope) (hy scope) (hn scope)).congr fun pool => ?_
  simp only [lower, typeOf?]
  rw [htype]
  rfl

theorem ifThen_lowers {condition branch : Expr} (hc : Lowers root t r condition)
    (hy : Lowers root t r branch) : Lowers root t r (.cond l condition branch none) := by
  intro scope
  rw [Generate.expr_ifThen]
  refine .orFail fun type htype => ?_
  have hlower (pool : Pool) : lower pool ⟨t, r, scope⟩ (.cond l condition branch none) = do
      return orDefault type (← lower pool ⟨t, r, scope⟩ condition)
        (← lower pool ⟨t, r, scope⟩ branch) := by
    simp only [lower, typeOf?]
    rw [htype]
    rfl
  by_cases hempty : type.isEmpty = true
  · rw [if_pos hempty]
    exact (Lays.skipping (hc scope) (hy scope)).congr fun pool => by
      simp only [hlower, orDefault, if_pos hempty]
  · rw [if_neg hempty]
    exact (Lays.branching (hc scope) (hy scope) (lays_emit _)).congr fun pool => by
      simp only [hlower, orDefault, if_neg hempty]
      rfl

theorem whileLoop_lowers {condition body : Expr} (hc : Lowers root t r condition)
    (hb : Lowers root t r body) : Lowers root t r (.whileLoop l condition body) := by
  intro scope
  rw [Generate.expr_whileLoop]
  exact (Lays.looping ((hb scope).seq (lays_dropValue _ body)) (hc scope)).congr fun pool => by
    simp [Option.bind_assoc]

theorem repeatUntil_lowers {condition body : Expr} (hc : Lowers root t r condition)
    (hb : Lowers root t r body) : Lowers root t r (.repeatUntil l body condition) := by
  intro scope
  rw [Generate.expr_repeatUntil]
  exact (Lays.repeating ((hb scope).seq ((lays_dropValue _ body).seq (hc scope)))).congr
    fun pool => by simp [Option.bind_assoc]

theorem forLoop_lowers {init condition step : Option Expr} {body : Expr}
    (hi : ∀ e ∈ init.toList, Lowers root t r e) (hc : ∀ e ∈ condition.toList, Lowers root t r e)
    (hs : ∀ e ∈ step.toList, Lowers root t r e) (hb : Lowers root t r body) :
    Lowers root t r (.forLoop l init condition step body) := by
  intro scope
  rw [Generate.expr_forLoop]
  refine .within fun inner hinner => ?_
  have hbody := (hb inner).seq ((lays_dropValue ⟨t, r, inner⟩ body).seq (lays_optional hs inner))
  cases condition with
  | none =>
    exact .congr (.seq (lays_optional hi inner) (.looping hbody .nil)) fun pool => by
      simp [hinner, Generate.loopTest, Option.bind_assoc]
  | some condition =>
    have htest := hc condition (List.mem_singleton_self _) inner
    exact .congr (.seq (lays_optional hi inner) (.looping hbody htest)) fun pool => by
      simp [hinner, Generate.loopTest, Option.bind_assoc]

theorem forTo_lowers {counter start bound body : Expr} {direction : Direction}
    (hs : Lowers root t r start) (ht : Lowers root t r bound) (hb : Lowers root t r body) :
    Lowers root t r (.forTo l counter start bound direction body) := by
  intro scope
  rw [Generate.expr_forTo]
  refine .within fun inner hinner => .loopVariable fun place hplace => ?_
  exact .congr (.seq (hs inner) <| .seq (lays_emit _) <| .looping
    (.seq (hb inner) <| .seq (lays_dropValue _ _) <| .seq (lays_emit _) <|
      .seq (lays_constant _) <| .seq (lays_emit _) (lays_emit _))
    (.seq (lays_emit _) <| .seq (ht inner) (lays_emit _))) fun pool => by
      simp [hinner, hplace, Option.bind_assoc]

theorem forIn_lowers {item iterable body : Expr} (hit : Lowers root t r iterable)
    (hb : Lowers root t r body) : Lowers root t r (.forIn l item iterable body) := by
  intro scope
  rw [Generate.expr_forIn]
  refine .within fun inner hinner => .orFail fun slots hslots => .loopVariable fun place hplace => ?_
  refine .orFail fun type htype => .orFail fun array harray => .orFail fun index hindex => ?_
  exact .congr (.seq (hit inner) <| .seq (lays_emit _) <| .seq (lays_constant _) <|
    .seq (lays_emit _) <| .looping
      (.seq (lays_emitAll _) <| .seq (lays_emitAll _) <| .seq (lays_emitAll _) <|
        .seq (hb inner) <| .seq (lays_dropValue _ _) <| .seq (lays_emit _) <|
          .seq (lays_constant _) (lays_emitAll _))
      (lays_emitAll _)) fun pool => by
        simp [typeOf?, hidden?, hinner, hslots, hplace, htype, harray, hindex, Option.bind_assoc]

theorem call_lowers {name : String} {args : List Expr} (ha : ∀ e ∈ args, Lowers root t r e) :
    Lowers root t r (.call l name args) := by
  intro scope s s' u h
  obtain ⟨types, s₁, h₁, k₁⟩ := EStateM.bind_eq_ok h
  obtain ⟨htypes, hargs⟩ := arguments_leaves ha h₁
  obtain ⟨overload, s₂, h₂, k₂⟩ := EStateM.bind_eq_ok k₁
  obtain ⟨hoverload, rfl⟩ := orFail_eq_ok h₂
  simpa [htypes, hoverload] using hargs.append (lays_emit _ k₂)

theorem ret_lowers {value : Option Expr} (hv : ∀ e ∈ value.toList, Lowers root t r e) :
    Lowers root t r (.ret l value) := by
  intro scope
  cases value with
  | none => exact lays_emit _
  | some value =>
    have hret : Lays root t r (do
        Generate.emit (.ret (if (← Generate.typeOf ⟨t, r, scope⟩ value).isEmpty then 0 else 1)))
        fun _ => do
          return [.ret (if (← typeOf? ⟨t, r, scope⟩ value).isEmpty then 0 else 1)] :=
      .orFail fun type htype => (lays_emit _).congr fun pool => by simp [typeOf?, htype]
    exact ((hv value (List.mem_singleton_self _) scope).seq hret).congr fun pool => by
      simp [Option.bind_assoc]

theorem element_lowers {array : Expr} {index : Option Expr} (ha : Lowers root t r array)
    (hi : ∀ e ∈ index.toList, Lowers root t r e) : Lowers root t r (.element l array index) := by
  intro scope
  cases index with
  | none => exact fun _ _ _ h => nomatch h
  | some index =>
    have hindex := hi index (List.mem_singleton_self _) scope
    refine .orFail fun type htype => ?_
    exact ((ha scope).seq (hindex.seq ((lays_emitAll _).seq (lays_emit _)))).congr fun pool => by
      simp only [lower, typeOf?]
      rw [htype]
      simp [Option.bind_assoc]

theorem array_lowers {elements : List Expr} (he : ∀ e ∈ elements, Lowers root t r e) :
    Lowers root t r (.array l elements) := by
  intro scope s s' u h
  obtain ⟨_, s₁, h₁, k₁⟩ := EStateM.bind_eq_ok h
  obtain ⟨type, s₂, h₂, k₂⟩ := EStateM.bind_eq_ok k₁
  obtain ⟨htype, rfl⟩ := orFail_eq_ok h₂
  cases type with
  | array element =>
    simpa [typeOf?, htype] using (lays_operands he scope h₁).append (lays_emit _ k₂)
  | _ => cases k₂

theorem leave_eq_ok {outer : CodeBuilder} {u : Unit} (h : Generate.leave outer s = .ok u s') :
    s' = { s with
      builder := outer
      finished := s.finished.setIfInBounds s.builder.function (some s.builder.code) } := by
  obtain ⟨s₁, s₂, hget, hk⟩ := EStateM.bind_eq_ok h
  cases hget
  rw [CodeBuilder.finish] at hk
  by_cases hlive : s.builder.live.isEmpty = true
  · simp only [if_pos hlive] at hk
    cases hk
    rfl
  · simp only [if_neg hlive] at hk
    cases hk

/-- The walk over a body that starts with fresh code ends with the lowered body. -/
theorem body_finished {c : Context} {body : Expr} {result : Ty} {v : Unit} {function : Nat}
    (hstart : s.builder = { function }) (hb : Leaves root t r s s₁ (lower · c body))
    (he : Generate.epilogue c body result s₁ = .ok v s₂) :
    Grows root t r s s₂ ∧ ∀ pool : Pool, s₂.pool.values <+: pool.values →
      lowerBody pool c result body = some s₂.builder.code.toList := by
  have hr : Tokens.Refines [] s.builder := hstart ▸ Tokens.refines_start function
  obtain ⟨te, code, hemits, hcode⟩ := (hb.append (lays_epilogue c body result he)) [] hr
  refine ⟨hemits.grows, fun pool hp => ?_⟩
  have hrender : s₂.builder.code.toList = code := by
    rw [hemits.refines.code, List.nil_append, hemits.segment.render]
  rw [hrender, ← hcode pool hp, lowerBody]
  simp only [Option.bind_eq_bind, Option.pure_def, Option.bind_some, Option.bind_assoc]

theorem function_lowers {name : String} {params : List Expr} {body : Expr}
    (hmem : .function l name params body ∈ root.nodes) (hb : Lowers root t r body) :
    Lowers root t r (.function l name params body) := by
  intro scope
  refine .orFail fun id hid => .orFail fun result hresult => .within fun inner hinner => ?_
  obtain ⟨f, hf, hresult⟩ := Option.bind_eq_some_iff.mp hresult
  have hscope : t.scopeOf? l.id = some inner := by
    obtain ⟨_, hsome, heq⟩ := Option.map_eq_some_iff.mp hinner
    cases heq
    exact hsome
  intro s s' u h
  obtain ⟨outer, s₄, h₄, k₄⟩ := EStateM.bind_eq_ok h
  obtain ⟨hs₄, houter⟩ : s₄ = { s with builder := { function := id } } ∧ outer = s.builder := by
    cases h₄
    exact ⟨rfl, rfl⟩
  obtain ⟨_, s₅, h₅, k₅⟩ := EStateM.bind_eq_ok k₄
  obtain ⟨_, s₆, h₆, k₆⟩ := EStateM.bind_eq_ok k₅
  have hs' := leave_eq_ok k₆
  obtain ⟨hgrows, hcode⟩ := body_finished (by rw [hs₄]) (hb inner h₅) h₆
  have hfunction : s₆.builder.function = id := by rw [hgrows.function, hs₄]
  have hpool : s.pool.values <+: s₆.pool.values := by simpa [hs₄] using hgrows.pool
  have hsize : s₆.finished.size = s.finished.size := by simpa [hs₄] using hgrows.size
  subst hs' houter
  intro ts hr
  refine ⟨[], [], ⟨(List.append_nil ts).symm ▸ hr, .nil _, hpool, rfl, ?_, ?_⟩, fun _ _ => rfl⟩
  · rw [Array.size_setIfInBounds, hsize]
  · intro pool hp id' code hc
    rw [hfunction, Array.getElem?_setIfInBounds] at hc
    by_cases heq : id = id'
    · -- the function that was just finished
      subst heq
      right
      rw [if_pos rfl] at hc
      split at hc
      · cases hc
        exact ⟨l, name, params, body, inner, f, result, hmem, hid, hscope, hf, hresult,
          hcode pool hp⟩
      · cases hc
    · rw [if_neg heq] at hc
      have := hgrows.finished pool hp id' code hc
      rwa [hs₄] at this

end Constructs

/-- Every node of the program is lowered. -/
theorem lowers (e : Expr) (he : e ∈ root.nodes) : Lowers root t r e := by
  refine Expr.mem_nodes_induction (fun e he _ ih within => ?_) e he
  cases e with
  | constant l value => exact fun _ => lays_constant _
  | binary l op left right =>
    obtain ⟨hl, hr⟩ : Lowers root t r left ∧ Lowers root t r right := by
      simpa using ih
    by_cases hop : op = .assign
    · subst hop
      cases left with
      | var target name d => exact assignVar_lowers hr
      | element target array index =>
        cases index with
        | none => exact fun _ _ _ _ h => nomatch h
        | some index =>
          have hparts (x : Expr) (hx : x ∈ [array, index]) : Lowers root t r x :=
            within (.element target array (some index)) (List.mem_cons_self ..) x hx
          exact assignElement_lowers (hparts array (by simp)) (hparts index (by simp)) hr
      | _ => exact fun _ _ _ _ h => nomatch h
    · exact operator_lowers hop hl hr
  | var l name d => exact var_lowers name d
  | function l name params body => exact function_lowers he (ih body (by simp))
  | block l body => exact block_lowers ih
  | cond l condition thenBranch elseBranch =>
    have hc := ih condition (by simp)
    have hy := ih thenBranch (by simp)
    cases elseBranch with
    | none => exact ifThen_lowers hc hy
    | some elseBranch => exact ifElse_lowers hc hy (ih elseBranch (by simp))
  | forLoop l init condition step body =>
    exact forLoop_lowers (fun e he => ih e (by simp [he]))
      (fun e he => ih e (by simp [he]))
      (fun e he => ih e (by simp [he])) (ih body (by simp))
  | forTo l counter start bound direction body =>
    exact forTo_lowers (ih start (by simp)) (ih bound (by simp))
      (ih body (by simp))
  | forIn l item iterable body =>
    exact forIn_lowers (ih iterable (by simp)) (ih body (by simp))
  | whileLoop l condition body =>
    exact whileLoop_lowers (ih condition (by simp))
      (ih body (by simp))
  | repeatUntil l body condition =>
    exact repeatUntil_lowers (ih condition (by simp))
      (ih body (by simp))
  | call l name args => exact call_lowers ih
  | ret l value => exact ret_lowers ih
  | paren l inner => exact ih inner (by simp)
  | element l array index =>
    exact element_lowers (ih array (by simp))
      fun e he => ih e (by simp [he])
  | array l elements => exact array_lowers ih

end Walk

theorem collect_eq_ok {span : Span} {id : Nat} {codes : List (Option (Array Instr))}
    {functions : List (Array Instr)} (h : Generate.collect span id codes = .ok functions) :
    codes = functions.map some := by
  induction codes generalizing id functions with
  | nil =>
    cases h
    rfl
  | cons code codes ih =>
    cases code with
    | none => cases h
    | some code =>
      obtain ⟨rest, hrest, hk⟩ := Except.bind_eq_ok h
      cases hk
      rw [ih hrest, List.map_cons]

/-- The code of a program: that of its own statements, and that of every other function. -/
theorem generate_eq_ok {t : ScopeTree} {p : Program} {r : Resolution} {g : Generated}
    (h : t.generate p r = .ok g) :
    g.functions.size = t.functions.size ∧
    ∀ (id : Nat) (code : Array Instr), g.functions[id]? = some code →
      (id = ScopeTree.main →
        lowerBody g.pool ⟨t, r, t.program⟩ .empty p.body = some code.toList) ∧
      (id ≠ ScopeTree.main → Origin p.body t r g.pool id code) := by
  rw [ScopeTree.generate] at h
  cases hrun : Generate.program ⟨t, r, t.program⟩ p
      { builder := { function := ScopeTree.main },
        finished := Array.replicate t.functions.size none } with
  | error d s => simp only [hrun] at h; cases h
  | ok u s =>
    simp only [hrun] at h
    obtain ⟨functions, hcollect, hk⟩ := Except.bind_eq_ok h
    cases hk
    obtain ⟨_, s₁, h₁, k₁⟩ := EStateM.bind_eq_ok hrun
    obtain ⟨_, s₂, h₂, k₂⟩ := EStateM.bind_eq_ok k₁
    have hbody := lowers (t := t) (r := r) p.body (Expr.mem_nodes_self p.body) t.program h₁
    obtain ⟨hgrows, hcode⟩ := body_finished rfl hbody h₂
    have hfinished : s.finished =
        s₂.finished.setIfInBounds ScopeTree.main (some s₂.builder.code) := by
      rw [leave_eq_ok k₂, hgrows.function]
    have hpool : s₂.pool.values <+: s.pool.values :=
      ⟨[], by rw [leave_eq_ok k₂, List.append_nil]⟩
    have hlist := collect_eq_ok hcollect
    refine ⟨?_, fun id code hid => ?_⟩
    · have hlength := congrArg List.length hlist
      rw [List.length_map, Array.length_toList, hfinished, Array.size_setIfInBounds,
        hgrows.size, Array.size_replicate] at hlength
      rw [List.size_toArray, hlength]
    · have hget : s.finished[id]? = some (some code) := by
        rw [← Array.getElem?_toList, hlist, List.getElem?_map]
        rw [List.getElem?_toArray] at hid
        rw [hid, Option.map_some]
      rw [hfinished, Array.getElem?_setIfInBounds] at hget
      constructor
      · intro hmain
        rw [if_pos hmain.symm] at hget
        split at hget
        · cases hget
          exact hcode s.pool hpool
        · cases hget
      · intro hmain
        rw [if_neg (Ne.symm hmain)] at hget
        rcases hgrows.finished s.pool hpool id code hget with hstart | horigin
        · simp [Array.getElem?_replicate] at hstart
        · exact horigin

end TurtleScript.Code

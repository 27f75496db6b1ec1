import TurtleScript.Code.Generate
import TurtleScript.Proofs.Code.Attempts
import TurtleScript.Proofs.Typing.Judgement

/-!
# Runs of the code generator

How a run of the walk over a program ends: at a comparison with an array, or with every marker
released that it acquired, and with the code of every function that it came by. One rule for
each step of the walk, so that the run over a node is the chain of its steps.
-/
namespace TurtleScript.Code

/-- The node compares an array. -/
def Clashes (r : Resolution) (e : Expr) : Prop :=
  ∃ l left right, e = .binary l .equal left right ∧
    ((r.type left).isArray = true ∨ (r.type right).isArray = true)

/-- An array is compared somewhere below. -/
def Bad (r : Resolution) (es : List Expr) : Prop := ∃ e ∈ es, ∃ y ∈ e.nodes, Clashes r y

/-- The function stands somewhere below. -/
def Encloses (t : ScopeTree) (es : List Expr) (id : Nat) : Prop :=
  ∃ e ∈ es, ∃ y ∈ e.nodes, y.isFunction = true ∧ t.functionOf? y.id = some id

/-- Nothing below a node is a comparison or a function. -/
def Still (r : Resolution) (e : Expr) : Prop :=
  ∀ y ∈ e.nodes, ¬ Clashes r y ∧ y.isFunction = false

section Visited

variable {t : ScopeTree} {r : Resolution} {e x : Expr} {es xs ys : List Expr} {id : Nat}

theorem not_bad_nil : ¬ Bad r [] := by
  rintro ⟨x, hx, -⟩
  cases hx

theorem bad_append : Bad r (xs ++ ys) ↔ Bad r xs ∨ Bad r ys := by
  simp only [Bad, List.mem_append, or_and_right, exists_or]

theorem bad_cons : Bad r (x :: xs) ↔ Bad r [x] ∨ Bad r xs := by
  rw [← bad_append]
  rfl

theorem encloses_append : Encloses t (xs ++ ys) id ↔ Encloses t xs id ∨ Encloses t ys id := by
  simp only [Encloses, List.mem_append, or_and_right, exists_or]

theorem encloses_cons : Encloses t (x :: xs) id ↔ Encloses t [x] id ∨ Encloses t xs id := by
  rw [← encloses_append]
  rfl

/-- The list `xs` has all that counts below the node `e`. -/
structure Covers (t : ScopeTree) (r : Resolution) (e : Expr) (xs : List Expr) : Prop where
  bad : Bad r [e] ↔ Bad r xs
  holds : ∀ id, Encloses t [e] id → Encloses t xs id

theorem Still.covers (h : Still r e) : Covers t r e [] where
  bad := by
    refine ⟨?_, fun hbad => absurd hbad not_bad_nil⟩
    rintro ⟨x, hx, y, hy, hclash⟩
    cases List.mem_singleton.mp hx
    exact absurd hclash (h y hy).1
  holds := by
    rintro id ⟨x, hx, y, hy, hfun, -⟩
    cases List.mem_singleton.mp hx
    cases (h y hy).2.symm.trans hfun

theorem bad_node : Bad r [e] ↔ Clashes r e ∨ Bad r e.children := by
  constructor
  · rintro ⟨x, hx, y, hy, hclash⟩
    cases List.mem_singleton.mp hx
    rcases Expr.mem_nodes.mp hy with rfl | ⟨x, hx, hyx⟩
    · exact .inl hclash
    · exact .inr ⟨x, hx, y, hyx, hclash⟩
  · rintro (hclash | ⟨x, hx, y, hy, hclash⟩)
    · exact ⟨e, List.mem_singleton_self e, e, Expr.mem_nodes_self e, hclash⟩
    · exact ⟨e, List.mem_singleton_self e, y, Expr.mem_nodes_child hx hy, hclash⟩

/-- Children below which nothing counts are left out. -/
theorem bad_of_still (h : ∀ x ∈ ys, x ∈ xs ∨ Still r x) (hback : ∀ x ∈ xs, x ∈ ys) :
    Bad r ys ↔ Bad r xs := by
  constructor
  · rintro ⟨x, hx, y, hy, hclash⟩
    rcases h x hx with hmem | hstill
    · exact ⟨x, hmem, y, hy, hclash⟩
    · exact absurd hclash (hstill y hy).1
  · rintro ⟨x, hx, hrest⟩
    exact ⟨x, hback x hx, hrest⟩

theorem encloses_of_still (hfun : e.isFunction = false)
    (h : ∀ x ∈ e.children, x ∈ xs ∨ Still r x) (hid : Encloses t [e] id) : Encloses t xs id := by
  obtain ⟨x, hx, y, hy, hyfun, hid⟩ := hid
  cases List.mem_singleton.mp hx
  rcases Expr.mem_nodes.mp hy with rfl | ⟨x, hx, hyx⟩
  · cases hfun.symm.trans hyfun
  rcases h x hx with hmem | hstill
  · exact ⟨x, hmem, y, hyx, hyfun, hid⟩
  · cases (hstill y hyx).2.symm.trans hyfun

theorem covers_children (hop : ∀ l left right, e ≠ .binary l .equal left right)
    (hfun : e.isFunction = false) (h : ∀ x ∈ e.children, x ∈ xs ∨ Still r x)
    (hback : ∀ x ∈ xs, x ∈ e.children) : Covers t r e xs where
  bad := by
    have hclash : ¬ Clashes r e := by
      rintro ⟨l, left, right, he, -⟩
      exact hop l left right he
    rw [bad_node, bad_of_still h hback]
    exact or_iff_right hclash
  holds := fun _ => encloses_of_still hfun h

theorem Covers.trans (h : Covers t r e (x :: xs)) (hx : Covers t r x ys) :
    Covers t r e (ys ++ xs) where
  bad := by rw [h.bad, bad_cons, hx.bad, bad_append]
  holds := by
    intro id hid
    rw [encloses_append]
    exact (encloses_cons.mp (h.holds id hid)).imp_left (hx.holds id)

theorem still_of_declared (h : Declared e) : Still r e := by
  intro y hy
  refine ⟨?_, h.isFunction hy⟩
  rintro ⟨l, left, right, rfl, -⟩
  rcases h.shape hy with hvar | ⟨_, _, heq⟩
  · cases hvar
  · cases heq

end Visited

/-- The markers in use, by number. -/
def inUse (s : Generation) : List Nat := s.builder.live.map (·.id)

/-- A function has its code. -/
def Finished (s : Generation) (id : Nat) : Prop := ∃ code, s.finished[id]? = some (some code)

/-- Where the walk is since it was at `s₀`: it has opened markers that are still in use, and
visited nodes, whose functions have their code. -/
structure Reached (t : ScopeTree) (s₀ : Generation) (opened : List Marker) (visited : List Expr)
    (s : Generation) : Prop where
  function : s.builder.function = s₀.builder.function
  markers : inUse s = inUse s₀ ++ opened.map (·.id)
  fresh : ∀ id ∈ inUse s, id < s.builder.nextMarker
  nodup : (inUse s).Nodup
  own : ∀ m ∈ opened, m.function = s.builder.function
  size : s.finished.size = s₀.finished.size
  keeps : ∀ id, Finished s₀ id → Finished s id
  done : ∀ id, Encloses t visited id → id < s.finished.size → Finished s id

/-- A run that goes through unless something is bad, and then stops at a comparison. -/
inductive Ends {α : Type} (bad : Prop) (post : α → Generation → Prop) :
    EStateM.Result Diagnostic Generation α → Prop where
  | ok {a : α} {s : Generation} : ¬ bad → post a s → Ends bad post (.ok a s)
  | error {left right : Ty} {span : Span} {s : Generation} : bad →
      Ends bad post (.error ⟨.code (.arrayEquality left right), span⟩ s)

section Runs

variable {α β : Type} {t : ScopeTree} {r : Resolution} {p q : Prop}
  {φ : α → Generation → Prop} {ψ : β → Generation → Prop} {x : Generate α} {f : α → Generate β}
  {s s' s₀ : Generation} {opened : List Marker} {visited xs : List Expr} {e : Expr}

theorem Ends.bind (hx : Ends p φ (x s)) (hf : ∀ a s', φ a s' → Ends q ψ (f a s')) :
    Ends (p ∨ q) ψ ((x >>= f) s) := by
  rw [EStateM.bind_apply]
  generalize x s = res at hx
  cases hx with
  | error hp => exact .error (.inl hp)
  | @ok a s' hp hpost =>
    have hrest := hf a s' hpost
    dsimp only
    generalize f a s' = res at hrest
    cases hrest with
    | error hq => exact .error (.inr hq)
    | ok hq hpost => exact .ok (not_or_intro hp hq) hpost

theorem Ends.imp {res : EStateM.Result Diagnostic Generation α} {φ' : α → Generation → Prop}
    (h : Ends p φ res) (hpq : p ↔ q) (hφ : ∀ a s, φ a s → φ' a s) : Ends q φ' res := by
  cases h with
  | error hp => exact .error (hpq.mp hp)
  | ok hp hpost => exact .ok (fun hq => hp (hpq.mpr hq)) (hφ _ _ hpost)

/-- A step that always goes through comes first. -/
theorem Ends.step (hx : Ends False φ (x s)) (hf : ∀ a s', φ a s' → Ends q ψ (f a s')) :
    Ends q ψ ((x >>= f) s) :=
  (hx.bind hf).imp (iff_of_eq (false_or q)) fun _ _ h => h

theorem Ends.orFail {a : α} {problem : CodeProblem} {span : Span} {o : Option α} (ho : o = some a)
    (hf : Ends q ψ (f a s)) : Ends q ψ ((Generate.orFail problem span o >>= f) s) := by
  rw [ho]
  exact hf

theorem Reached.start (hfresh : ∀ id ∈ inUse s, id < s.builder.nextMarker)
    (hnodup : (inUse s).Nodup) : Reached t s [] [] s where
  function := rfl
  markers := (List.append_nil _).symm
  fresh := hfresh
  nodup := hnodup
  own := nofun
  size := rfl
  keeps := fun _ h => h
  done := by
    rintro id ⟨x, hx, -⟩
    cases hx

/-- A step that only writes code. -/
def Writes (x : Generate α) : Prop :=
  ∀ s, ∃ a s', x s = .ok a s' ∧ s'.finished = s.finished ∧
    s'.builder.function = s.builder.function ∧ s'.builder.live = s.builder.live ∧
    s'.builder.nextMarker = s.builder.nextMarker

theorem Reached.of_same (h : Reached t s₀ opened visited s) (hfinished : s'.finished = s.finished)
    (hfunction : s'.builder.function = s.builder.function) (hnames : inUse s' = inUse s)
    (hnext : s'.builder.nextMarker = s.builder.nextMarker) :
    Reached t s₀ opened visited s' where
  function := hfunction.trans h.function
  markers := hnames.trans h.markers
  fresh := by
    rw [hnames, hnext]
    exact h.fresh
  nodup := hnames ▸ h.nodup
  own := hfunction ▸ h.own
  size := hfinished ▸ h.size
  keeps := by
    intro id hid
    rw [Finished, hfinished]
    exact h.keeps id hid
  done := by
    intro id hid hsize
    rw [Finished, hfinished]
    exact h.done id hid (hfinished ▸ hsize)

theorem Writes.ends (hx : Writes x) (hr : Reached t s₀ opened visited s) :
    Ends False (fun _ => Reached t s₀ opened visited) (x s) := by
  obtain ⟨a, s', hrun, hfinished, hfunction, hlive, hnext⟩ := hx s
  rw [hrun]
  exact .ok id (hr.of_same hfinished hfunction (by rw [inUse, hlive, inUse]) hnext)

theorem Writes.bind (hx : Writes x) (hf : ∀ a, Writes (f a)) : Writes (x >>= f) := by
  intro s
  obtain ⟨a, s₁, hrun, hfinished, hfunction, hlive, hnext⟩ := hx s
  obtain ⟨b, s₂, hrun', hfinished', hfunction', hlive', hnext'⟩ := hf a s₁
  exact ⟨b, s₂, (EStateM.bind_ok hrun).trans hrun', hfinished'.trans hfinished,
    hfunction'.trans hfunction, hlive'.trans hlive, hnext'.trans hnext⟩

theorem writes_pure (a : α) : Writes (Pure.pure a : Generate α) :=
  fun s => ⟨a, s, rfl, rfl, rfl, rfl, rfl⟩

theorem writes_emit (i : Instr) : Writes (Generate.emit i) :=
  fun _ => ⟨(), _, rfl, rfl, rfl, rfl, rfl⟩

theorem writes_emitAll (is : List Instr) : Writes (Generate.emitAll is) := by
  induction is with
  | nil => exact writes_pure ()
  | cons i is ih => exact (writes_emit i).bind fun _ => ih

theorem writes_constant (value : Constant) : Writes (Generate.constant value) :=
  fun _ => ⟨(), _, rfl, rfl, rfl, rfl, rfl⟩

theorem writes_typeOf {c : Generate.Context} {type : Ty}
    (h : c.resolution.typeOf? e.id = some type) : Writes (Generate.typeOf c e) := by
  rw [Generate.typeOf, h]
  exact writes_pure type

theorem writes_dropValue {c : Generate.Context} {type : Ty}
    (h : c.resolution.typeOf? e.id = some type) : Writes (Generate.dropValue c e) := by
  refine (writes_typeOf h).bind fun type => ?_
  cases type.isEmpty with
  | true => exact writes_pure ()
  | false => exact writes_emit _

theorem writes_epilogue {c : Generate.Context} {type result : Ty}
    (h : c.resolution.typeOf? e.id = some type) : Writes (Generate.epilogue c e result) := by
  refine (writes_typeOf h).bind fun type => ?_
  split
  · exact writes_emit _
  · cases type.isEmpty with
    | true => exact writes_emit _
    | false => exact (writes_emit _).bind fun _ => writes_emit _

/-- Code is written, and the walk goes on. -/
theorem Ends.write (hx : Writes x) (hr : Reached t s₀ opened visited s)
    (hf : ∀ a s', Reached t s₀ opened visited s' → Ends q ψ (f a s')) : Ends q ψ ((x >>= f) s) :=
  (hx.ends hr).step hf

theorem onCode_ok {step : CodeBuilder.Build α} {a : α} {b : CodeBuilder}
    (h : step s.builder = .ok a b) : Generate.onCode step s = .ok a { s with builder := b } := by
  rw [Generate.onCode, h]

theorem Reached.alike {b : CodeBuilder} (h : Reached t s₀ opened visited s)
    (ha : s.builder.Alike b) : Reached t s₀ opened visited { s with builder := b } :=
  h.of_same rfl ha.function ha.ids ha.next

theorem Reached.uses {m : Marker} (h : Reached t s₀ opened visited s) (hm : m ∈ opened) :
    s.builder.Uses m := by
  have hmem : m.id ∈ inUse s := by
    rw [h.markers]
    exact List.mem_append_right _ (List.mem_map_of_mem hm)
  exact ⟨h.own m hm, hmem⟩

theorem Ends.acquire {f : Marker → Generate β} (hr : Reached t s₀ opened visited s)
    (hf : ∀ m s', Reached t s₀ (opened ++ [m]) visited s' → Ends q ψ (f m s')) :
    Ends q ψ ((Generate.acquire >>= f) s) := by
  refine hf { id := s.builder.nextMarker, function := s.builder.function } _ ?_
  have hnames (b : CodeBuilder) (hb : b.live = s.builder.live ++
      [{ id := s.builder.nextMarker, index := s.builder.code.size }]) :
      inUse { s with builder := b } = inUse s ++ [s.builder.nextMarker] := by
    simp only [inUse, hb, List.map_append, List.map_cons, List.map_nil]
  constructor
  case function => exact hr.function
  case markers =>
    rw [hnames _ rfl, hr.markers, List.map_append, List.append_assoc]
    rfl
  case fresh =>
    intro id hid
    rw [hnames _ rfl, List.mem_append, List.mem_singleton] at hid
    rcases hid with hid | rfl
    · exact Nat.lt_succ_of_lt (hr.fresh id hid)
    · exact Nat.lt_succ_self _
  case nodup =>
    rw [hnames _ rfl, List.nodup_append]
    refine ⟨hr.nodup, by simp, fun a ha b hb => ?_⟩
    rw [List.mem_singleton.mp hb]
    exact Nat.ne_of_lt (hr.fresh a ha)
  case own =>
    intro m hm
    rcases List.mem_append.mp hm with hm | hm
    · exact hr.own m hm
    · rw [List.mem_singleton.mp hm]
  case size => exact hr.size
  case keeps => exact hr.keeps
  case done => exact hr.done

theorem Ends.placeJump {m target : Marker} {kind : JumpKind} {f : Unit → Generate β}
    (hr : Reached t s₀ opened visited s) (hm : m ∈ opened) (htarget : target ∈ opened)
    (hf : ∀ s', Reached t s₀ opened visited s' → Ends q ψ (f () s')) :
    Ends q ψ ((Generate.placeJump m kind target >>= f) s) := by
  obtain ⟨b, hb, halike⟩ := CodeBuilder.placeJump_ok kind (hr.uses hm) (hr.uses htarget)
  have hrun : Generate.placeJump m kind target s = .ok () { s with builder := b } := onCode_ok hb
  rw [EStateM.bind_ok hrun]
  exact hf _ (hr.alike halike)

theorem Ends.emitJump {target : Marker} {kind : JumpKind} {f : Unit → Generate β}
    (hr : Reached t s₀ opened visited s) (htarget : target ∈ opened)
    (hf : ∀ s', Reached t s₀ opened visited s' → Ends q ψ (f () s')) :
    Ends q ψ ((Generate.emitJump kind target >>= f) s) := by
  obtain ⟨k, b, hb, halike⟩ := CodeBuilder.emitJump_ok kind (hr.uses htarget)
  have hrun : Generate.emitJump kind target s = .ok () { s with builder := b } := by
    change EStateM.map _ (Generate.onCode (CodeBuilder.emitJump kind target)) s = _
    rw [EStateM.map, onCode_ok hb]
  rw [EStateM.bind_ok hrun]
  exact hf _ (hr.alike halike)

/-- The markers opened last are released. -/
theorem ends_releaseAll (ms : List Marker) (hr : Reached t s₀ (opened ++ ms) visited s) :
    Ends False (fun _ => Reached t s₀ opened visited) (Generate.releaseAll ms s) := by
  induction ms generalizing s with
  | nil =>
    rw [List.append_nil] at hr
    exact .ok id hr
  | cons m ms ih =>
    have hm : m ∈ opened ++ m :: ms := by simp
    obtain ⟨a, ha⟩ := Tokens.anchor_ok (hr.uses hm).1 (hr.uses hm).2
    obtain ⟨-, -, hfind⟩ := Tokens.anchor_eq_ok_iff.mp ha
    have hrelease : CodeBuilder.release m s.builder =
        .ok () { s.builder with live := s.builder.live.erase a } := EStateM.bind_ok ha
    have hnames : inUse { s with builder := { s.builder with live := s.builder.live.erase a } } =
        inUse s₀ ++ (opened ++ ms).map (·.id) := by
      have herase := Draft.ids_erase hfind
      have hnodup := hr.nodup
      have hmarkers := hr.markers
      simp only [inUse] at herase hnodup hmarkers ⊢
      rw [herase]
      rw [hmarkers] at hnodup ⊢
      simp only [List.map_append, List.map_cons, ← List.append_assoc] at hnodup ⊢
      obtain ⟨-, -, hapart⟩ := List.nodup_append.mp hnodup
      rw [List.erase_append_right _ fun hmem => hapart _ hmem _ List.mem_cons_self rfl,
        List.erase_cons_head]
    have hsub (id : Nat) (hid : id ∈ inUse s₀ ++ (opened ++ ms).map (·.id)) : id ∈ inUse s := by
      rw [hr.markers]
      simp only [List.map_append, List.map_cons, List.mem_append, List.mem_cons] at hid ⊢
      rcases hid with hid | hid | hid <;> simp only [hid, true_or, or_true]
    rw [Generate.releaseAll, EStateM.bind_ok (onCode_ok hrelease)]
    refine ih {
      function := hr.function
      markers := hnames
      fresh := fun id hid => hr.fresh id (hsub id (hnames ▸ hid))
      nodup := ?_
      own := fun m' hm' => hr.own m' ?_
      size := hr.size
      keeps := hr.keeps
      done := hr.done }
    · rw [hnames]
      refine hr.nodup.sublist ?_
      rw [hr.markers]
      exact .append_left (.map _ (.append_left (List.sublist_cons_self m ms) _)) _
    · simp only [List.mem_append, List.mem_cons] at hm' ⊢
      rcases hm' with hm' | hm' <;> simp only [hm', true_or, or_true]

end Runs

end TurtleScript.Code

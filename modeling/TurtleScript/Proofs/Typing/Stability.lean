import TurtleScript.Proofs.Typing.Completeness

/-!
# The types of variables stay as they are

Where a program uses a variable, the node gets the type that the variable has at that moment.
The resolver gives a type to a variable that has none, and changes one in a single place: when
it has come through the array and the variable of a loop over an array, it sets the hidden array
of the loop, whatever type that had. So the type that a node got is the type that the variable
keeps, unless the node names the hidden array of a loop and stands in front of its body.
-/
namespace TurtleScript

open ScopeTree Semantics

section Changes

variable {p : Expr → Prop} {s s' : Typing} {id : Nat} {v v' : Variable} {type : Ty}

theorem eq_of_setVariableType {t : ScopeTree} {id' : Nat} {type' : Ty}
    (hv : t.vars[id]? = some v) (hv' : (t.setVariableType id' type').vars[id]? = some v')
    (hne : v'.type ≠ v.type) : id' = id := by
  rw [vars_setVariableType, hv] at hv'
  cases hv'
  by_cases hid : id' = id
  · exact hid
  · exact absurd (if_neg hid) hne

/-- A change of the type that a variable has is one of the hidden array of a loop. -/
theorem Change.is_iterated {e : Expr} (h : Change e s s') (hv : s.tree.vars[id]? = some v)
    (htype : v.type = some type) (hv' : s'.tree.vars[id]? = some v') (hne : v'.type ≠ some type) :
    ∃ l item iterable body slots element types, e = .forIn l item iterable body ∧
      s.types = (item.id, element) :: types ∧ s.tree.loopSlotsOf? l.id = some slots ∧
      slots.array = id := by
  rw [← htype] at hne
  cases h with
  | visited | typed | returned =>
    cases hv.symm.trans hv'
    exact absurd rfl hne
  | bound _ _ hopen =>
    obtain rfl := eq_of_setVariableType hv hv' hne
    cases htype.symm.trans (hopen v hv)
  | iterated _ hitem hslots =>
    exact ⟨_, _, _, _, _, _, _, rfl, hitem, hslots, eq_of_setVariableType hv hv' hne⟩

/-- A variable that had a type and has another in the end is the hidden array of a loop, which
was set when the variable of the loop had just got its type. -/
theorem Changes.exists_iterated (h : Changes p s s') (hv : s.tree.vars[id]? = some v)
    (htype : v.type = some type) (hv' : s'.tree.vars[id]? = some v') (hne : v'.type ≠ some type) :
    ∃ s₁ l item iterable body slots element types, Changes p s s₁ ∧ Changes p s₁ s' ∧
      p (.forIn l item iterable body) ∧ s₁.types = (item.id, element) :: types ∧
      s₁.tree.loopSlotsOf? l.id = some slots ∧ slots.array = id := by
  induction h generalizing v' with
  | refl =>
    cases hv.symm.trans hv'
    exact absurd htype hne
  | @tail s₁ s' hbefore hstep ih =>
    obtain ⟨u, hu, -⟩ := (Changes.refines hbefore).vars id v hv
    by_cases hkept : u.type = some type
    · have hlast : Changes p s₁ s' := .single hstep
      obtain ⟨e, he, hchange⟩ := hstep
      obtain ⟨l, item, iterable, body, slots, element, types, rfl, hfacts⟩ :=
        hchange.is_iterated hu hkept hv' hne
      exact ⟨s₁, l, item, iterable, body, slots, element, types, hbefore, hlast, he, hfacts⟩
    · obtain ⟨s₂, l, item, iterable, body, slots, element, types, hstart, hend, hfacts⟩ :=
        ih hu hkept
      exact ⟨s₂, l, item, iterable, body, slots, element, types, hstart, hend.tail hstep, hfacts⟩

end Changes

/-- In a table without repetition, what stands behind an entry has a larger position. -/
theorem idxOf_lt_of_split {table front rest : List (Nat × Ty)} {a b : Nat × Ty}
    (hnodup : (table.map Prod.fst).Nodup) (h : table = front ++ a :: rest) (hb : b ∈ rest) :
    (table.map Prod.fst).idxOf a.1 < (table.map Prod.fst).idxOf b.1 := by
  rw [h, List.map_append, List.map_cons] at hnodup ⊢
  obtain ⟨-, hrest, hdisjoint⟩ := List.nodup_append.mp hnodup
  have hb := List.mem_map_of_mem (f := Prod.fst) hb
  have ha : a.1 ∉ front.map Prod.fst := fun ha => hdisjoint _ ha _ List.mem_cons_self rfl
  have hb' : b.1 ∉ front.map Prod.fst := fun hb' =>
    hdisjoint _ hb' _ (List.mem_cons_of_mem a.1 hb) rfl
  have hne : a.1 ≠ b.1 := fun hab => (List.nodup_cons.mp hrest).1 (hab ▸ hb)
  rw [List.idxOf_append, List.idxOf_append, if_neg ha, if_neg hb', List.idxOf_cons_self,
    List.idxOf_cons, beq_false_of_ne hne]
  simp

namespace ScopeTree

variable {t : ScopeTree} {p : Program} {host : Host} {cancelled : Cancellation} {r : Resolution}
  {there : Position} {l lf : Label} {name : String} {d : Option Expr}
  {y item iterable body : Expr}

/-- A name that stands for the hidden array of a loop lies in the loop. -/
theorem mem_loop_of_lookup {slots : LoopSlots} (hn : Expr.Numbered 0 p.body p.nodeCount)
    (hclean : (build p host).problems = [])
    (hsits : (build p host).tree.Sits ⟨(build p host).tree.program, main⟩ p.body there y)
    (hloop : .forIn lf item iterable body ∈ p.body.nodes)
    (hslots : (build p host).tree.loopSlotsOf? lf.id = some slots)
    (hid : (build p host).tree.lookupVariable? there.scope name = some slots.array) :
    y ∈ (Expr.forIn lf item iterable body).nodes := by
  have hbuilt := build_clean hn hclean
  have hrepresents := represents hn hclean
  have hdeclares := build_declares hn hclean
  obtain ⟨i, haround, hi⟩ := declared_around hid
  have hencloses := build_encloses hn hclean hsits haround
  generalize (build p host).tree = t at *
  -- the array is declared in the scope of the loop, and nowhere else
  obtain ⟨e, he, lf', item', iterable', body', name', j, rfl, hl, hj, harray⟩ :=
    (hdeclares.loops _ (mem_of_lookup hslots)).resolve_left nofun
  have hl : lf.id = lf'.id := hl
  cases hn.eq_of_id hloop he hl
  obtain rfl := hdeclares.single .start i j name name' _ hi harray
  have hscope : t.scopeOf? lf.id = some i := lookup_of_mem hbuilt.scopeKeys hj
  rcases hencloses with rfl | rfl | ⟨z, hz, hopens, hscope', hy⟩
  · obtain ⟨outer, declarer, hwithin⟩ := hrepresents.placed _ hloop
    obtain ⟨i, -, parent, -, hi', -, -, -, -, hlt, -⟩ :=
      hrepresents.nested outer declarer _ hwithin rfl fun _ => rfl
    cases hscope.symm.trans hi'
    cases hlt
  · cases (hrepresents.programOnly _ hloop hscope).2
  · cases hrepresents.apart z hz _ hloop hopens rfl (hscope'.trans hscope.symm)
    exact hy

/-- A variable in the body of a loop gets its type after the variable of the loop. -/
theorem exists_item_before {t₀ : ScopeTree} (hn : Expr.Numbered 0 p.body p.nodeCount)
    (h : t₀.resolve p host cancelled = (.ok r, t))
    (hloop : p.body.Reaches (.forIn lf item iterable body)) (hy : body.Reaches (.var l name d)) :
    ∃ front type rest element, r.types = front ++ (l.id, type) :: rest ∧
      (item.id, element) ∈ rest := by
  obtain ⟨there, hsits⟩ := Sits.exists_of_reaches (t := t₀) hloop ⟨t₀.program, main⟩
  obtain ⟨c, s₁, s₂, visits, -, hbefore, ⟨type, hvisit⟩ | ⟨_, ⟨⟩⟩, hafter⟩ := resolve_meets h hsits
  obtain ⟨scope, iterableType, s₃, element, s₄, slots, bodyType, s₅, -, -, hitem, -, hbody, rfl⟩ :=
    Resolve.visit_forIn_eq_ok hvisit
  have hitem : Resolve.Meets _ item s₃ s₄ := .inr ⟨element, hitem⟩
  obtain ⟨itemType, hrecorded⟩ := hitem.recorded
  -- the body is visited when the variable of the loop has its type
  obtain ⟨there', hsits'⟩ := Sits.exists_of_reaches (t := s₄.tree.setVariableType slots.array
    iterableType) hy ⟨scope, c.function⟩
  obtain ⟨c', s₆, s₇, -, hbefore', hmeets, hafter'⟩ :=
    Resolve.visit_meets hsits' (.refl _) hbody
  obtain ⟨type', types, -, -, htypes, -⟩ := hmeets.bound
  have hmem : (item.id, itemType) ∈ (l.id, type') :: types := by
    rw [← htypes]
    exact (hbefore'.suffix.trans hmeets.changes.suffix).subset hrecorded
  have hne : item.id ≠ l.id := by
    obtain ⟨lo, hi, hnloop, -⟩ := hn.mem hloop.mem
    obtain ⟨mid, hnitem, hrest⟩ := hnloop.children_numbered.uncons
    obtain ⟨lo', hi', hnbody, hlo, -⟩ := hrest.mem (List.mem_cons_of_mem iterable List.mem_cons_self)
    have := hnitem.lt
    have := (hnbody.id_bounds hy.mem).1
    rw [hnitem.id_eq]
    change lo' ≤ l.id at this
    omega
  obtain ⟨front, hfront⟩ := (hafter'.suffix.trans (List.suffix_cons _ _)).trans hafter.suffix
  rw [htypes] at hfront
  exact ⟨front, type', types, itemType, hfront.symm,
    (List.mem_cons.mp hmem).resolve_left fun he => hne (Prod.mk.inj he).1⟩

section Stable

variable (hn : Expr.Numbered 0 p.body p.nodeCount) (hclean : (build p host).problems = [])
  (h : (build p host).tree.resolve p host cancelled = (.ok r, t))

include hn hclean h

/-- The type that a variable has where it stands, and in the end. -/
theorem type_of_sits
    (hsits : (build p host).tree.Sits ⟨(build p host).tree.program, main⟩ p.body there
      (.var l name d)) :
    ∃ id v type, t.lookupVariable? there.scope name = some id ∧ t.vars[id]? = some v ∧
      r.typeOf? l.id = some type ∧ (v.type = some type ∨ Text.isIdentifier name = false ∧
        ∃ lf item iterable body slots, .forIn lf item iterable body ∈ p.body.nodes ∧
          t.loopSlotsOf? lf.id = some slots ∧ slots.array = id ∧
          (.var l name d ∈ item.nodes ∨ .var l name d ∈ iterable.nodes)) := by
  have hbuilt := build_clean hn hclean
  have hkeys := resolve_nodup hbuilt hn h
  obtain ⟨c, s₁, s₂, visits, hc, hbefore, hmeets, hafter⟩ := resolve_meets h hsits
  obtain ⟨type, types, id, v, htypes, hid, hv, htype⟩ := hmeets.bound
  have hscope : c.scope = there.scope := congrArg Position.scope hc
  obtain ⟨v', hv', -⟩ := hafter.refines.vars id v hv
  have hid' : t.lookupVariable? there.scope name = some id := by
    rw [← hscope]
    exact (hafter.refines.lookupVariable? c.scope name).trans hid
  have hnode : r.typeOf? l.id = some type := by
    refine lookup_of_mem hkeys (hafter.suffix.subset ?_)
    rw [htypes]
    exact List.mem_cons_self
  refine ⟨id, v', type, hid', hv', hnode, ?_⟩
  by_cases hkept : v'.type = some type
  · exact .inl hkept
  obtain ⟨s₃, lf, item, iterable, body, slots, element, types', hstart, hend, hloop, hitem, hslots,
    rfl⟩ := hafter.exists_iterated hv htype hv' hkept
  obtain ⟨visits, hchanges⟩ := resolve_changes h
  have hrefines := hchanges.refines
  have hslots₀ : (build p host).tree.loopSlotsOf? lf.id = some slots := by
    rw [loopSlotsOf?, hend.refines.loopSlots.symm.trans hrefines.loopSlots] at hslots
    exact hslots
  rw [hrefines.lookupVariable?] at hid'
  refine .inr ⟨?_, lf, item, iterable, body, slots, hloop.mem, ?_, rfl, ?_⟩
  · rw [← Bool.not_eq_true]
    exact fun hname => hbuilt.not_loopArray hname hid' ⟨_, mem_of_lookup hslots₀, rfl⟩
  · rw [loopSlotsOf?, hrefines.loopSlots]
    exact hslots₀
  obtain ⟨x, hx, hin⟩ := (Expr.mem_nodes.mp
    (mem_loop_of_lookup hn hclean hsits hloop.mem hslots₀ hid')).resolve_left (by simp)
  obtain rfl | rfl | rfl : x = item ∨ x = iterable ∨ x = body := by
    simpa using hx
  · exact .inl hin
  · exact .inr hin
  -- in the body, the variable would have got its type after that of the loop, and before
  · exfalso
    have hx := Expr.mem_nodes_trans hloop.mem (Expr.mem_nodes_child hx x.mem_nodes_self)
    obtain ⟨lo, hi, hnx, -⟩ := hn.mem hx
    have hreach : x.Reaches (.var l name d) := by
      refine (Expr.reaches_iff hnx).mpr ⟨hin, fun hin => ?_⟩
      obtain ⟨l', name', type', hvar, hy⟩ := hin
      exact ((Expr.reaches_iff hn).mp hsits.reaches).2
        ⟨l', name', type', Expr.mem_nodes_trans hx hvar, hy⟩
    obtain ⟨front, type', rest, element', hsplit, hrest⟩ := exists_item_before hn h hloop hreach
    have hafterwards := idxOf_lt_of_split hkeys hsplit hrest
    obtain ⟨front', hsplit'⟩ := hend.suffix
    have hmem : (l.id, type) ∈ s₃.types :=
      hstart.suffix.subset (htypes ▸ List.mem_cons_self)
    rw [hitem] at hsplit' hmem
    rcases List.mem_cons.mp hmem with heq | hmem
    · exact absurd hafterwards (by simp [(Prod.mk.inj heq).1])
    · exact absurd (idxOf_lt_of_split hkeys hsplit'.symm hmem) (Nat.lt_asymm hafterwards)

end Stable

/-- Wherever a variable stands in a program that is accepted, but for the types of declarations,
the node has the type that the variable keeps. The one exception is the hidden array of a loop,
which no identifier names, in front of the body of the loop. -/
theorem resolve_stable (body : Expr) (host : Host) (cancelled : Cancellation) {r : Resolution}
    {t : ScopeTree} (hclean : (build (.ofExpr body) host).problems = [])
    (hresolve : (build (.ofExpr body) host).tree.resolve (.ofExpr body) host cancelled =
      (.ok r, t)) {l : Label} {name : String} {d : Option Expr}
    (hmem : .var l name d ∈ (Program.ofExpr body).body.nodes)
    (hout : ¬ (Program.ofExpr body).body.InType (.var l name d)) :
    (∃ here, t.Sits ⟨t.program, main⟩ (Program.ofExpr body).body here (.var l name d)) ∧
    ∀ here, t.Sits ⟨t.program, main⟩ (Program.ofExpr body).body here (.var l name d) →
      ∃ id v type, t.lookupVariable? here.scope name = some id ∧ t.vars[id]? = some v ∧
        r.typeOf? l.id = some type ∧ (v.type = some type ∨ Text.isIdentifier name = false ∧
          ∃ lf item iterable inner slots,
            .forIn lf item iterable inner ∈ (Program.ofExpr body).body.nodes ∧
            t.loopSlotsOf? lf.id = some slots ∧ slots.array = id ∧
            (.var l name d ∈ item.nodes ∨ .var l name d ∈ iterable.nodes)) := by
  have hn : Expr.Numbered 0 (Program.ofExpr body).body (Program.ofExpr body).nodeCount :=
    body.renumber_numbered 0
  obtain ⟨visits, hchanges⟩ := resolve_changes hresolve
  have hrefines := hchanges.refines
  refine ⟨Sits.exists_of_reaches ((Expr.reaches_iff hn).mpr ⟨hmem, hout⟩) _, fun here hsits => ?_⟩
  rw [hrefines.program] at hsits
  exact type_of_sits hn hclean hresolve
    (hsits.congr hrefines.nodeScopes.symm hrefines.nodeFunctions.symm)

theorem resolve_stable_totalling : ∃ r t here id v type,
    (build (.ofExpr totalling) .empty).problems = [] ∧
    (build (.ofExpr totalling) .empty).tree.resolve (.ofExpr totalling) .empty false = (.ok r, t) ∧
    t.Sits ⟨t.program, main⟩ (Program.ofExpr totalling).body here (.var ⟨18, {}⟩ "x" none) ∧
    t.lookupVariable? here.scope "x" = some id ∧ t.vars[id]? = some v ∧
    r.typeOf? 18 = some type ∧ v.type = some type := by
  have hbuild : (build (.ofExpr totalling) .empty).problems = [] := by decide +kernel
  have hok : ((build (.ofExpr totalling) .empty).tree.resolve (.ofExpr totalling) .empty
      false).1.toOption.isSome = true := by decide +kernel
  have hreach : (Program.ofExpr totalling).body.Reaches (.var ⟨18, {}⟩ "x" none) :=
    .child rfl (List.mem_of_getElem? (i := 1) rfl) <|
    .child rfl (List.mem_of_getElem? (i := 1) rfl) <|
    .child rfl (List.mem_of_getElem? (i := 1) rfl) <|
    .child rfl (List.mem_of_getElem? (i := 2) rfl) <|
    .child rfl (List.mem_of_getElem? (i := 1) rfl) <|
    .child rfl (List.mem_of_getElem? (i := 1) rfl) (.self _)
  generalize hresolve : ScopeTree.resolve _ _ _ _ = resolved at hok ⊢
  obtain ⟨_ | r, t⟩ := resolved
  case error => cases hok
  obtain ⟨hmem, hout⟩ := (Expr.reaches_iff (totalling.renumber_numbered 0)).mp hreach
  obtain ⟨⟨here, hsits⟩, hstable⟩ :=
    resolve_stable totalling .empty false hbuild hresolve hmem hout
  obtain ⟨id, v, type, hid, hv, hnode, htype | ⟨hname, -⟩⟩ := hstable here hsits
  · exact ⟨r, t, here, id, v, type, hbuild, rfl, hsits, hid, hv, hnode, htype⟩
  · exact absurd hname (by decide +kernel)

/-- A loop that counts with the hidden array of the loop around it. -/
def countingLoop : Expr :=
  .forTo ⟨3, {}⟩ (.var ⟨4, {}⟩ "$array0" none) (.constant ⟨5, {}⟩ (.number .one))
    (.constant ⟨6, {}⟩ (.number .one)) .up (.block ⟨7, {}⟩ [])

/-- The array to go over. -/
def borrowed : Expr :=
  .block ⟨2, {}⟩ [countingLoop, .array ⟨8, {}⟩ [.constant ⟨9, {}⟩ (.number .one)]]

def borrowing : Expr :=
  .forIn ⟨0, {}⟩ (.var ⟨1, {}⟩ "x" none) borrowed (.block ⟨10, {}⟩ [])

theorem body_borrowing : (Program.ofExpr borrowing).body = borrowing := rfl

/-- The counter is a number where it stands, and an array in the end. -/
theorem borrowing_changes : ∃ r t here id v,
    (build (.ofExpr borrowing) .empty).problems = [] ∧
    (build (.ofExpr borrowing) .empty).tree.resolve (.ofExpr borrowing) .empty false = (.ok r, t) ∧
    t.Sits ⟨t.program, main⟩ (Program.ofExpr borrowing).body here (.var ⟨4, {}⟩ "$array0" none) ∧
    t.lookupVariable? here.scope "$array0" = some id ∧ t.vars[id]? = some v ∧
    r.typeOf? 4 = some .double ∧ v.type = some (.array .double) := by
  have hbuild : (build (.ofExpr borrowing) .empty).problems = [] := by decide +kernel
  have hfacts : (fun x : Except Diagnostic Resolution × ScopeTree =>
      x.1.toOption.bind (·.typeOf? 4) = some .double ∧ x.2.scopeOf? countingLoop.id = some 4 ∧
      (x.2.lookupVariable? 4 "$array0").bind (fun id => (x.2.vars[id]?).bind (·.type)) =
        some (.array .double))
      ((build (.ofExpr borrowing) .empty).tree.resolve (.ofExpr borrowing) .empty false) := by
    decide +kernel
  generalize hresolve : ScopeTree.resolve _ _ _ _ = resolved at hfacts ⊢
  obtain ⟨_ | r, t⟩ := resolved
  case error => cases hfacts.1
  obtain ⟨hnode, hcounting, hvariable⟩ := hfacts
  obtain ⟨id, hid, hv⟩ := Option.bind_eq_some_iff.mp hvariable
  obtain ⟨v, hv, htype⟩ := Option.bind_eq_some_iff.mp hv
  have hscope (here : Position) : (t.below here countingLoop).scope = 4 := by
    rw [below, hcounting]
    rfl
  refine ⟨r, t, t.below (t.below (t.below ⟨t.program, main⟩ borrowing) borrowed) countingLoop, id, v,
    hbuild, rfl, ?_, ?_, hv, hnode, htype⟩
  · rw [body_borrowing]
    exact .child rfl (List.mem_cons_of_mem _ List.mem_cons_self)
      (.child rfl List.mem_cons_self (.child rfl List.mem_cons_self .self))
  · rw [hscope]
    exact hid

end ScopeTree

end TurtleScript

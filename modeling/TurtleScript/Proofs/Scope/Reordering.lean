import TurtleScript.Proofs.Scope.Exchange

/-!
# Programs in another order

Exchanging two members of a block, anywhere in a program, leaves the walk as it is up to that
block. The block may not stand in a type, a parameter or the place of a loop variable: there
both programs are refused. After the two members, the two walks go over the same nodes in trees
that say the same under other numbers.
-/
namespace TurtleScript

open ScopeTree Renaming

namespace Expr

/-- The children that are read where they stand: types, parameters and the variables of loops. -/
def read : Expr → List Expr
  | .var _ _ type => type.toList
  | .function _ _ params _ => params
  | .forTo _ counter .. => [counter]
  | .forIn _ item .. => [item]
  | _ => []

theorem children_eq (e : Expr) : e.children = e.read ++ e.visited := by
  cases e with
  | var => exact (List.append_nil _).symm
  | _ => rfl

theorem read_relabel (ν : Nat → Nat) (e : Expr) : (e.relabel ν).read = e.read.map (relabel ν) := by
  cases e with
  | var l name d => cases d <;> rfl
  | function l name params body => exact relabelList_eq ν params
  | _ => rfl

theorem shell_relabel_of_id {ν : Nat → Nat} {e : Expr} (h : ν e.id = e.id) :
    (e.relabel ν).shell = e.shell := by
  rw [shell_relabel, h]
  cases e <;> rfl

theorem length_read_of_shell {e e' : Expr} (h : e.shell = e'.shell) :
    e.read.length = e'.read.length := by
  have hself (e : Expr) : e.shell.read.length = e.read.length := by
    cases e with
    | var l name d => cases d <;> rfl
    | function => exact List.length_map _
    | _ => rfl
  rw [← hself, h, hself]

theorem isBlock_of_shell {e e' : Expr} (h : e.shell = e'.shell) : e.isBlock = e'.isBlock := by
  have hself (e : Expr) : e.shell.isBlock = e.isBlock := by cases e <;> rfl
  rw [← hself, h, hself]

/-- A member that changes lies in both nodes among those that are read, or in both among those
that are visited. -/
theorem split_children {e e' c c' : Expr} {pre post : List Expr} (hshell : e.shell = e'.shell)
    (hchildren : e.children = pre ++ c :: post) (hchildren' : e'.children = pre ++ c' :: post) :
    c ∈ e.read ∧ c' ∈ e'.read ∨ e'.read = e.read ∧ ∃ pre', pre = e.read ++ pre' ∧
      e.visited = pre' ++ c :: post ∧ e'.visited = pre' ++ c' :: post := by
  have hlength := length_read_of_shell hshell
  rw [children_eq] at hchildren hchildren'
  by_cases hlt : pre.length < e.read.length
  · have hmem {read visited : List Expr} {c : Expr} (h : read ++ visited = pre ++ c :: post)
        (hlt : pre.length < read.length) : c ∈ read := by
      have hprefix : pre ++ [c] <+: read ++ visited := ⟨post, by simp [h]⟩
      refine (List.prefix_of_prefix_length_le hprefix ⟨visited, rfl⟩ ?_).subset (by simp)
      rw [List.length_append]
      exact hlt
    exact .inl ⟨hmem hchildren hlt, hmem hchildren' (hlength ▸ hlt)⟩
  · have hprefix : e.read <+: pre ++ c :: post := ⟨e.visited, hchildren⟩
    obtain ⟨pre', rfl⟩ :=
      List.prefix_of_prefix_length_le hprefix ⟨c :: post, rfl⟩ (Nat.not_lt.mp hlt)
    rw [List.append_assoc] at hchildren hchildren'
    obtain ⟨hread', hvisited'⟩ := List.append_inj hchildren' hlength.symm
    exact .inr ⟨hread', pre', rfl, List.append_cancel_left hchildren, hvisited'⟩

theorem Exchanges.exists_block {ν : Nat → Nat} {x y e e' : Expr} (h : Exchanges ν x y e e') :
    (∃ f ∈ e.nodes, f.isBlock = true) ∧ ∃ f ∈ e'.nodes, f.isBlock = true := by
  induction h with
  | members => exact ⟨⟨_, mem_nodes_self _, rfl⟩, _, mem_nodes_self _, rfl⟩
  | inside _ _ hchildren hchildren' _ _ _ ih =>
    obtain ⟨⟨f, hf, hblock⟩, f', hf', hblock'⟩ := ih
    refine ⟨⟨f, mem_nodes_child ?_ hf, hblock⟩, f', mem_nodes_child ?_ hf', hblock'⟩
    · rw [hchildren]
      simp
    · rw [hchildren']
      simp

theorem Exchanges.shell_eq {ν : Nat → Nat} {x y e e' : Expr} (h : Exchanges ν x y e e') :
    e.shell = e'.shell := by
  cases h with
  | members => simp [shell]
  | inside _ hshell => exact hshell

theorem Exchanges.id_eq {ν : Nat → Nat} {x y e e' : Expr} (h : Exchanges ν x y e e') :
    ν e.id = e.id := by
  cases h with
  | members hid => exact hid
  | inside hid => exact hid

theorem statements_of_block {e : Expr} (h : e.isBlock = true) : e.statements = e.children := by
  cases e with
  | block => rfl
  | _ => cases h

theorem statements_of_not_block {e : Expr} (h : e.isBlock = false) : e.statements = [e] := by
  cases e with
  | block => cases h
  | _ => rfl

end Expr

namespace Building

variable {scope function : Nat} {b : Building} {e e' c : Expr}

/-- Entering a node depends on the node and on what is read there. -/
theorem enter_congr (hshell : e.shell = e'.shell) (hread : e.read = e'.read) :
    enter scope function b e = enter scope function b e' := by
  cases e <;> cases e' <;>
    simp only [Expr.shell, reduceCtorEq, Expr.var.injEq, Expr.function.injEq, Expr.block.injEq,
      Expr.forLoop.injEq, Expr.forTo.injEq, Expr.forIn.injEq] at hshell <;>
    first
    | rfl
    | simp_all [Expr.read, enter, toList_inj]

theorem declared_of_declare {l : Label} {name : String} {type : Expr}
    (h : (b.declare scope function name type l.span).problems = []) :
    Declared (.var l name (some type)) := by
  refine ⟨l, name, some type, rfl, ?_⟩
  rintro _ ⟨⟩
  cases htype : declaredType? type with
  | some ty => exact ⟨ty, rfl⟩
  | none =>
    rw [declare, htype] at h
    split at h <;> simp [report] at h

theorem declared_of_declareLoopVariable
    (h : (b.declareLoopVariable scope function e).problems = []) : Declared e := by
  cases e with
  | var l name d =>
    cases d with
    | none => exact ⟨l, name, none, rfl, nofun⟩
    | some type => exact declared_of_declare h
  | _ => simp [declareLoopVariable, report] at h

/-- Where no problem is met, no block is read. -/
theorem not_isBlock_of_read (h : (enter scope function b e).2.problems = []) (hc : c ∈ e.read)
    {f : Expr} (hf : f ∈ c.nodes) : f.isBlock = false := by
  have hdeclared {x : Expr} (hx : Declared x) (hf : f ∈ x.nodes) : f.isBlock = false := by
    rcases hx.shape hf with hvar | ⟨l, array, rfl⟩
    · cases f with
      | var => rfl
      | _ => cases hvar
    · rfl
  cases e with
  | var l name type =>
    obtain rfl := Option.mem_toList.mp hc
    exact hdeclared (declared_of_declare h) (Expr.mem_nodes_child List.mem_cons_self hf)
  | function l name params body =>
    obtain ⟨-, checked, hcheck, -⟩ := openFunction_clean rfl h
    exact hdeclared ((checkParameters_declared hcheck).1 c hc) hf
  | forTo =>
    obtain rfl := List.mem_singleton.mp hc
    exact hdeclared (declared_of_declareLoopVariable h) hf
  | forIn =>
    obtain rfl := List.mem_singleton.mp hc
    exact hdeclared (declared_of_declareLoopVariable (declareLoopSlots_clean h).1) hf
  | _ => cases hc

/-- Two walks that went on from `b` end in trees that say the same, under numbers that do not
change what was there before. -/
def Reordered (ν : Nat → Nat) (hν : ν.Injective) (b c c' : Building) : Prop :=
  ∃ π, Like b.tree.extent π (ofNode ν hν) ∧ Alongside π ∅ c c'

section Walk

variable {ν : Nat → Nat} {hν : ν.Injective} {pre post es : List Expr} {x y : Expr}

theorem Reordered.of_problems {c' d : Building} (hc : d.problems ≠ [])
    (hc' : c'.problems ≠ []) : Reordered ν hν b d c' :=
  ⟨ofNode ν hν, .refl _ _, .of_problem (fun h => absurd h hc) hc'⟩

/-- A list of nodes that keep their numbers is walked in step with itself. -/
theorem alongside_same {π : Renaming} {c c' : Building} (h : Embeds π ∅ c.tree c'.tree)
    (hc : c.problems = []) (hc' : c'.problems = []) (hscope : scope < c.tree.scopes.size)
    (hfunction : function < c.tree.functions.size) (hs : π.scope scope = scope)
    (hf : π.function function = function) (hes : ∀ d ∈ es, d.relabel π.node = d)
    (hnames : ∀ d ∈ es, d.Unhidden) :
    Alongside π ∅ (visitList scope function es c) (visitList scope function es c') := by
  have hlist := alongside_visitList (fun e he b b' => alongside_visit e (hnames e he)) h hc hc' hscope
    hfunction fun _ _ _ _ _ _ => .inr (sheltered_of_sound h.sound hscope nofun)
  rwa [hs, hf, List.map_congr_left hes, List.map_id'] at hlist

theorem Steady.visitList (h : Steady ν hν scope function b) (hes : ∀ d ∈ es, d.relabel ν = d)
    (hnames : ∀ d ∈ es, d.Unhidden) (hclean : (visitList scope function es b).problems = []) :
    Steady ν hν scope function (visitList scope function es b) := by
  have hgrown : Grown b (Building.visitList scope function es b) := grown_visitList scope function es
  refine ⟨hclean, Nat.lt_of_lt_of_le h.scope_lt hgrown.extent.1,
    Nat.lt_of_lt_of_le h.function_lt hgrown.extent.2.2, ?_⟩
  exact (alongside_same h.embeds h.clean h.clean h.scope_lt h.function_lt rfl rfl hes hnames).embeds
    hclean

/-- Two lists that differ in the middle. -/
theorem Steady.reordered_middle (mid mid' : List Expr) (h : Steady ν hν scope function b)
    (hpre : ∀ d ∈ pre, d.relabel ν = d) (hpost : ∀ d ∈ post, d.relabel ν = d)
    (hnames : ∀ d ∈ pre ++ mid ++ post, d.Unhidden)
    (hmid : ∀ c, Steady ν hν scope function c → Reordered ν hν c
      (Building.visitList scope function mid c) (Building.visitList scope function mid' c)) :
    Reordered ν hν b (Building.visitList scope function (pre ++ mid ++ post) b)
      (Building.visitList scope function (pre ++ mid' ++ post) b) := by
  simp only [visitList_append]
  rw [List.append_assoc, List.forall_mem_append, List.forall_mem_append] at hnames
  generalize hc : Building.visitList scope function pre b = c
  have hgrown : Grown b c := hc ▸ grown_visitList scope function pre
  have hrest (es : List Expr) : Grown c (Building.visitList scope function es c) :=
    grown_visitList scope function es
  have hlast (d : Building) : Grown d (Building.visitList scope function post d) :=
    grown_visitList scope function post
  by_cases hclean : c.problems = []
  · have hsteady : Steady ν hν scope function c := by
      subst hc
      exact h.visitList hpre hnames.1 hclean
    obtain ⟨π, hlike, hpair⟩ := hmid c hsteady
    refine ⟨π, hlike.anti hgrown.extent, hpair.andThen (hlast _) (hlast _) fun hd hd' hnext => ?_⟩
    refine alongside_same hnext hd hd' ?_ ?_ ?_ ?_ ?_ hnames.2.2
    · exact Nat.lt_of_lt_of_le hsteady.scope_lt (hrest mid).extent.1
    · exact Nat.lt_of_lt_of_le hsteady.function_lt (hrest mid).extent.2.2
    · exact hlike.scope scope hsteady.scope_lt
    · exact hlike.function function hsteady.function_lt
    · rw [hlike.node]
      exact hpost
  · refine .of_problems (fun hd => hclean ?_) fun hd => hclean ?_
    · exact (hrest mid).clean ((hlast _).clean hd)
    · exact (hrest mid').clean ((hlast _).clean hd)

theorem Steady.reordered_members (h : Steady ν hν scope function b)
    (hpre : ∀ d ∈ pre, d.relabel ν = d) (hpost : ∀ d ∈ post, d.relabel ν = d)
    (hnames : ∀ d ∈ pre ++ x :: y :: post, d.Unhidden)
    (hxy : ∀ key, x.Declares key → ¬ y.Seeks key) (hyx : ∀ key, y.Declares key → ¬ x.Seeks key) :
    Reordered ν hν b (Building.visitList scope function (pre ++ x :: y :: post) b)
      (Building.visitList scope function (pre ++ y.relabel ν :: x.relabel ν :: post) b) := by
  have hsplit (x y : Expr) : pre ++ x :: y :: post = pre ++ [x, y] ++ post := by simp
  have hx : x.Unhidden := hnames x (by simp)
  have hy : y.Unhidden := hnames y (by simp)
  rw [hsplit] at hnames ⊢
  rw [hsplit]
  exact reordered_middle _ _ h hpre hpost hnames fun c hc => hc.exchange hx hy hxy hyx

theorem Steady.reordered_child {c c' : Expr} (h : Steady ν hν scope function b)
    (hpre : ∀ d ∈ pre, d.relabel ν = d) (hpost : ∀ d ∈ post, d.relabel ν = d)
    (hnames : ∀ d ∈ pre ++ c :: post, d.Unhidden)
    (hc : ∀ b, Steady ν hν scope function b →
      Reordered ν hν b (visit scope function c b) (visit scope function c' b)) :
    Reordered ν hν b (Building.visitList scope function (pre ++ c :: post) b)
      (Building.visitList scope function (pre ++ c' :: post) b) := by
  have hsplit (c : Expr) : pre ++ c :: post = pre ++ [c] ++ post := by simp
  rw [hsplit] at hnames ⊢
  rw [hsplit]
  exact reordered_middle _ _ h hpre hpost hnames hc

theorem Reordered.mono {c d d' : Building} (h : Reordered ν hν c d d') (hgrown : Grown b c) :
    Reordered ν hν b d d' := by
  obtain ⟨π, hlike, hπ⟩ := h
  exact ⟨π, hlike.anti hgrown.extent, hπ⟩

/-- Two nodes that differ in what is visited below them. -/
theorem Steady.reordered_node (h : Steady ν hν scope function b) (hnames : e.Unhidden)
    (hid : ν e.id = e.id) (hshell : e.shell = e'.shell) (hread : e'.read = e.read)
    (hsame : ∀ d ∈ e.read, d.relabel ν = d)
    (hbelow : ∀ inner id c, Steady ν hν inner id c → Reordered ν hν c
      (Building.visitList inner id e.visited c) (Building.visitList inner id e'.visited c)) :
    Reordered ν hν b (visit scope function e b) (visit scope function e' b) := by
  have hself : enter scope function b (e.relabel ν) = enter scope function b e := by
    refine enter_congr (Expr.shell_relabel_of_id hid) ?_
    rw [Expr.read_relabel, List.map_congr_left hsame, List.map_id']
  have henter : InStep (ofNode ν hν) ∅ (enter scope function b e) (enter scope function b e) := by
    have hstep := inStep_enter (e := e) h.embeds h.clean h.clean h.scope_lt h.function_lt
      fun l name hloop => ⟨hnames l name none (Expr.loopVariable_mem_nodes hloop),
        sheltered_of_sound h.embeds.sound h.scope_lt nofun⟩
    exact hself ▸ hstep
  have hentered : Grown b (enter scope function b e).2 := (Leads.enter scope function e).grown
  rw [visit_eq, visit_eq, ← enter_congr hshell hread.symm]
  cases hopened : (enter scope function b e).1 with
  | none =>
    rw [visitBelow_none hopened, visitBelow_none hopened]
    exact ⟨ofNode ν hν, .refl _ _, henter.alongside⟩
  | some place =>
    obtain ⟨inner, id⟩ := place
    rw [visitBelow_some hopened, visitBelow_some hopened]
    have hin := place_enter h.scope_lt h.function_lt hopened
    by_cases hclean : (enter scope function b e).2.problems = []
    · have hsteady : Steady ν hν inner id (enter scope function b e).2 :=
        ⟨hclean, hin.inner_lt, hin.id_lt, henter.alongside.embeds hclean⟩
      exact (hbelow inner id _ hsteady).mono hentered
    · have hgrown (es : List Expr) : Grown (enter scope function b e).2
          (Building.visitList inner id es (enter scope function b e).2) :=
        grown_visitList inner id es
      exact .of_problems (fun hc => hclean ((hgrown _).clean hc))
        fun hc => hclean ((hgrown _).clean hc)

/-- Exchanging two members of a block below the node. -/
theorem Steady.reordered_visit (hexchanges : Expr.Exchanges ν x y e e') (hnames : e.Unhidden)
    (hxy : ∀ key, x.Declares key → ¬ y.Seeks key) (hyx : ∀ key, y.Declares key → ¬ x.Seeks key)
    (h : Steady ν hν scope function b) :
    Reordered ν hν b (visit scope function e b) (visit scope function e' b) := by
  have hvisited {e : Expr} (hnames : e.Unhidden) : ∀ d ∈ e.visited, d.Unhidden :=
    fun d hd => hnames.child (Expr.visited_subset hd)
  induction hexchanges generalizing scope function b with
  | members hid hpre hpost hlast =>
    refine h.reordered_node hnames hid (Expr.Exchanges.members hid hpre hpost hlast).shell_eq rfl
      nofun fun inner id c hc => ?_
    exact hc.reordered_members hpre hpost (hvisited hnames) hxy hyx
  | inside hid hshell hchildren hchildren' hpre hpost hchild ih =>
    rcases Expr.split_children hshell hchildren hchildren' with
      ⟨hc, hc'⟩ | ⟨hread, pre', rfl, hbelow, hbelow'⟩
    · -- neither program may have a block here
      obtain ⟨⟨f, hf, hblock⟩, f', hf', hblock'⟩ := hchild.exists_block
      refine .of_problems (fun hclean => ?_) fun hclean => ?_
      · rw [visit_eq] at hclean
        simp [not_isBlock_of_read ((grown_visitBelow _ _).clean hclean) hc hf] at hblock
      · rw [visit_eq] at hclean
        simp [not_isBlock_of_read ((grown_visitBelow _ _).clean hclean) hc' hf'] at hblock'
    · obtain ⟨hsame, hpre⟩ := List.forall_mem_append.mp hpre
      refine h.reordered_node hnames hid hshell hread hsame fun inner id b hb => ?_
      have hnames' := hvisited hnames
      rw [hbelow] at hnames'
      rw [hbelow, hbelow']
      exact hb.reordered_child hpre hpost hnames' fun b hb => ih (hnames' _ (by simp)) hb

/-- Exchanging two members of a block, in the statements of a program. -/
theorem Steady.reordered_statements (hexchanges : Expr.Exchanges ν x y e e') (hnames : e.Unhidden)
    (hxy : ∀ key, x.Declares key → ¬ y.Seeks key) (hyx : ∀ key, y.Declares key → ¬ x.Seeks key)
    (h : Steady ν hν scope function b) :
    Reordered ν hν b (Building.visitList scope function e.statements b)
      (Building.visitList scope function e'.statements b) := by
  have hblock' := Expr.isBlock_of_shell hexchanges.shell_eq
  cases hblock : e.isBlock with
  | false =>
    rw [Expr.statements_of_not_block hblock, Expr.statements_of_not_block (hblock' ▸ hblock)]
    exact h.reordered_visit hexchanges hnames hxy hyx
  | true =>
    have hchild : ∀ d ∈ e.children, d.Unhidden := fun d hd => hnames.child hd
    rw [Expr.statements_of_block hblock, Expr.statements_of_block (hblock' ▸ hblock)]
    cases hexchanges with
    | members _ hpre hpost => exact h.reordered_members hpre hpost hchild hxy hyx
    | inside _ _ hchildren hchildren' hpre hpost hc =>
      rw [hchildren] at hchild
      rw [hchildren, hchildren']
      exact h.reordered_child hpre hpost hchild fun b hb =>
        hb.reordered_visit hc (hchild _ (by simp)) hxy hyx

end Walk

end Building

namespace ScopeTree

variable {host : Host} {t : ScopeTree}

/-- Tables that fit each other refer to nothing that is not there. -/
theorem Wf.sound (h : Wf host t) (hparents : ∀ i p, t.outline.parent? i = some p → p < i)
    (hnodes : ∀ q ∈ t.nodeScopes, q.2 < t.scopes.size) : t.Sound := by
  intro φ hφ
  cases φ with
  | scope i parent =>
    obtain ⟨s, hs, rfl⟩ := Option.map_eq_some_iff.mp hφ
    refine ⟨(Array.getElem?_eq_some_iff.mp hs).1, fun p hp => hparents i p ?_⟩
    simpa [Outline.parent?, outline, hs, Scope.region] using hp
  | name i key id =>
    obtain ⟨s, hs, hlookup⟩ := Option.bind_eq_some_iff.mp hφ.1
    obtain ⟨before, after, hvars, -⟩ := List.lookup_eq_some_iff.mp hlookup
    obtain ⟨v, hv, -⟩ := h.names i s hs (key, id) (by simp [hvars])
    exact ⟨(Array.getElem?_eq_some_iff.mp hs).1, (Array.getElem?_eq_some_iff.mp hv).1⟩
  | var id type owner =>
    obtain ⟨v, hv, heq⟩ := Option.map_eq_some_iff.mp hφ
    cases heq
    refine ⟨(Array.getElem?_eq_some_iff.mp hv).1, fun f howner => ?_⟩
    cases hstorage : v.storage with
    | global n => simp [hstorage, Storage.owner?] at howner
    | slot function n =>
      obtain ⟨r, -, hr, -⟩ := h.slot_of hv hstorage
      rw [hstorage] at howner
      cases howner
      exact (Array.getElem?_eq_some_iff.mp hr).1
  | overload i key params callee =>
    obtain ⟨s, hs, ho⟩ := Option.bind_eq_some_iff.mp hφ
    obtain ⟨o, hfind, rfl⟩ := Option.map_eq_some_iff.mp ho
    refine ⟨(Array.getElem?_eq_some_iff.mp hs).1, ?_⟩
    have hknown := h.overloads o ⟨i, s, hs, List.mem_of_find?_eq_some hfind⟩
    rw [Known] at hknown
    cases hcallee : o.callee with
    | native index => trivial
    | script id =>
      rw [hcallee] at hknown
      obtain ⟨-, -, -, f, hf, -⟩ := hknown
      exact (Array.getElem?_eq_some_iff.mp hf).1
  | function id result =>
    obtain ⟨f, hf, -⟩ := Option.map_eq_some_iff.mp hφ
    exact (Array.getElem?_eq_some_iff.mp hf).1
  | nodeScope node i => exact hnodes _ hφ
  | nodeFunction node id => exact (h.functionNodes _ hφ).2
  | loop node array index =>
    obtain ⟨v, w, hv, hw, -⟩ := h.loops _ hφ
    exact ⟨(Array.getElem?_eq_some_iff.mp hv).1, (Array.getElem?_eq_some_iff.mp hw).1⟩

end ScopeTree

namespace Building

variable {ν : Nat → Nat} {hν : ν.Injective} {host : Host} {x y : Expr}

/-- At the start only the program's own node has a number in the tables. -/
theorem steady_start {body : Expr} (hid : ν body.id = body.id)
    (hclean : (start host body).problems = []) :
    Steady ν hν 1 main (start host body) := by
  obtain ⟨hwf, hmain, -, hloops⟩ := wf_start hclean
  obtain ⟨houtline, -⟩ := outline_start host body
  have hregions : (start host body).tree.outline.regions.size = 2 := by
    rw [houtline]
    rfl
  have hsize : (start host body).tree.scopes.size = 2 := by simpa [outline] using hregions
  have hscopes : (start host body).tree.nodeScopes = if body.isBlock then [(body.id, 1)] else [] :=
    congrArg Outline.nodeScopes houtline
  have hfunctions : (start host body).tree.nodeFunctions = [] :=
    congrArg Outline.nodeFunctions houtline
  have hsound : (start host body).tree.Sound := by
    refine hwf.sound ?_ fun q hq => ?_
    · rw [houtline]
      exact Outline.start_families.parent_lt
    · rw [hscopes] at hq
      split at hq
      · rw [List.mem_singleton.mp hq, hsize]
        exact Nat.lt_succ_self 1
      · cases hq
  have hfixed : ∀ φ ∈ (start host body).tree.facts, φ.rename (ofNode ν hν) = φ := by
    intro φ hφ
    cases φ with
    | overload i key params callee => cases callee <;> rfl
    | nodeScope node i =>
      have hmem : (node, i) ∈ (start host body).tree.nodeScopes := hφ
      rw [hscopes] at hmem
      split at hmem
      · obtain ⟨rfl, rfl⟩ := Prod.mk.inj (List.mem_singleton.mp hmem)
        exact congrArg (Fact.nodeScope · 1) hid
      · cases hmem
    | nodeFunction node id =>
      have hmem : (node, id) ∈ (start host body).tree.nodeFunctions := hφ
      rw [hfunctions] at hmem
      cases hmem
    | loop node array index =>
      have hmem : (node, _) ∈ (start host body).tree.loopSlots := hφ
      rw [hloops] at hmem
      cases hmem
    | _ => simp [Fact.rename, ofNode]
  refine ⟨hclean, ?_, hmain, ?_, fun _ => rfl, fun _ => rfl, fun _ => rfl, hsound, hsound⟩
  · rw [hsize]
    exact Nat.lt_succ_self 1
  · rw [Set.empty_union, Set.image_congr hfixed, Set.image_id']

theorem start_congr {body body' : Expr} (h : body.shell = body'.shell) :
    start host body = start host body' := by
  have hlabel := Expr.label_eq_of_shell h
  rw [start, start, begin, begin, Expr.isBlock_of_shell h, Expr.id, Expr.id, Expr.span, Expr.span,
    hlabel]

/-- Two programs that differ in the order of two members of a block: neither or both are refused
by the builder, and otherwise their trees say the same under other numbers. -/
theorem build_reordered {p q : Program} (hν : ν.Injective) (h : Expr.Exchanges ν x y p.body q.body)
    (hnames : p.body.Unhidden) (hxy : ∀ key, x.Declares key → ¬ y.Seeks key)
    (hyx : ∀ key, y.Declares key → ¬ x.Seeks key) :
    ∃ π : Renaming, π.node = ν ∧ π.scope 1 = 1 ∧ π.function main = main ∧
      Alongside π ∅ (build p host) (build q host) := by
  rw [build_eq_start, build_eq_start, ← start_congr h.shell_eq]
  have hgrown (es : List Expr) : Grown (start host p.body)
      (Building.visitList 1 main es (start host p.body)) := grown_visitList 1 main es
  by_cases hclean : (start host p.body).problems = []
  · have hsteady : Steady ν hν 1 main (start host p.body) := steady_start h.id_eq hclean
    obtain ⟨π, hlike, hπ⟩ := hsteady.reordered_statements h hnames hxy hyx
    exact ⟨π, hlike.node, hlike.scope 1 hsteady.scope_lt, hlike.function main hsteady.function_lt, hπ⟩
  · refine ⟨ofNode ν hν, rfl, rfl, rfl, .of_problem (fun hc => ?_) fun hc => ?_⟩
    · exact absurd ((hgrown _).clean hc) hclean
    · exact hclean ((hgrown _).clean hc)

end Building

end TurtleScript

import TurtleScript.Proofs.Code.Agreement
import TurtleScript.Proofs.Code.Linking
import TurtleScript.Proofs.Typing.Reordering

/-!
# The place of a function in its block

Functions are known in all of their block, so it should not matter between which statements one
is declared. For the types it does not. For the scopes it does in two ways: a loop in the
function takes a variable that was declared before it and makes one of its own otherwise, and
the hidden slots of a loop have the number of its node in their names.
-/
namespace TurtleScript

open ScopeTree

namespace Expr

variable {ν : Nat → Nat} {x y e e' f g : Expr} {key : String}

/-- The node `f` is the node `g` under another number, up to what stands below its children and
the order of these. -/
structure Counterpart (ν : Nat → Nat) (g f : Expr) : Prop where
  shell : (g.relabel ν).shell = f.shell
  children : ∀ c ∈ f.children, ∃ d ∈ g.children, c.id = ν d.id

theorem counterpart_relabel (g : Expr) : Counterpart ν g (g.relabel ν) := by
  refine ⟨rfl, fun c hc => ?_⟩
  rw [children_relabel] at hc
  obtain ⟨d, hd, rfl⟩ := List.mem_map.mp hc
  exact ⟨d, hd, id_relabel ν d⟩

theorem exists_counterpart_relabel {d : Expr} (hd : d ∈ e.children) (hf : f ∈ (d.relabel ν).nodes) :
    ∃ g ∈ e.nodes, Counterpart ν g f := by
  obtain ⟨g, hg, rfl⟩ := mem_nodes_relabel.mp hf
  exact ⟨g, mem_nodes_child hd hg, counterpart_relabel g⟩

theorem Exchanges.exists_counterpart (h : Exchanges ν x y e e') (hf : f ∈ e'.nodes) :
    ∃ g ∈ e.nodes, Counterpart ν g f := by
  induction h with
  | @members l pre rest hid hpre hpost hlast =>
    have hmember : ∀ c ∈ pre ++ y.relabel ν :: x.relabel ν :: rest,
        ∃ d ∈ pre ++ x :: y :: rest, d.relabel ν = c := by
      simp only [List.mem_append, List.mem_cons]
      rintro c (hc | rfl | rfl | hc)
      · exact ⟨c, .inl hc, hpre c hc⟩
      · exact ⟨y, .inr (.inr (.inl rfl)), rfl⟩
      · exact ⟨x, .inr (.inl rfl), rfl⟩
      · exact ⟨c, .inr (.inr (.inr hc)), hpost c hc⟩
    rcases mem_nodes.mp hf with rfl | ⟨c, hc, hf⟩
    · refine ⟨_, mem_nodes_self _, ?_, fun c hc => ?_⟩
      · rw [shell_relabel_of_id hid]
        exact (Exchanges.members (x := x) (y := y) hid hpre hpost hlast).shell_eq
      · obtain ⟨d, hd, rfl⟩ := hmember c hc
        exact ⟨d, hd, id_relabel ν d⟩
    · obtain ⟨d, hd, rfl⟩ := hmember c hc
      exact exists_counterpart_relabel hd hf
  | @inside e e' c c' pre post hid hshell hchildren hchildren' hpre hpost hchild ih =>
    have hc : c ∈ e.children := by rw [hchildren]; simp
    have hmember : ∀ d ∈ e'.children, d = c' ∨ d ∈ e.children ∧ d.relabel ν = d := by
      rw [hchildren, hchildren']
      simp only [List.mem_append, List.mem_cons]
      rintro d (hd | rfl | hd)
      · exact .inr ⟨.inl hd, hpre d hd⟩
      · exact .inl rfl
      · exact .inr ⟨.inr (.inr hd), hpost d hd⟩
    rcases mem_nodes.mp hf with rfl | ⟨d, hd, hf⟩
    · refine ⟨e, mem_nodes_self e, ?_, fun d hd => ?_⟩
      · rw [shell_relabel_of_id hid, hshell]
      · rcases hmember d hd with rfl | ⟨hd, hsame⟩
        · refine ⟨c, hc, ?_⟩
          rw [hchild.id_eq, Expr.id, Expr.id, label_eq_of_shell hchild.shell_eq]
        · exact ⟨d, hd, (congrArg Expr.id hsame.symm).trans (id_relabel ν d)⟩
    · rcases hmember d hd with rfl | ⟨hd, hsame⟩
      · obtain ⟨g, hg, hgf⟩ := ih hf
        exact ⟨g, mem_nodes_child hc hg, hgf⟩
      · exact exists_counterpart_relabel hd (hsame.symm ▸ hf)

theorem Exchanges.unhidden (h : Exchanges ν x y e e') (hnames : e.Unhidden) : e'.Unhidden := by
  intro l name d hmem
  obtain ⟨g, hg, hshell, -⟩ := h.exists_counterpart hmem
  cases g with
  | var l' name' d' =>
    obtain ⟨-, rfl, -⟩ := Expr.var.inj hshell
    exact hnames l' name' d' hg
  | _ => cases hshell

theorem not_declares_of_opens (h : e.opens = true) : ¬ e.Declares key := by
  rintro (⟨l, type, hname⟩ | ⟨hshut, hc, hdeclares⟩)
  · cases h
  · cases h.symm.trans hshut

/-- What a node seeks is the variable of a loop in it. -/
theorem Seeks.exists_loop (h : e.Seeks key) :
    ∃ f ∈ e.nodes, ∃ l name, f.loopVariable? = some (.var l name none) ∧ foldName name = key := by
  induction h with
  | loop hloop hname => exact ⟨_, mem_nodes_self _, _, _, hloop, hname⟩
  | inside hvisited _ _ _ ih =>
    obtain ⟨f, hf, hloop⟩ := ih
    exact ⟨f, mem_nodes_child (visited_subset (by simp [hvisited])) hf, hloop⟩

theorem unhidden_of_identifiers (h : e.nodes.all fun f => match f with
    | .var _ name _ => Text.isIdentifier name
    | _ => true) : e.Unhidden :=
  fun _ _ _ hmem => not_hidden (List.all_eq_true.mp h _ hmem)

theorem declares_renumber (n : Nat) (e : Expr) : (e.renumber n).1.Declares key ↔ e.Declares key := by
  rw [← declares_relabel (fun _ => 0), relabel_renumber, declares_relabel]

theorem seeks_renumber (n : Nat) (e : Expr) : (e.renumber n).1.Seeks key ↔ e.Seeks key := by
  rw [← seeks_relabel (fun _ => 0), relabel_renumber, seeks_relabel]

theorem unsought_renumber (h : ∀ key, x.Declares key → ¬ y.Seeks key) (n m : Nat) :
    ∀ key, (x.renumber n).1.Declares key → ¬ (y.renumber m).1.Seeks key :=
  fun key hx hy => h key ((declares_renumber n x).mp hx) ((seeks_renumber m y).mp hy)

theorem unhidden_renumber (n : Nat) (e : Expr) : (e.renumber n).1.Unhidden ↔ e.Unhidden := by
  rw [← unhidden_relabel (fun _ => 0), relabel_renumber, unhidden_relabel]

theorem isFunction_renumber (n : Nat) (e : Expr) : (e.renumber n).1.isFunction = e.isFunction := by
  rw [← isFunction_relabel (fun _ => 0), relabel_renumber, isFunction_relabel]

theorem Swaps.unhidden (h : Swaps x y e e') (hnames : e.Unhidden) : e'.Unhidden := by
  obtain ⟨-, start, -, -, hexchanges⟩ := h.exchanges 0
  rw [← unhidden_renumber 0] at hnames ⊢
  exact hexchanges.unhidden hnames

end Expr

namespace Code

variable {host : Host} {o : Options} {cancelled : Cancellation} {x y e e' : Expr}

/-- The recorded types of the operands of a comparison are those before the exchange. -/
theorem comparesArray_of_exchanges {π : Renaming} {r r' : Resolution}
    (h : Expr.Exchanges π.node x y e e')
    (htypes : r'.types = r.types.map fun q => (π.node q.1, q.2)) (hcompares : ComparesArray r' e') :
    ComparesArray r e := by
  obtain ⟨l, left, right, element, hmem, harray⟩ := hcompares
  obtain ⟨c, hc, htype⟩ : ∃ c ∈ [left, right], r'.typeOf? c.id = some (.array element) := by
    simpa using harray
  obtain ⟨g, hg, hshell, hoperands⟩ := h.exists_counterpart hmem
  obtain ⟨d, hd, hid⟩ := hoperands c hc
  rw [Resolution.typeOf?, htypes, hid, Resolve.lookup_mirrored] at htype
  cases g with
  | binary l' op left' right' =>
    obtain ⟨-, rfl, -, -⟩ := Expr.binary.inj hshell
    refine ⟨l', left', right', element, hg, ?_⟩
    rcases List.mem_pair.mp hd with rfl | rfl
    · exact .inl htype
    · exact .inr htype
  | _ => cases hshell

/-- What it takes for a program to be accepted. -/
theorem accepted_iff : (∃ c, (Program.ofExpr e).compile host o cancelled = .ok c) ↔
    (build (.ofExpr e) host).problems = [] ∧
    ∃ r t, (build (.ofExpr e) host).tree.resolve (.ofExpr e) host cancelled = (.ok r, t) ∧
      ¬ ComparesArray r (Program.ofExpr e).body := by
  constructor
  · rintro ⟨c, hcompile⟩
    obtain ⟨t₀, hscopes, -⟩ := Except.bind_eq_ok hcompile
    obtain ⟨t, r, g, hresolve, h, -⟩ := compile_eq_ok hcompile
    refine ⟨(scopes_eq_ok.mp hscopes).1, r, t, hresolve, ?_⟩
    rw [← bad_iff]
    rcases generate_typed h.built h.typed with ⟨-, hbad⟩ | ⟨⟨left, right, span, hcode⟩, -⟩
    · exact hbad
    · cases h.code.symm.trans hcode
  · rintro ⟨hclean, r, t, hresolve, hcompares⟩
    have hn := Expr.renumber_numbered e 0
    obtain ⟨-, hbuilt, htyped⟩ := resolve_eq_ok (build_clean hn hclean) hn hresolve
    rw [← bad_iff] at hcompares
    rcases generate_typed hbuilt htyped with ⟨⟨g, hcode⟩, -⟩ | ⟨-, hbad⟩
    · refine ⟨⟨t.link g o, r.programType⟩, ?_⟩
      rw [Program.compile, scopes_eq_ok.mpr ⟨hclean, rfl⟩]
      simp only [bind, Except.bind, hresolve, hcode]
      rfl
    · exact absurd hbad hcompares

/-- Exchanging a function with another member of its block keeps a program accepted. -/
theorem accepted_of_swaps (h : Expr.Swaps x y e e') (hkinds : x.isFunction ≠ y.isFunction)
    (hxy : ∀ key, x.Declares key → ¬ y.Seeks key) (hyx : ∀ key, y.Declares key → ¬ x.Seeks key)
    (hnames : e.Unhidden) (haccepted : ∃ c, (Program.ofExpr e).compile host o cancelled = .ok c) :
    ∃ c, (Program.ofExpr e').compile host o cancelled = .ok c := by
  have hn := Expr.renumber_numbered e 0
  have hn' := Expr.renumber_numbered e' 0
  obtain ⟨-, start, -, -, hexchanges⟩ := h.exchanges 0
  rw [← Expr.isFunction_renumber start x, ← Expr.isFunction_renumber (start + x.count) y] at hkinds
  rw [← Expr.unhidden_renumber 0] at hnames
  rw [accepted_iff] at haccepted ⊢
  obtain ⟨hclean, r, t, hresolve, hcompares⟩ := haccepted
  obtain ⟨π, hnode, hscope, hmain, halong⟩ :=
    Building.build_reordered (p := .ofExpr e) (q := .ofExpr e')
      (Renaming.rotate_injective start x.count y.count) hexchanges hnames
      (Expr.unsought_renumber hxy start _) (Expr.unsought_renumber hyx _ start)
  rw [← hnode] at hexchanges
  have hclean' : (build (.ofExpr e') host).problems = [] := halong.clean_iff_clean.mpr hclean
  have hbuilt := build_clean hn hclean
  have halike : ScopeTree.Alike π (build (.ofExpr e) host).tree (build (.ofExpr e') host).tree :=
    ⟨halong.embeds hclean', hbuilt.scopeKeys, hbuilt.functionKeys, hbuilt.loopKeys⟩
  have hprogram : (build (.ofExpr e') host).tree.program =
      π.scope (build (.ofExpr e) host).tree.program := by
    rw [(build_walked hn hclean).2.1, (build_walked hn' hclean').2.1, hscope]
  obtain ⟨r', t', hresolve', htypes⟩ :=
    resolve_reordered (p := .ofExpr e) (q := .ofExpr e') hexchanges hmain hprogram hnames hkinds
      halike hresolve
  exact ⟨hclean', r', t', hresolve',
    fun hc => hcompares (comparesArray_of_exchanges hexchanges htypes hc)⟩

/-- It does not matter on which side of a neighbour a function is declared, neither of them being
the last of their block: if no loop in the one seeks a variable that the other declares, and no
variable has a hidden name, both programs are accepted or both are refused. -/
theorem compile_swaps_iff (host : Host) (o : Options) (cancelled : Cancellation) {x y e e' : Expr}
    (h : Expr.Swaps x y e e') (hkinds : x.isFunction ≠ y.isFunction)
    (hxy : ∀ key, x.Declares key → ¬ y.Seeks key) (hyx : ∀ key, y.Declares key → ¬ x.Seeks key)
    (hnames : e.Unhidden) :
    (∃ c, (Program.ofExpr e).compile host o cancelled = .ok c) ↔
      ∃ c, (Program.ofExpr e').compile host o cancelled = .ok c :=
  ⟨accepted_of_swaps h hkinds hxy hyx hnames,
    accepted_of_swaps h.symm hkinds.symm hyx hxy (h.unhidden hnames)⟩

theorem exists_ok_iff {ε α : Type} {r : Except ε α} : (∃ a, r = .ok a) ↔ r.isOk = true := by
  cases r <;> simp [Except.isOk, Except.toBool]

/-- A function with a loop through a variable of this name. -/
def sweeping (name : String) : Expr :=
  .function {} "f" [] (.forTo {} (.var {} name none) (.constant {} (.number .one))
    (.constant {} (.number ⟨0x4000000000000000⟩)) .up (.block {} []))

def answering : Expr := .function {} "f" [] (.constant {} (.number .one))

def announcing : Expr := .var {} "x" (some (.var {} "number" none))

/-- A loop that uses the array it hides, as long as its node has the number 1. -/
def peeking : Expr :=
  .forIn {} (.var {} "item" none) (.array {} [.constant {} (.number .one)]) (.var {} "$array1" none)

/-- The two members before a last one. -/
def pair (x y : Expr) : Expr := .block {} [x, y, .constant {} (.number .zero)]

theorem swaps_pair (x y : Expr) : Expr.Swaps x y (pair x y) (pair y x) :=
  .members {} [] (.constant {} (.number .zero)) []

theorem announcing_declares {key : String} (h : announcing.Declares key) : key = foldName "x" := by
  cases h with
  | here _ _ hname => exact hname.symm
  | inside _ hc => cases hc

theorem sweeping_seeks {name key : String} (h : (sweeping name).Seeks key) : key = foldName name := by
  obtain ⟨f, hf, l, name', hloop, rfl⟩ := h.exists_loop
  simp only [sweeping, Expr.nodes, Expr.walk, Expr.walkList, Expr.walkOption, List.map_cons,
    List.map_nil, List.cons_append, List.nil_append, List.mem_cons, List.not_mem_nil,
    or_false] at hf
  rcases hf with rfl | rfl | rfl | rfl | rfl | rfl <;> cases hloop
  rfl

theorem compile_swaps_iff_sweeping :
    ∃ c c', (Program.ofExpr (pair announcing (sweeping "i"))).compile {} {} false = .ok c ∧
      (Program.ofExpr (pair (sweeping "i") announcing)).compile {} {} false = .ok c' := by
  have hnames : (pair announcing (sweeping "i")).Unhidden :=
    Expr.unhidden_of_identifiers (by decide +kernel)
  have haccepted : ∃ c, (Program.ofExpr (pair announcing (sweeping "i"))).compile {} {} false =
      .ok c := exists_ok_iff.mpr (by decide +kernel)
  have hswapped := (compile_swaps_iff {} {} false (swaps_pair announcing (sweeping "i")) (by decide)
    (fun key hdeclares hseeks => absurd (announcing_declares hdeclares)
      (sweeping_seeks hseeks ▸ by decide +kernel))
    (fun key hdeclares => absurd hdeclares (Expr.not_declares_of_opens rfl)) hnames).mp haccepted
  obtain ⟨c, hc⟩ := haccepted
  obtain ⟨c', hc'⟩ := hswapped
  exact ⟨c, c', hc, hc'⟩

/-- Behind the declaration, the loop in the function takes a variable of another function; before
it, one of its own. And a loop that is moved hides its array under another name. -/
theorem place_matters :
    (Expr.Swaps announcing (sweeping "x") (pair announcing (sweeping "x"))
        (pair (sweeping "x") announcing) ∧
      announcing.isFunction ≠ (sweeping "x").isFunction ∧
      (pair announcing (sweeping "x")).Unhidden ∧
      (¬ ∃ c, (Program.ofExpr (pair announcing (sweeping "x"))).compile {} {} false = .ok c) ∧
      ∃ c, (Program.ofExpr (pair (sweeping "x") announcing)).compile {} {} false = .ok c) ∧
    Expr.Swaps answering peeking (pair answering peeking) (pair peeking answering) ∧
      answering.isFunction ≠ peeking.isFunction ∧
      (∀ key, ¬ answering.Declares key ∧ ¬ peeking.Declares key) ∧
      (¬ ∃ c, (Program.ofExpr (pair answering peeking)).compile {} {} false = .ok c) ∧
      ∃ c, (Program.ofExpr (pair peeking answering)).compile {} {} false = .ok c := by
  simp only [exists_ok_iff]
  refine ⟨⟨swaps_pair _ _, by decide, ?_, ?_, ?_⟩, swaps_pair _ _, by decide, fun key => ?_, ?_, ?_⟩
  · exact Expr.unhidden_of_identifiers (by decide +kernel)
  · decide +kernel
  · decide +kernel
  · exact ⟨Expr.not_declares_of_opens rfl, Expr.not_declares_of_opens rfl⟩
  · decide +kernel
  · decide +kernel

end Code

end TurtleScript

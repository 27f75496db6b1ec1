import TurtleScript.Proofs.Typing.Resolution

/-!
# The walk over typed nodes

By cases on the node: if the walk succeeds, the node is typed by the rules, in whatever tree
and table the walk ends. The numbers of the nodes below a node are the keys of the types that
are added.
-/
namespace TurtleScript

namespace Resolve

open ScopeTree Semantics

variable {α β : Type} {host : Host} {n lo lo' mid hi : Nat} {c : Context}
  {φ : α → ScopeTree → Resolution → Prop} {post : β → ScopeTree → Resolution → Prop}
  {x : Resolve α} {f : α → Resolve β}

-- one equation for each kind of node, which the lemmas below go by
attribute [simp] visit

/-- The numbers from `lo` up to `hi`. -/
def Between (lo hi k : Nat) : Prop := lo ≤ k ∧ k < hi

/-- The numbers still free below the node `top`: its own, and those from `lo` up to `hi`. -/
def Below (top lo hi k : Nat) : Prop := k = top ∨ lo ≤ k ∧ k < hi

theorem Resolves.enter (hlt : lo < hi) (h : Resolves host n (Below lo (lo + 1) hi) φ x) :
    Resolves host n (Between lo hi) φ x :=
  h.mono (fun k hk => by rw [Below] at hk; rw [Between]; omega) fun _ _ _ h => h

/-- The next child is visited. -/
theorem Resolves.next {top : Nat} (hx : Resolves host n (Between lo mid) φ x) (htop : top < lo)
    (hlo : lo ≤ mid) (hmid : mid ≤ hi)
    (hf : ∀ a, Resolves host n (Below top mid hi) (fun b t r => φ a t r → post b t r) (f a)) :
    Resolves host n (Below top lo hi) post (x >>= f) := by
  refine hx.bind (fun k hk => ?_) (fun k hk => ?_) hf
  · rw [Between] at hk
    rw [Below, Below]
    omega
  · rw [Below] at hk ⊢
    omega

/-- The first of several nodes is visited. -/
theorem Resolves.first (hx : Resolves host n (Between lo mid) φ x) (hlo : lo ≤ mid)
    (hmid : mid ≤ hi)
    (hf : ∀ a, Resolves host n (Between mid hi) (fun b t r => φ a t r → post b t r) (f a)) :
    Resolves host n (Between lo hi) post (x >>= f) := by
  refine hx.bind (fun k hk => ?_) (fun k hk => ?_) hf
  · rw [Between] at hk
    rw [Between, Between]
    omega
  · rw [Between] at hk ⊢
    omega

/-- Nothing is visited any more. -/
theorem Resolves.finish {p : Nat → Prop} (hx : Resolves host n p φ x)
    (hf : ∀ a, Resolves host n (fun _ => False) (fun b t r => φ a t r → post b t r) (f a)) :
    Resolves host n p post (x >>= f) :=
  hx.bind (fun _ h => ⟨h, id⟩) nofun hf

theorem Resolves.discard {p : Nat → Prop} (hx : Resolves host n p φ x) :
    Resolves host n p (fun _ t r => ∃ a, φ a t r) (Functor.discard x) := by
  intro s u s' hs hfresh h
  obtain ⟨a, ha⟩ := EStateM.discard_eq_ok h
  obtain ⟨hadvances, hpost⟩ := hx s a s' hs hfresh ha
  exact ⟨hadvances, fun t r hl => ⟨a, hpost t r hl⟩⟩

/-- The walk over a node types it. -/
def ResolvesNode (host : Host) (n : Nat) (e : Expr) : Prop :=
  ∀ (c : Context) (lo hi : Nat), c.host = host → c.function < n → Expr.Numbered lo e hi →
    Resolves host n (Between lo hi) (fun type t r => Typed host t r c.here e type) (visit c e)

theorem Resolves.visitAll {es : List Expr} (h : ∀ x ∈ es, ResolvesNode host n x)
    (hc : c.host = host) (hfunction : c.function < n) (hn : Expr.NumberedAll lo es hi) :
    Resolves host n (Between lo hi) (fun types t r => types = es.map r.type ∧
      ∀ x ∈ es, Typed host t r c.here x (r.type x)) (Resolve.visitAll c es) := by
  induction es generalizing lo with
  | nil => exact .pure fun _ _ => ⟨rfl, nofun⟩
  | cons x es ih =>
    obtain ⟨hx, hes⟩ := List.forall_mem_cons.mp h
    cases hn with
    | cons head tail =>
      refine (hx c _ _ hc hfunction head).first (Nat.le_of_lt head.lt) tail.le
        fun type => (ih hes tail).finish fun types =>
          .pure fun t r ⟨htypes, hrest⟩ hfirst => ?_
      obtain rfl := hfirst.type_eq
      subst htypes
      exact ⟨rfl, List.forall_mem_cons.mpr ⟨hfirst, hrest⟩⟩

theorem Resolves.visitOption {o : Option Expr} (h : ∀ x ∈ o, ResolvesNode host n x)
    (hc : c.host = host) (hfunction : c.function < n) (hn : Expr.NumberedAll lo o.toList hi) :
    Resolves host n (Between lo hi) (fun _ t r => ∀ x ∈ o, Typed host t r c.here x (r.type x))
      (Resolve.visitOption c o) := by
  cases o with
  | none => exact .pure fun _ _ => nofun
  | some x =>
    cases hn with
    | cons head tail =>
      cases tail
      refine ((h x rfl) c _ _ hc hfunction head).discard.mono (fun _ h => h) ?_
      rintro _ t r ⟨type, htyped⟩ _ ⟨⟩
      exact htyped.type_eq.symm ▸ htyped

/-- Further elements of a literal have the type of the first. -/
theorem Resolves.furtherElements {es : List Expr} {known : Ty}
    (h : ∀ x ∈ es, ResolvesNode host n x) (hc : c.host = host) (hfunction : c.function < n)
    (hn : Expr.NumberedAll lo es hi) :
    Resolves host n (Between lo hi) (fun type t r => type = some known ∧
      ∀ x ∈ es, Typed host t r c.here x known) (visitElements c (some known) es) := by
  induction es generalizing lo with
  | nil => exact .pure fun _ _ => ⟨rfl, nofun⟩
  | cons x es ih =>
    obtain ⟨hx, hes⟩ := List.forall_mem_cons.mp h
    cases hn with
    | cons head tail =>
      refine (hx c _ _ hc hfunction head).first (Nat.le_of_lt head.lt) tail.le
        fun type => ?_
      by_cases hjoin : known = type
      · subst hjoin
        rw [joinElement, if_pos rfl]
        refine (ih hes tail).mono (fun _ h => h) ?_
        rintro _ t r ⟨rfl, hrest⟩ hfirst
        exact ⟨rfl, List.forall_mem_cons.mpr ⟨hfirst, hrest⟩⟩
      · rw [joinElement, if_neg hjoin]
        exact .failing

/-- The elements of a literal share a type that has values. -/
theorem Resolves.visitElements {es : List Expr} (h : ∀ x ∈ es, ResolvesNode host n x)
    (hc : c.host = host) (hfunction : c.function < n) (hn : Expr.NumberedAll lo es hi) :
    Resolves host n (Between lo hi) (fun type t r => (es = [] ↔ type.getD .empty = .empty) ∧
      ∀ x ∈ es, Typed host t r c.here x (type.getD .empty)) (Resolve.visitElements c none es) := by
  cases hn with
  | nil => exact .pure fun _ _ => ⟨by simp, nofun⟩
  | cons head tail =>
    obtain ⟨hx, hes⟩ := List.forall_mem_cons.mp h
    refine (hx c _ _ hc hfunction head).first (Nat.le_of_lt head.lt) tail.le
      fun type => ?_
    by_cases hempty : type.isEmpty = true
    · rw [joinElement, if_pos hempty]
      exact .failing
    · rw [joinElement, if_neg hempty]
      refine (furtherElements hes hc hfunction tail).mono (fun _ h => h) ?_
      rintro _ t r ⟨rfl, hrest⟩ hfirst
      exact ⟨by simpa [Ty.isEmpty] using hempty, List.forall_mem_cons.mpr ⟨hfirst, hrest⟩⟩

/-- The numbers below those members that are function declarations, or those that are not. -/
def OfMembers (es : List Expr) (functions : Bool) (k : Nat) : Prop :=
  ∃ x ∈ es, x.isFunction = functions ∧ ∃ y ∈ x.nodes, y.id = k

theorem Resolves.visitMembers {es : List Expr} {functions : Bool}
    (h : ∀ x ∈ es, ResolvesNode host n x) (hc : c.host = host) (hfunction : c.function < n)
    (hn : Expr.NumberedAll lo es hi) :
    Resolves host n (OfMembers es functions) (fun _ t r => ∀ x ∈ es, x.isFunction = functions →
      Typed host t r c.here x (r.type x)) (Resolve.visitMembers c functions es) := by
  induction es generalizing lo with
  | nil => exact .pure fun _ _ => nofun
  | cons x es ih =>
    obtain ⟨hx, hes⟩ := List.forall_mem_cons.mp h
    cases hn with
    | @cons _ mid _ _ _ head tail =>
      -- the numbers below the first member are those of no other
      have hapart (k : Nat) (hk : Between lo mid k) : ¬ OfMembers es functions k := by
        rintro ⟨x', hx', -, y, hy, rfl⟩
        obtain ⟨a, b, hx', hlo, -⟩ := tail.mem hx'
        have := (hx'.id_bounds hy).1
        have := hk.2
        omega
      have hrest (k : Nat) (hk : OfMembers es functions k) : OfMembers (x :: es) functions k := by
        obtain ⟨x', hx', hk⟩ := hk
        exact ⟨x', List.mem_cons_of_mem x hx', hk⟩
      rw [Resolve.visitMembers]
      split
      case isTrue hflag =>
        refine (hx c _ _ hc hfunction head).discard.bind (fun k hk => ⟨?_, hapart k hk⟩)
          hrest fun _ => (ih hes tail).mono (fun _ h => h) ?_
        · obtain ⟨y, hy, hid⟩ := head.exists_id hk.1 hk.2
          exact ⟨x, List.mem_cons_self, hflag, y, hy, hid⟩
        · rintro _ t r hmembers ⟨type, hfirst⟩
          refine List.forall_mem_cons.mpr ⟨fun _ => ?_, hmembers⟩
          exact hfirst.type_eq.symm ▸ hfirst
      case isFalse hflag =>
        refine (ih hes tail).mono hrest fun _ t r hmembers => ?_
        exact List.forall_mem_cons.mpr ⟨fun h => absurd h hflag, hmembers⟩

theorem Resolves.given {a : α} {keys : Nat → Prop} (h : Resolves host n keys post (f a)) :
    Resolves host n keys post (Pure.pure a >>= f) := h

theorem resolves_constant {l : Label} {value : Literal} :
    ResolvesNode host n (.constant l value) := by
  intro c lo hi hc hfunction hn
  cases value with
  | boolean | number | string =>
    rw [visit]
    refine .enter hn.lt (.polled <| .given (.record (.inl hn.id_eq) fun t r htype => ?_))
    exact .constant htype

theorem resolves_var {l : Label} {name : String} {d : Option Expr} :
    ResolvesNode host n (.var l name d) := by
  intro c lo hi hc hfunction hn
  rw [visit]
  exact .enter hn.lt (.polled <| Resolves.variableType.lead fun type =>
    .record (.inl hn.id_eq) fun t r htype hvar => .var htype hvar)

theorem resolves_paren {l : Label} {inner : Expr} (h : ResolvesNode host n inner) :
    ResolvesNode host n (.paren l inner) := by
  intro c lo hi hc hfunction hn
  obtain ⟨_, head, tail⟩ := hn.children_numbered.uncons
  cases tail
  rw [visit]
  refine .enter hn.lt (.polled ?_)
  refine (h c _ _ hc hfunction head).next
    (Nat.lt_succ_self lo) (Nat.le_of_lt head.lt) (Nat.le_refl _) fun type => ?_
  exact .record (.inl hn.id_eq) fun t r htype hinner => .paren htype hinner

theorem isTarget_of_assignmentTarget {e : Expr} {target : AssignmentTarget} {s s' : Typing}
    (h : assignmentTarget e s = .ok target s') : s' = s ∧ e.isTarget = true := by
  cases e with
  | var => cases h; exact ⟨rfl, rfl⟩
  | element _ _ index =>
    cases index with
    | none => cases h
    | some index => cases h; exact ⟨rfl, rfl⟩
  | _ => cases h

theorem Resolves.assignmentTarget {e : Expr} :
    Resolves host n (fun _ => False) (fun _ _ _ => e.isTarget = true)
      (Resolve.assignmentTarget e) := by
  intro s target s' hs _ h
  obtain ⟨rfl, htarget⟩ := isTarget_of_assignmentTarget h
  exact ⟨.refl hs, fun _ _ _ => htarget⟩

theorem resolves_binary {l : Label} {op : BinaryOp} {left right : Expr}
    (hl : ResolvesNode host n left) (hr : ResolvesNode host n right) :
    ResolvesNode host n (.binary l op left right) := by
  intro c lo hi hc hfunction hn
  obtain ⟨mid, first, rest⟩ := hn.children_numbered.uncons
  obtain ⟨_, second, rest⟩ := rest.uncons
  cases rest
  have hleft := hl c _ _ hc hfunction first
  have hright := hr c _ _ hc hfunction second
  have hlo := first.lt
  have hmid := second.lt
  rw [visit]
  refine .enter hn.lt (.polled ?_)
  dsimp only
  split
  case isTrue hop =>
    subst hop
    refine Resolves.assignmentTarget.lead fun target =>
      hleft.next (by omega) (by omega) (by omega) fun dest =>
        hright.next (by omega) (by omega) (by omega) fun source => ?_
    rw [assignmentType]
    split
    case isTrue haccepts =>
      exact .given (.record (.inl hn.id_eq) fun t r htype hsource hdest htarget =>
        .assign htype htarget hdest hsource haccepts)
    case isFalse => exact .failing
  case isFalse hop =>
    refine hleft.next (by omega) (by omega) (by omega) fun a =>
      hright.next (by omega) (by omega) (by omega) fun b =>
        (Resolves.operatorType hop).lead fun type => .record (.inl hn.id_eq) ?_
    exact fun t r htype hop hb ha => .operator htype ha hb hop

theorem Resolves.boolean {type : Ty} {span : Span} {f : Unit → Resolve β} {keys : Nat → Prop}
    (h : type = .boolean → Resolves host n keys post (f ())) :
    Resolves host n keys post (requireBoolean type span >>= f) := .check h

theorem Resolves.number {type : Ty} {span : Span} {f : Unit → Resolve β} {keys : Nat → Prop}
    (h : type = .double → Resolves host n keys post (f ())) :
    Resolves host n keys post (requireNumberBound type span >>= f) := .check h

theorem resolves_cond {l : Label} {condition branch : Expr} {other : Option Expr}
    (hcond : ResolvesNode host n condition) (hbranch : ResolvesNode host n branch)
    (hother : ∀ x ∈ other, ResolvesNode host n x) :
    ResolvesNode host n (.cond l condition branch other) := by
  intro c lo hi hc hfunction hn
  obtain ⟨m₁, first, rest⟩ := hn.children_numbered.uncons
  obtain ⟨m₂, second, rest⟩ := rest.uncons
  have hcond := hcond c _ _ hc hfunction first
  have hbranch := hbranch c _ _ hc hfunction second
  have h₁ := first.lt
  have h₂ := second.lt
  have h₃ := rest.le
  rw [visit]
  refine .enter hn.lt (.polled ?_)
  refine hcond.next (by omega) (by omega) (by omega) fun test => .boolean fun htest =>
    hbranch.next (by omega) (by omega) (by omega) fun type => ?_
  subst htest
  cases other with
  | none =>
    exact .given (.record (.inl hn.id_eq) fun t r htype hbranch hcond =>
      .ifThen htype hcond hbranch)
  | some other =>
    obtain ⟨_, third, rest⟩ := rest.uncons
    cases rest
    have h₄ := third.lt
    refine (hother other rfl c _ _ hc hfunction third).next (by omega) (by omega) (by omega)
      fun otherType => ?_
    dsimp only
    split
    case isTrue heq =>
      subst heq
      exact .record (.inl hn.id_eq) fun t r htype hother hbranch hcond =>
        .ifElse htype hcond hbranch hother
    case isFalse => exact .failing

theorem resolves_whileLoop {l : Label} {condition body : Expr}
    (hcond : ResolvesNode host n condition) (hbody : ResolvesNode host n body) :
    ResolvesNode host n (.whileLoop l condition body) := by
  intro c lo hi hc hfunction hn
  obtain ⟨_, first, rest⟩ := hn.children_numbered.uncons
  obtain ⟨_, second, rest⟩ := rest.uncons
  cases rest
  have hcond := hcond c _ _ hc hfunction first
  have hbody := hbody c _ _ hc hfunction second
  have h₁ := first.lt
  have h₂ := second.lt
  rw [visit]
  refine .enter hn.lt (.polled ?_)
  refine hcond.next (by omega) (by omega) (by omega) fun test => .boolean fun htest =>
    hbody.discard.next (by omega) (by omega) (by omega) fun _ => ?_
  subst htest
  exact .record (.inl hn.id_eq) fun t r htype ⟨type, hbody⟩ hcond => .whileLoop htype hcond hbody

theorem resolves_repeatUntil {l : Label} {body condition : Expr}
    (hbody : ResolvesNode host n body) (hcond : ResolvesNode host n condition) :
    ResolvesNode host n (.repeatUntil l body condition) := by
  intro c lo hi hc hfunction hn
  obtain ⟨_, first, rest⟩ := hn.children_numbered.uncons
  obtain ⟨_, second, rest⟩ := rest.uncons
  cases rest
  have hbody := hbody c _ _ hc hfunction first
  have hcond := hcond c _ _ hc hfunction second
  have h₁ := first.lt
  have h₂ := second.lt
  rw [visit]
  refine .enter hn.lt (.polled ?_)
  refine hbody.discard.next (by omega) (by omega) (by omega) fun _ =>
    hcond.next (by omega) (by omega) (by omega) fun test => .boolean fun htest => ?_
  subst htest
  exact .record (.inl hn.id_eq) fun t r htype hcond ⟨type, hbody⟩ => .repeatUntil htype hbody hcond

theorem resolves_call {l : Label} {name : String} {args : List Expr}
    (h : ∀ x ∈ args, ResolvesNode host n x) : ResolvesNode host n (.call l name args) := by
  intro c lo hi hc hfunction hn
  have hargs := Resolves.visitAll h hc hfunction hn.children_numbered
  have hlo := hn.children_numbered.le
  rw [visit]
  refine .enter hn.lt (.polled ?_)
  refine hargs.next (Nat.lt_succ_self lo) hlo (Nat.le_refl _) fun types =>
    (Resolves.callType hc).lead fun type => .record (.inl hn.id_eq) ?_
  rintro t r htype ⟨o, ho, hyields⟩ ⟨rfl, hargs⟩
  exact .call htype hargs ho hyields

theorem resolves_ret {l : Label} {value : Option Expr}
    (h : ∀ x ∈ value, ResolvesNode host n x) : ResolvesNode host n (.ret l value) := by
  intro c lo hi hc hfunction hn
  rw [visit]
  refine .enter hn.lt (.polled <| .guard fun hmain => ?_)
  cases value with
  | none =>
    refine (Resolves.returnType hfunction).lead fun _ => .record (.inl hn.id_eq) ?_
    exact fun t r htype hreturns => .ret htype hmain nofun hreturns
  | some x =>
    obtain ⟨_, head, tail⟩ := hn.children_numbered.uncons
    cases tail
    refine (h x rfl c _ _ hc hfunction head).next (Nat.lt_succ_self lo) (Nat.le_of_lt head.lt)
      (Nat.le_refl _) fun type => (Resolves.returnType hfunction).lead fun _ =>
        .record (.inl hn.id_eq) fun t r htype hreturns hvalue => ?_
    obtain rfl := hvalue.type_eq
    refine .ret htype hmain ?_ hreturns
    rintro _ ⟨⟩
    exact hvalue

theorem resolves_element {l : Label} {array : Expr} {index : Option Expr}
    (harray : ResolvesNode host n array) (hindex : ∀ x ∈ index, ResolvesNode host n x) :
    ResolvesNode host n (.element l array index) := by
  intro c lo hi hc hfunction hn
  rw [visit]
  refine .enter hn.lt (.polled ?_)
  cases index with
  | none => exact .failing
  | some index =>
    obtain ⟨_, first, rest⟩ := hn.children_numbered.uncons
    obtain ⟨_, second, rest⟩ := rest.uncons
    cases rest
    have h₁ := first.lt
    have h₂ := second.lt
    refine (harray c _ _ hc hfunction first).next (by omega) (by omega) (by omega)
      fun arrayType => ?_
    cases arrayType with
    | array element =>
      refine .given ((hindex index rfl c _ _ hc hfunction second).next (by omega) (by omega)
        (by omega) fun indexType => .guard fun hdouble => .guard fun hempty =>
          .given (.record (.inl hn.id_eq) fun t r htype hi ha => ?_))
      obtain rfl := Decidable.not_not.mp hdouble
      refine .element htype (fun he => hempty ?_) ha hi
      rw [he]
      rfl
    | _ => exact .failing

theorem resolves_array {l : Label} {elements : List Expr}
    (h : ∀ x ∈ elements, ResolvesNode host n x) : ResolvesNode host n (.array l elements) := by
  intro c lo hi hc hfunction hn
  have helements := Resolves.visitElements h hc hfunction hn.children_numbered
  rw [visit]
  refine .enter hn.lt (.polled ?_)
  refine helements.next (Nat.lt_succ_self lo) hn.children_numbered.le (Nat.le_refl _) fun type =>
    .given (.record (.inl hn.id_eq) ?_)
  exact fun t r htype ⟨hempty, helements⟩ => .array htype hempty helements

/-- A block has the type of its last member, which was visited before it is looked up. -/
theorem Resolves.members {es : List Expr} (h : ∀ x ∈ es, ResolvesNode host n x)
    (hc : c.host = host) (hfunction : c.function < n) (hn : Expr.NumberedAll lo es hi) :
    Resolves host n (Between lo hi) (fun type t r =>
      type = (es.getLast?.map r.type).getD .empty ∧ ∀ x ∈ es, Typed host t r c.here x (r.type x))
      (do
        Resolve.visitMembers c true es
        Resolve.visitMembers c false es
        lastType es) := by
  have hbetween (flag : Bool) (k : Nat) (hk : OfMembers es flag k) : Between lo hi k := by
    obtain ⟨x, hx, -, y, hy, rfl⟩ := hk
    obtain ⟨a, b, hx, hlo, hhi⟩ := hn.mem hx
    obtain ⟨h₁, h₂⟩ := hx.id_bounds hy
    exact ⟨by omega, by omega⟩
  have hapart (k : Nat) (hk : OfMembers es true k) : ¬ OfMembers es false k := by
    obtain ⟨x, hx, hflag, y, hy, rfl⟩ := hk
    rintro ⟨x', hx', hflag', y', hy', hid⟩
    cases hn.eq_of_id hx hx' hy hy' hid.symm
    rw [hflag] at hflag'
    cases hflag'
  have hboth : Resolves host n (Between lo hi)
      (fun _ t r => ∀ x ∈ es, Typed host t r c.here x (r.type x))
      (do Resolve.visitMembers c true es; Resolve.visitMembers c false es) := by
    refine (visitMembers h hc hfunction hn).bind
      (fun k hk => ⟨hbetween true k hk, hapart k hk⟩) (hbetween false) fun _ =>
        (visitMembers h hc hfunction hn).mono (fun _ hk => hk) fun _ t r hplain hfunctions x hx => ?_
    cases hflag : x.isFunction with
    | true => exact hfunctions x hx hflag
    | false => exact hplain x hx hflag
  rw [← bind_assoc]
  intro s type s' hs hfresh hrun
  obtain ⟨_, s₁, hmembers, hlast⟩ := EStateM.bind_eq_ok hrun
  obtain ⟨hadvances, htyped⟩ := hboth s _ s₁ hs hfresh hmembers
  cases hlast
  refine ⟨hadvances, fun t r hl => ⟨?_, htyped t r hl⟩⟩
  cases hlast : es.getLast? with
  | none => rfl
  | some x =>
    -- the table at this point has the type that it has in the end
    have hnow := (htyped _ _ (Later.refl s' .empty) x (List.mem_of_getLast? hlast)).typeOf?
    have hend := hl.types _ _ hnow
    simp only [Option.bind_some, Option.map_some, Option.getD_some, Resolution.type]
    rw [hend, ← hnow]
    rfl

theorem resolves_block {l : Label} {body : List Expr} (h : ∀ x ∈ body, ResolvesNode host n x) :
    ResolvesNode host n (.block l body) := by
  intro c lo hi hc hfunction hn
  rw [visit]
  refine .enter hn.lt (.polled <| .within fun scope => ?_)
  have hmembers := Resolves.members (c := { c with scope }) h hc hfunction hn.children_numbered
  have hnext : Resolves host n (Below lo (lo + 1) hi)
      (fun type t r => t.scopeOf? l.id = some scope → Typed host t r c.here (.block l body) type)
      ((do
        Resolve.visitMembers { c with scope } true body
        Resolve.visitMembers { c with scope } false body
        lastType body) >>= fun type => do
          record l.id type
          return type) := by
    refine hmembers.next (Nat.lt_succ_self lo) hn.children_numbered.le (Nat.le_refl _) fun type =>
      .record (.inl hn.id_eq) ?_
    rintro t r htype ⟨rfl, hbody⟩ hscope
    exact .block htype hscope hbody
  simp only [bind_assoc] at hnext
  exact hnext

theorem resolves_forLoop {l : Label} {init condition step : Option Expr} {body : Expr}
    (hinit : ∀ x ∈ init, ResolvesNode host n x) (hcond : ∀ x ∈ condition, ResolvesNode host n x)
    (hstep : ∀ x ∈ step, ResolvesNode host n x) (hbody : ResolvesNode host n body) :
    ResolvesNode host n (.forLoop l init condition step body) := by
  intro c lo hi hc hfunction hn
  obtain ⟨m₃, hparts, last⟩ := Expr.numberedAll_append.mp hn.children_numbered
  obtain ⟨m₂, hparts, third⟩ := Expr.numberedAll_append.mp hparts
  obtain ⟨m₁, first, second⟩ := Expr.numberedAll_append.mp hparts
  obtain ⟨_, last, rest⟩ := last.uncons
  cases rest
  have h₁ := first.le
  have h₂ := second.le
  have h₃ := third.le
  have h₄ := last.lt
  rw [visit]
  refine .enter hn.lt (.polled <| .within fun scope => ?_)
  refine (Resolves.visitOption (c := { c with scope }) hinit hc hfunction first).next
    (by omega) (by omega) (by omega) fun _ => ?_
  -- what follows the condition, whether or not there is one
  have hrest : Resolves host n (Below lo m₂ hi)
      (fun type t r => (∀ x ∈ condition, Typed host t r ⟨scope, c.function⟩ x .boolean) →
        (∀ x ∈ init, Typed host t r ⟨scope, c.function⟩ x (r.type x)) →
        t.scopeOf? l.id = some scope →
        Typed host t r c.here (.forLoop l init condition step body) type)
      (do
        Resolve.visitOption { c with scope } step
        Functor.discard (visit { c with scope } body)
        record l.id .empty
        return .empty) := by
    refine (Resolves.visitOption (c := { c with scope }) hstep hc hfunction third).next
      (by omega) (by omega) (by omega) fun _ =>
        (hbody { c with scope } _ _ hc hfunction last).discard.next
          (by omega) (by omega) (by omega) fun _ => .record (.inl hn.id_eq) ?_
    exact fun t r htype ⟨type, hbody⟩ hstep hcond hinit hscope =>
      .forLoop htype hscope hinit hcond hstep hbody
  cases condition with
  | none =>
    cases second
    exact hrest.mono (fun _ h => h) fun type t r htyped hinit hscope => htyped nofun hinit hscope
  | some condition =>
    obtain ⟨_, second, rest⟩ := second.uncons
    cases rest
    have h₅ := second.lt
    refine (hcond condition rfl { c with scope } _ _ hc hfunction second).next
      (by omega) (by omega) (by omega) fun test =>
        .boolean fun htest => hrest.mono (fun _ h => h) ?_
    subst htest
    intro type t r htyped hcond hinit hscope
    refine htyped ?_ hinit hscope
    rintro _ ⟨⟩
    exact hcond

theorem resolves_forTo {l : Label} {counter start bound body : Expr} {direction : Direction}
    (hstart : ResolvesNode host n start) (hbound : ResolvesNode host n bound)
    (hbody : ResolvesNode host n body) :
    ResolvesNode host n (.forTo l counter start bound direction body) := by
  intro c lo hi hc hfunction hn
  obtain ⟨m₁, first, rest⟩ := hn.children_numbered.uncons
  obtain ⟨m₂, second, rest⟩ := rest.uncons
  obtain ⟨m₃, third, rest⟩ := rest.uncons
  obtain ⟨_, last, rest⟩ := rest.uncons
  cases rest
  have h₁ := first.lt
  have h₂ := second.lt
  have h₃ := third.lt
  have h₄ := last.lt
  rw [visit]
  refine .enter hn.lt (.polled <| .within fun scope => ?_)
  have hdouble : Ty.double ≠ .empty := nofun
  have hkeys (k : Nat) (hk : k = counter.id) : Between (lo + 1) m₁ k := by
    rw [hk, first.id_eq]
    exact ⟨Nat.le_refl _, h₁⟩
  have hcounter : Resolves host n (Between (lo + 1) m₁) _
      (Resolve.loopVariable { c with scope } counter .double) :=
    (Resolves.loopVariable hdouble).mono hkeys fun _ _ _ h => h
  have hstart := hstart { c with scope } _ _ hc hfunction second
  have hbound := hbound { c with scope } _ _ hc hfunction third
  have hbody := hbody { c with scope } _ _ hc hfunction last
  refine hcounter.next (by omega) (by omega) (by omega) fun _ =>
    hstart.next (by omega) (by omega) (by omega) fun a => .number fun ha =>
      hbound.next (by omega) (by omega) (by omega) fun b => .number fun hb =>
        hbody.discard.next (by omega) (by omega) (by omega) fun _ => .record (.inl hn.id_eq) ?_
  subst ha hb
  rintro t r htype ⟨type, hbody⟩ hbound hstart ⟨lc, name, d, rfl, hvar, -⟩ hscope
  exact .forTo htype hscope hvar hstart hbound hbody

/-- The array of a loop gets the type of what the loop goes over. -/
theorem Resolves.loopArray {node : Nat} {type : Ty} {span : Span} {problem : TypeProblem}
    {y : Resolve β} {keys : Nat → Prop} (htype : type ≠ .empty)
    (h : Resolves host n keys post y) :
    Resolves host n keys post (do
      let t ← Resolve.tree
      let slots ← Resolve.orFail problem span (t.loopSlotsOf? node)
      modify fun s => { s with tree := s.tree.setVariableType slots.array type }
      y) := by
  intro s b s' hs hfresh hrun
  obtain ⟨t₀, _, ⟨⟩, hrun⟩ := EStateM.bind_eq_ok hrun
  cases hslots : s.tree.loopSlotsOf? node with
  | none => simp only [hslots] at hrun; cases hrun
  | some slots =>
    simp only [hslots] at hrun
    obtain ⟨_, _, ⟨⟩, hrun⟩ := EStateM.bind_eq_ok hrun
    obtain ⟨_, s₁, hmodify, hrun⟩ := EStateM.bind_eq_ok hrun
    cases hmodify
    have hopen (v : Variable) (_ : s.tree.vars[slots.array]? = some v) :
        v.type = none ∨ s.tree.IsLoopArray slots.array :=
      .inr ⟨(node, slots), mem_of_lookup hslots, rfl⟩
    have hset : Refines s.tree (s.tree.setVariableType slots.array type) := .setVariableType hopen
    obtain ⟨hadvances, hpost⟩ := h { s with tree := s.tree.setVariableType slots.array type }
      b s' (hs.setVariableType htype hopen) hfresh hrun
    exact ⟨⟨hadvances.sized, hset.trans hadvances.refines, hadvances.types⟩, hpost⟩

theorem resolves_forIn {l : Label} {item iterable body : Expr}
    (hiterable : ResolvesNode host n iterable) (hbody : ResolvesNode host n body) :
    ResolvesNode host n (.forIn l item iterable body) := by
  intro c lo hi hc hfunction hn
  obtain ⟨m₁, first, rest⟩ := hn.children_numbered.uncons
  obtain ⟨m₂, second, rest⟩ := rest.uncons
  obtain ⟨_, last, rest⟩ := rest.uncons
  cases rest
  have h₁ := first.lt
  have h₂ := second.lt
  have h₃ := last.lt
  have hitem := first.id_eq
  rw [visit]
  refine .enter hn.lt (.polled <| .within fun scope => ?_)
  -- the array is visited before the variable, which has the smaller number
  refine (hiterable { c with scope } _ _ hc hfunction second).bind
    (q := fun k => k = lo ∨ k = lo + 1 ∨ m₂ ≤ k ∧ k < hi) (fun k hk => ?_) (fun k hk => ?_)
    fun iterableType => ?_
  · rw [Between] at hk
    rw [Below]
    omega
  · rw [Below]
    omega
  cases iterableType with
  | array element =>
    by_cases hempty : element = .empty
    · subst hempty
      exact .failing
    · have helement : iterableElement (.array element) iterable.span = pure element := by
        cases element with
        | empty => contradiction
        | _ => rfl
      have harray : Ty.array element ≠ .empty := nofun
      have hbody := hbody { c with scope } _ _ hc hfunction last
      rw [helement]
      refine .given ((Resolves.loopVariable (e := item) hempty).bind
        (q := Below lo m₂ hi) (fun k hk => ?_) (fun k hk => ?_) fun _ =>
          .loopArray harray (hbody.discard.next (by omega) (by omega) (by omega) fun _ =>
            .record (.inl hn.id_eq) ?_))
      · rw [hk, hitem, Below]
        omega
      · rw [Below] at hk
        omega
      · rintro t r htype ⟨type, hbody⟩ ⟨li, name, d, rfl, hvar, hitemType⟩ hiterable hscope
        exact .forIn htype hscope hempty hitemType hvar hiterable hbody
  | _ => exact .failing

theorem resolves_function {l : Label} {name : String} {params : List Expr} {body : Expr}
    (hparams : ∀ x ∈ params, ResolvesNode host n x) (hbody : ResolvesNode host n body) :
    ResolvesNode host n (.function l name params body) := by
  intro c lo hi hc hfunction hn
  obtain ⟨mid, first, last⟩ := Expr.numberedAll_append.mp hn.children_numbered
  obtain ⟨_, last, rest⟩ := last.uncons
  cases rest
  have h₁ := first.le
  have h₂ := last.lt
  rw [visit]
  refine .enter hn.lt (.polled <| .tree fun t₀ ht₀ => .orFail fun id hid => ?_)
  have hsmall : id < n := ht₀.size ▸ (ht₀.functionNodes _ (mem_of_lookup hid)).2
  refine .within fun scope => (Resolves.visitAll (c := { c with scope, function := id }) hparams hc
    hsmall first).next (by omega) (by omega) (by omega) fun types => .tree fun t₁ _ => ?_
  have hrest : Resolves host n (Below lo mid hi)
      (fun type t r => Refines t₀ t → t.scopeOf? l.id = some scope →
        Typed host t r c.here (.function l name params body) type)
      (do
        bodyType id (← visit { c with scope, function := id } body) body.span
        record l.id .empty
        return .empty) := by
    refine (hbody { c with scope, function := id } _ _ hc hsmall last).next
      (by omega) (by omega) (by omega) fun type =>
        (Resolves.bodyType hsmall).lead fun _ => .record (.inl hn.id_eq) ?_
    rintro t r htype ⟨result, hreturns, hagree⟩ hbody hrefines hscope
    have hid' : t.functionOf? l.id = some id := by
      rw [functionOf?, hrefines.nodeFunctions]
      exact hid
    exact .function htype hid' hscope hbody hreturns hagree
  cases hcall : t₁.resolveCall? c.scope name types with
  | none => exact .failing
  | some o =>
    obtain ⟨oname, oparams, callee⟩ := o
    cases callee with
    | native => exact .failing
    | script found =>
      refine .guard fun _ => hrest.mono (fun _ h => h) ?_
      exact fun type t r htyped _ _ hscope hrefines => htyped hrefines hscope

theorem resolvesNode (e : Expr) : ResolvesNode host n e := by
  induction e using Expr.children_induction with
  | step e ih =>
    cases e with
    | constant => exact resolves_constant
    | var => exact resolves_var
    | binary l op left right =>
      exact resolves_binary (ih _ (by simp)) (ih _ (by simp))
    | function l name params body =>
      exact resolves_function (fun x hx => ih x (by simp [hx]))
        (ih _ (by simp))
    | block l body => exact resolves_block ih
    | cond l condition branch other =>
      exact resolves_cond (ih _ (by simp)) (ih _ (by simp))
        fun x hx => ih x (by simp [Option.mem_def.mp hx])
    | forLoop l init condition step body =>
      exact resolves_forLoop (fun x hx => ih x (by simp [Option.mem_def.mp hx]))
        (fun x hx => ih x (by simp [Option.mem_def.mp hx]))
        (fun x hx => ih x (by simp [Option.mem_def.mp hx]))
        (ih _ (by simp))
    | forTo l counter start bound direction body =>
      exact resolves_forTo (ih _ (by simp)) (ih _ (by simp))
        (ih _ (by simp))
    | forIn l item iterable body =>
      exact resolves_forIn (ih _ (by simp)) (ih _ (by simp))
    | whileLoop l condition body =>
      exact resolves_whileLoop (ih _ (by simp)) (ih _ (by simp))
    | repeatUntil l body condition =>
      exact resolves_repeatUntil (ih _ (by simp))
        (ih _ (by simp))
    | call l name args => exact resolves_call ih
    | ret l value => exact resolves_ret fun x hx => ih x (by simpa using hx)
    | paren l inner => exact resolves_paren (ih _ (by simp))
    | element l array index =>
      exact resolves_element (ih _ (by simp))
        fun x hx => ih x (by simp [Option.mem_def.mp hx])
    | array l elements => exact resolves_array ih

end Resolve

namespace ScopeTree

variable {t t' : ScopeTree} {p : Program} {host : Host} {cancelled : Cancellation} {r : Resolution}

/-- A program that the resolver accepts is one whose body it visits without a problem. -/
theorem visit_of_resolve (h : t.resolve p host cancelled = (.ok r, t')) :
    ∃ visits, Resolve.visit { host, cancelled, scope := t.program, function := main } p.body
      { tree := t } = .ok r.programType ⟨t', r.types, visits⟩ := by
  rw [ScopeTree.resolve] at h
  cases hvisit : Resolve.visit { host, cancelled, scope := t.program, function := main } p.body
      { tree := t } with
  | error d s => simp only [hvisit] at h; cases h
  | ok type s =>
    simp only [hvisit] at h
    cases h
    exact ⟨s.visits, rfl⟩

theorem resolve_resolves (hbuilt : Built host p t) (hn : Expr.Numbered 0 p.body p.nodeCount)
    (h : t.resolve p host cancelled = (.ok r, t')) :
    ∃ visits, Resolve.Advances host t.functions.size (Resolve.Between 0 p.nodeCount) { tree := t }
        ⟨t', r.types, visits⟩ ∧
      ∀ t'' r', Resolve.Later ⟨t', r.types, visits⟩ t'' r' →
        Typed host t'' r' ⟨t.program, main⟩ p.body r.programType := by
  obtain ⟨f, hf, -⟩ := hbuilt.mainFunction
  have hmain : main < t.functions.size := (Array.getElem?_eq_some_iff.mp hf).1
  obtain ⟨visits, hvisit⟩ := visit_of_resolve h
  exact ⟨visits, Resolve.resolvesNode p.body _ _ _ rfl hmain hn { tree := t } _ _
    { hbuilt.toWf with size := rfl } nofun hvisit⟩

/-- A program that the resolver accepts is typed by the rules, in the tree that it leaves. -/
theorem resolve_eq_ok (hbuilt : Built host p t) (hn : Expr.Numbered 0 p.body p.nodeCount)
    (h : t.resolve p host cancelled = (.ok r, t')) :
    Refines t t' ∧ Built host p t' ∧ Typed host t' r ⟨t'.program, main⟩ p.body r.programType := by
  obtain ⟨visits, hadvances, htyped⟩ := resolve_resolves hbuilt hn h
  refine ⟨hadvances.refines, hbuilt.refines hadvances.refines hadvances.sized.valued, ?_⟩
  rw [hadvances.refines.program]
  exact htyped _ _ (.refl ⟨t', r.types, visits⟩ r.programType)

/-- No node gets two types. -/
theorem resolve_nodup (hbuilt : Built host p t) (hn : Expr.Numbered 0 p.body p.nodeCount)
    (h : t.resolve p host cancelled = (.ok r, t')) : (r.types.map Prod.fst).Nodup := by
  obtain ⟨visits, hadvances, -⟩ := resolve_resolves hbuilt hn h
  exact (Keyed.nodup hadvances.types rfl).1

end ScopeTree

end TurtleScript

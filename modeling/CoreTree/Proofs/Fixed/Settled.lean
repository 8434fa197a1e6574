import CoreTree.Proofs.Fixed.Constructs

/-! # Trees that normalize to themselves

A tree is fixed in a scope if there, in any program, it normalizes to itself and changes nothing.
A construct of the core is fixed if its parts are, a branch is not empty, a target is still a
target, and no statement of a sequence stands behind one that ends.
-/
namespace CoreTree
set_option autoImplicit false

open Pending

/-! ## Fixed trees -/

namespace Node

def Fixed (sc : Scope) (n : Node) : Prop :=
  ∀ answer, (n.pending answer).Comes .again sc fun m o => o.node = m

variable {sc : Scope} {s : Span} {n : Node}

theorem Fixed.node (h : n.Fixed sc) (answer : RequireHandler) :
    (n.pending answer).ComesNode .again sc Eq :=
  (h answer).node fun _ _ ho => ho.symm

/-- What is told of a tree's pending tree need only be told of the tree. -/
theorem fixed_of_run (h : ∀ answer, (n.pending answer).run.Goes .again sc sc fun o => o.node = n) :
    n.Fixed sc := by
  intro answer
  unfold Pending.Comes
  rw [n.source_pending answer]
  exact h answer

theorem fixed_option {o : Option Node} (h : ∀ n ∈ o, n.Fixed sc) (answer : RequireHandler) :
    ∀ p ∈ pendingOption answer o, p.ComesNode .again sc Eq :=
  forall_pendingOption fun n hn => (h n hn).node answer

theorem fixed_list {ns : List Node} (h : ∀ n ∈ ns, n.Fixed sc) (answer : RequireHandler) :
    ∀ p ∈ pendingList answer ns, p.ComesNode .again sc Eq :=
  forall_pendingList fun n hn => (h n hn).node answer

theorem option_eq_of_rel {o v : Option Node} {answer : RequireHandler}
    (h : Option.Rel Eq ((pendingOption answer o).map source) v) : v = o := by
  rw [map_source_pendingOption] at h
  cases h with
  | none => rfl
  | some h => rw [h]

theorem list_eq_of_rel {ns ms : List Node} {answer : RequireHandler}
    (h : List.Forall₂ Eq ((pendingList answer ns).map source) ms) : ms = ns := by
  rw [map_source_pendingList, List.forall₂_eq_eq_eq] at h
  exact h.symm

/-- A branch that is fixed and not empty is there again. -/
def FixedBranch (sc : Scope) (o : Option Node) : Prop := ∀ n ∈ o, n.Fixed sc ∧ n.isNop = false

theorem fixedBranch_none : FixedBranch sc none :=
  fun _ hn => absurd hn (Option.not_mem_none _)

theorem FixedBranch.comes {o : Option Node} (h : FixedBranch sc o) (answer : RequireHandler) :
    ∀ p ∈ pendingOption answer o, p.Comes .again sc fun m o => o.node = m :=
  forall_pendingOption fun n hn => (h n hn).1 answer

theorem FixedBranch.eq {o : Option Node} (h : FixedBranch sc o) {answer : RequireHandler}
    {b : Option Outcome} (hComes : OptionComes (fun m o => o.node = m) (pendingOption answer o) b) :
    b.bind (·.node.toOption) = o := by
  cases o with
  | none =>
    cases hComes
    rfl
  | some n =>
    cases hComes with
    | some hNode =>
      show Node.toOption _ = _
      rw [hNode, source_pending, toOption_eq_some_iff]
      exact ⟨rfl, (h n rfl).2⟩

/-! ## The core vocabulary -/

theorem fixed_atom (s : Span) (a : Atom) : (Node.atom s a).Fixed sc :=
  fixed_of_run fun _ => Norm.goes_pure rfl

theorem fixed_var {v : Var} (hOut : v.out = false) (h : sc.readVersion? v.name = some v.version) :
    (Node.var s v).Fixed sc := by
  refine fixed_of_run fun answer => ?_
  refine (Norm.goes_useVar s hOut fun hNone => ?_).bind fun w hw => Norm.goes_pure ?_
  · rw [h] at hNone
    cases hNone
  · obtain ⟨version, hVersion, rfl⟩ := hw
    cases h.symm.trans hVersion
    rfl

theorem fixed_cond {test : Node} {body other : Option Node} (hTest : test.Fixed sc)
    (hBody : FixedBranch sc body) (hOther : FixedBranch sc other) :
    (Node.cond s .whenTrue test body other).Fixed sc := by
  refine fixed_of_run fun answer => ?_
  refine (goes_cond s (hTest.node answer) (hBody.comes answer) (hOther.comes answer)).mono ?_
  rintro _ ⟨t, b, e, rfl, hb, he, rfl⟩
  rw [hBody.eq hb, hOther.eq he, source_pending]

theorem fixed_loop {test : Node} {body : Option Node} (hTest : test.Fixed sc)
    (hBody : FixedBranch sc body) : (Node.loop s test body).Fixed sc := by
  refine fixed_of_run fun answer => (goes_loop s (hTest.node answer) (hBody.comes answer)).mono ?_
  rintro _ ⟨t, b, rfl, hb, rfl⟩
  rw [hBody.eq hb, source_pending]

theorem fixed_jump {kind : JumpKind} {value : Option Node} (h : ∀ n ∈ value, n.Fixed sc) :
    (Node.jump s kind value).Fixed sc := by
  refine fixed_of_run fun answer => (goes_jump s kind (fixed_option h answer)).mono ?_
  rintro _ ⟨v, hv, rfl⟩
  rw [option_eq_of_rel hv]

theorem fixed_assign_const {t : Span} {path : ConstPath} {value : Node}
    (h : value.Fixed .empty) : (Node.assign s (.atom t (.const path)) value).Fixed sc := by
  refine fixed_of_run fun answer => ?_
  refine (goes_assign_const s ((fixed_atom t _).node answer) rfl (h.node answer)).mono ?_
  rintro _ ⟨n, v, rfl, rfl, rfl⟩
  rw [source_pending, source_pending]

theorem fixed_assign {target value : Node} (hTarget : target.Fixed sc)
    (hVar : target.isVar = false) (hConst : ∀ t path, target ≠ .atom t (.const path))
    (hValue : value.Fixed sc) : (Node.assign s target value).Fixed sc := by
  refine fixed_of_run fun answer => ?_
  refine (goes_assign s (hTarget.node answer) ?_ ?_ (hValue.node answer)).mono ?_
  · rwa [source_pending]
  · rwa [source_pending]
  · rintro _ ⟨n, v, rfl, rfl, rfl⟩
    rw [source_pending, source_pending]

theorem fixed_multi {targets values : List Node} (hTargets : ∀ n ∈ targets, n.Fixed sc)
    (hVars : ∀ n ∈ targets, n.isVar = false) (hValues : ∀ n ∈ values, n.Fixed sc) :
    (Node.multi s targets values).Fixed sc := by
  refine fixed_of_run fun answer => ?_
  have hSources : ∀ p ∈ pendingList answer targets, p.source.isVar = false := by
    intro p hp
    have hMem := List.mem_map_of_mem hp (f := source)
    rw [map_source_pendingList] at hMem
    exact hVars _ hMem
  refine (goes_multi s (fixed_list hTargets answer) hSources (fixed_list hValues answer)).mono ?_
  rintro _ ⟨ts, vs, hts, hvs, rfl⟩
  rw [list_eq_of_rel hts, list_eq_of_rel hvs]

theorem pending_call (s : Span) (receiver : Option Node) (name : Symbol) (args : List Node)
    (block : Option (Block Node)) (answer : RequireHandler) :
    (Node.call s receiver name args block).pending answer =
      .call s (pendingOption answer receiver) name (pendingList answer args)
        (block.map fun b => ⟨b.params, pendingOption answer b.body⟩) := by
  cases block <;> rfl

theorem fixed_call {receiver : Option Node} {name : Symbol} {args : List Node}
    {block : Option (Block Node)} (hReceiver : ∀ n ∈ receiver, n.Fixed sc)
    (hArgs : ∀ n ∈ args, n.Fixed sc)
    (hBlock : ∀ b ∈ block, FixedBranch (Scope.bindParams sc b.params).2 b.body) :
    (Node.call s receiver name args block).Fixed sc := by
  refine fixed_of_run fun answer => ?_
  have hBlocks : ∀ b ∈ block.map (fun b => Block.mk b.params (pendingOption answer b.body)),
      ∀ p ∈ b.body, p.Comes .again (Scope.bindParams sc b.params).2 fun m o => o.node = m := by
    intro b hb
    obtain ⟨b, hMem, rfl⟩ := Option.map_eq_some_iff.mp hb
    exact (hBlock b hMem).comes answer
  rw [pending_call]
  refine (goes_call s name (fixed_option hReceiver answer) (fixed_list hArgs answer)
    hBlocks).mono ?_
  rintro _ ⟨r, ns, b, hr, hns, hb, rfl⟩
  have hEq : b = block := by
    cases block with
    | none =>
      cases hb
      rfl
    | some block =>
      cases hb with
      | some hb =>
        obtain ⟨o, ho, rfl⟩ := hb
        rw [(hBlock block rfl).eq ho]
  rw [option_eq_of_rel hr, list_eq_of_rel hns, hEq]

theorem fixed_send {receiver : Node} {name : Symbol} {args : List Node}
    (hReceiver : receiver.Fixed sc) (hArgs : ∀ n ∈ args, n.Fixed sc) :
    (Node.send s receiver name args).Fixed sc :=
  fixed_call (fun _ h => Option.some.inj h ▸ hReceiver) hArgs nofun

theorem fixed_isA {subject : Node} {type : ConstPath} (h : subject.Fixed sc) :
    (Node.isA s subject type).Fixed sc := by
  refine fixed_of_run fun answer => (goes_isA s type (h.node answer)).mono ?_
  rintro _ ⟨n, rfl, rfl⟩
  rw [source_pending]

theorem fixed_define {kind : DefKind} {name : Symbol} {params : List Symbol} {body : Option Node}
    (h : FixedBranch (Scope.ofParams params) body) :
    (Node.define s kind name (params.map (⟨·, none⟩)) body).Fixed sc := by
  refine fixed_of_run fun answer => ?_
  show ((Node.define s kind name (plainParams params) body).pending answer).run.Goes _ _ _ _
  rw [pending_definePlain]
  refine (goes_definePlain s kind name params
    (fixed_option (fun n hn => (h n hn).1) answer)).mono ?_
  rintro _ ⟨b, hb, rfl⟩
  rw [option_eq_of_rel hb]
  refine congrArg (Node.define s kind name _) ?_
  cases body with
  | none => rfl
  | some n => exact (toOption_eq_some_iff n n).mpr ⟨rfl, (h n rfl).2⟩

/-! ## Sequences -/

/-- Statements as they stand in a normal form: none is a sequence or empty, each is fixed, and
nothing stands behind one that ends. -/
structure FixedStatements (sc : Scope) (ns : List Node) : Prop where
  fixed : ∀ n ∈ ns, n.isStatement = true ∧ n.Fixed sc
  whole : untilEnd ns = ns

theorem goes_outcomes {ns : List Node} (h : ∀ n ∈ ns, n.Fixed sc) (answer : RequireHandler) :
    (outcomes answer ns).Goes .again sc sc fun os => os.map (·.node) = ns := by
  induction ns with
  | nil => exact Norm.goes_pure rfl
  | cons n ns ih =>
    rw [outcomes, List.mapM_cons]
    refine Norm.Goes.bind (h n (.head _) answer) fun o ho => ?_
    refine (ih fun m hm => h m (.tail _ hm)).bind fun os hos => Norm.goes_pure ?_
    rw [List.map_cons, hos, ho, source_pending]

theorem flatMap_statements {ns : List Node} (h : ∀ n ∈ ns, n.isStatement = true) :
    ns.flatMap Node.statements = ns := by
  induction ns with
  | nil => rfl
  | cons n ns ih =>
    rw [List.flatMap_cons, statements_of_isStatement (h n (.head _)),
      ih fun m hm => h m (.tail _ hm)]
    rfl

theorem fixed_seq {stmts : List Node} (h : FixedStatements sc stmts) (hMany : 2 ≤ stmts.length) :
    (Node.seq s stmts).Fixed sc := by
  refine fixed_of_run fun answer => ?_
  rw [run_seq, h.whole]
  refine (goes_outcomes (fun n hn => (h.fixed n hn).2) answer).bind fun os hos =>
    Norm.goes_pure ?_
  have hFlat : os.flatMap (·.node.statements) = stmts := by
    rw [← List.flatMap_map, hos]
    exact flatMap_statements fun n hn => (h.fixed n hn).1
  rw [hFlat]
  match stmts, hMany with
  | _ :: _ :: _, _ => rfl

end Node

end CoreTree

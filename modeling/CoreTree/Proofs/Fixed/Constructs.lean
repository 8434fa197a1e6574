import CoreTree.Proofs.Assignment.Targets
import CoreTree.Proofs.Fixed.Scopes
import CoreTree.Proofs.Nesting.Flattened

/-! # Constructs in an unchanged scope

What each construct of the core comes to, in terms of what its parts come to, if none of them
changes the scope. `R` relates the tree of a part to what comes of it.
-/
namespace CoreTree
set_option autoImplicit false

namespace Pending

open CoreTree.Norm

variable {C : Course} {sc : Scope} {R : Node → Outcome → Prop} {N N' : Node → Node → Prop}

/-- The part keeps the scope, and what comes of it is related to its tree. -/
def Comes (C : Course) (sc : Scope) (R : Node → Outcome → Prop) (p : Pending) : Prop :=
  p.run.Goes C sc sc (R p.source)

def ComesNode (C : Course) (sc : Scope) (N : Node → Node → Prop) (p : Pending) : Prop :=
  p.node.Goes C sc sc (N p.source)

theorem Comes.node {p : Pending} (h : p.Comes C sc R) (hNode : ∀ n o, R n o → N n o.node) :
    p.ComesNode C sc N :=
  h.bind fun _ ho => goes_pure (hNode _ _ ho)

/-! ## Parts in order -/

theorem goes_optionNode {o : Option Pending} (h : ∀ p ∈ o, p.ComesNode C sc N) :
    (optionNode o).Goes C sc sc (Option.Rel N (o.map source)) := by
  cases o with
  | none => exact goes_pure .none
  | some p => exact Goes.bind (h p rfl) fun n hn => goes_pure (.some hn)

theorem goes_nodes {ps : List Pending} (h : ∀ p ∈ ps, p.ComesNode C sc N) :
    (nodes ps).Goes C sc sc (List.Forall₂ N (ps.map source)) := by
  induction ps with
  | nil => exact goes_pure .nil
  | cons p ps ih =>
    refine Goes.bind (h p (.head _)) fun n hn => ?_
    exact (ih fun q hq => h q (.tail _ hq)).bind fun ns hns => goes_pure (.cons hn hns)

/-- A target that is no variable is normalized like any other tree. -/
theorem ComesNode.target {p : Pending} (h : p.ComesNode C sc N) (hVar : p.source.isVar = false) :
    p.target.Goes C sc sc (N p.source) := by
  rw [target_eq_node rfl fun s v hEq => by rw [hEq] at hVar; cases hVar]
  exact h

theorem goes_targets {ps : List Pending} (h : ∀ p ∈ ps, p.ComesNode C sc N)
    (hVars : ∀ p ∈ ps, p.source.isVar = false) :
    (targets ps).Goes C sc sc (List.Forall₂ N (ps.map source)) := by
  induction ps with
  | nil => exact goes_pure .nil
  | cons p ps ih =>
    refine Goes.bind ((h p (.head _)).target (hVars p (.head _))) fun n hn => ?_
    refine (ih (fun q hq => h q (.tail _ hq)) fun q hq => hVars q (.tail _ hq)).bind ?_
    exact fun ns hns => goes_pure (.cons hn hns)

/-- A branch as it is after it ran in the scope and left it as it was. -/
def endOf (sc : Scope) (o : Outcome) : BranchEnd := ⟨o.node.toOption, sc, o.ends⟩

/-- What comes of an optional part. -/
abbrev OptionComes (R : Node → Outcome → Prop) : Option Pending → Option Outcome → Prop :=
  Option.Rel fun p o => R p.source o

theorem goes_runBranch {start : Scope} {part : Option Pending} (h : ∀ p ∈ part, p.Comes C start R) :
    (runBranch start part).Goes C start start fun e =>
      ∃ o, OptionComes R part o ∧ e = o.map (endOf start) := by
  cases part with
  | none => exact goes_pure ⟨none, .none, rfl⟩
  | some p =>
    refine goes_setScope_bind (Goes.bind (h p rfl) fun o ho => ?_)
    exact goes_getScope_bind (goes_pure ⟨some o, .some ho, rfl⟩)

theorem close_of_same (s : Span) (o : Option Outcome) :
    BranchEnd.close s (o.map (endOf sc)) [] = pure (o.bind (·.node.toOption)) := by
  cases o with
  | none => rfl
  | some o =>
    show (if o.ends then _ else _) = _
    split <;> rfl

theorem closeLoop_of_same (s : Span) (o : Option Outcome) :
    BranchEnd.closeLoop s (o.map (endOf sc)) [] = o.bind (·.node.toOption) := by
  cases o with
  | none => rfl
  | some o =>
    show (if o.ends then _ else _) = _
    split <;> rfl

theorem map_scope_endOf (o : Option Outcome) :
    ∀ t ∈ (o.map (endOf sc)).map (·.scope), t = sc := by
  cases o with
  | none => exact nofun
  | some o =>
    rintro _ ⟨⟩
    rfl

/-! ## The core vocabulary -/

theorem goes_cond (s : Span) {test : Pending} {body other : Option Pending}
    (hTest : test.ComesNode C sc N) (hBody : ∀ p ∈ body, p.Comes C sc R)
    (hOther : ∀ p ∈ other, p.Comes C sc R) :
    (cond s .whenTrue test body other).run.Goes C sc sc fun o => ∃ t b e, N test.source t ∧
      OptionComes R body b ∧ OptionComes R other e ∧
      o = ⟨.cond s .whenTrue t (b.bind (·.node.toOption)) (e.bind (·.node.toOption)),
        b.any (·.ends) && e.any (·.ends)⟩ := by
  refine Goes.bind hTest fun t ht => goes_getScope_bind ((goes_runBranch hBody).bind ?_)
  rintro _ ⟨b, hb, rfl⟩
  have hStart : (b.map (endOf sc)).elim sc (fun e => Scope.elseStart sc e.scope) = sc := by
    cases b with
    | none => rfl
    | some b => exact Scope.elseStart_self sc
  dsimp only
  rw [hStart]
  refine (goes_runBranch hOther).bind ?_
  rintro _ ⟨e, he, rfl⟩
  rw [Scope.joinBranches_self sc (map_scope_endOf b) (map_scope_endOf e)]
  refine goes_setScope_bind ?_
  dsimp only
  rw [close_of_same, close_of_same, pure_bind, pure_bind]
  refine goes_pure ⟨t, b, e, ht, hb, he, ?_⟩
  rw [Option.any_map, Option.any_map]
  rfl

theorem goes_loop (s : Span) {test : Pending} {body : Option Pending}
    (hTest : test.ComesNode C sc N) (hBody : ∀ p ∈ body, p.Comes C sc R) :
    (loop s test body).run.Goes C sc sc fun o => ∃ t b, N test.source t ∧ OptionComes R body b ∧
      o = ⟨.loop s t (b.bind (·.node.toOption)), false⟩ := by
  refine goes_getScope_bind (Goes.bind hTest fun t ht => goes_getScope_bind ?_)
  refine (goes_runBranch hBody).bind ?_
  rintro _ ⟨b, hb, rfl⟩
  refine goes_getScope_bind ?_
  dsimp only
  rw [Scope.loopBridges_self, Scope.rewindLoop_self]
  refine goes_setScope_bind (goes_pure ⟨t, b, ht, hb, ?_⟩)
  exact congrArg (fun n => (⟨.loop s t n, false⟩ : Outcome)) (closeLoop_of_same s b)

theorem goes_jump (s : Span) (kind : JumpKind) {value : Option Pending}
    (h : ∀ p ∈ value, p.ComesNode C sc N) : (jump s kind value).run.Goes C sc sc fun o =>
      ∃ v, Option.Rel N (value.map source) v ∧ o = ⟨.jump s kind v, true⟩ :=
  (goes_optionNode h).bind fun v hv => goes_pure ⟨v, hv, rfl⟩

/-- The value of a constant is normalized in a scope of its own. -/
theorem goes_assign_const (s : Span) {target value : Pending} {t : Span} {path : ConstPath}
    (hTarget : target.ComesNode C sc N) (hConst : target.source = .atom t (.const path))
    (hValue : value.ComesNode C .empty N') :
    (assign s target value).run.Goes C sc sc fun o =>
      ∃ n v, N target.source n ∧ N' value.source v ∧ o = ⟨.assign s n v, false⟩ := by
  rw [run_assign_const s value hConst]
  refine (Goes.inScope hValue sc).bind fun v hv => ?_
  refine (hTarget.target (by rw [hConst]; rfl)).bind fun n hn => ?_
  exact goes_pure ⟨n, v, hn, hv, rfl⟩

theorem goes_assign (s : Span) {target value : Pending} (hTarget : target.ComesNode C sc N)
    (hVar : target.source.isVar = false)
    (hConst : ∀ t path, target.source ≠ .atom t (.const path)) (hValue : value.ComesNode C sc N') :
    (assign s target value).run.Goes C sc sc fun o =>
      ∃ n v, N target.source n ∧ N' value.source v ∧ o = ⟨.assign s n v, false⟩ := by
  rw [run_assign s value rfl hConst]
  exact Goes.bind hValue fun v hv => (hTarget.target hVar).bind fun n hn =>
    goes_pure ⟨n, v, hn, hv, rfl⟩

theorem goes_multi (s : Span) {lefts values : List Pending}
    (hLefts : ∀ p ∈ lefts, p.ComesNode C sc N) (hVars : ∀ p ∈ lefts, p.source.isVar = false)
    (hValues : ∀ p ∈ values, p.ComesNode C sc N') :
    (multi s lefts values).run.Goes C sc sc fun o => ∃ ts vs,
      List.Forall₂ N (lefts.map source) ts ∧ List.Forall₂ N' (values.map source) vs ∧
      o = ⟨.multi s ts vs, false⟩ :=
  (goes_nodes hValues).bind fun vs hvs => (goes_targets hLefts hVars).bind fun ts hts =>
    goes_pure ⟨ts, vs, hts, hvs, rfl⟩

theorem goes_runBlock (s : Span) {b : Block Pending}
    (h : ∀ p ∈ b.body, p.Comes C (Scope.bindParams sc b.params).2 R) :
    (runBlock s b).Goes C sc sc fun b' =>
      ∃ o, OptionComes R b.body o ∧ b' = ⟨b.params, o.bind (·.node.toOption)⟩ := by
  refine goes_getScope_bind ?_
  dsimp only
  refine goes_setScope_bind ((goes_runBranch h).bind ?_)
  rintro _ ⟨o, ho, rfl⟩
  refine goes_getScope_bind ?_
  rw [Scope.unbindParams_bindParams, Scope.loopBridges_self, Scope.rewindBlock_self]
  refine goes_setScope_bind ?_
  rw [close_of_same, pure_bind]
  exact goes_pure ⟨o, ho, rfl⟩

/-- What comes of an optional block. -/
abbrev BlockComes (B : Block Pending → Node → Outcome → Prop) :
    Option (Block Pending) → Option (Block Node) → Prop :=
  Option.Rel fun b b' => ∃ o, OptionComes (B b) b.body o ∧
    b' = ⟨b.params, o.bind (·.node.toOption)⟩

theorem goes_call (s : Span) (name : Symbol) {receiver : Option Pending} {args : List Pending}
    {block : Option (Block Pending)} {B : Block Pending → Node → Outcome → Prop}
    (hReceiver : ∀ p ∈ receiver, p.ComesNode C sc N) (hArgs : ∀ p ∈ args, p.ComesNode C sc N)
    (hBlock : ∀ b ∈ block, ∀ p ∈ b.body, p.Comes C (Scope.bindParams sc b.params).2 (B b)) :
    (call s receiver name args block).run.Goes C sc sc fun o => ∃ r ns b,
      Option.Rel N (receiver.map source) r ∧ List.Forall₂ N (args.map source) ns ∧
      BlockComes B block b ∧ o = ⟨.call s r name ns b, false⟩ := by
  have hOption : (optionBlock s block).Goes C sc sc (BlockComes B block) := by
    cases block with
    | none => exact goes_pure .none
    | some b => exact (goes_runBlock s (hBlock b rfl)).bind fun b' hb' => goes_pure (.some hb')
  refine (goes_optionNode hReceiver).bind fun r hr => (goes_nodes hArgs).bind fun ns hns => ?_
  exact hOption.bind fun b hb => goes_pure ⟨r, ns, b, hr, hns, hb, rfl⟩

theorem goes_isA (s : Span) {subject : Pending} (type : ConstPath)
    (h : subject.ComesNode C sc N) : (isA s subject type).run.Goes C sc sc fun o =>
      ∃ n, N subject.source n ∧ o = ⟨.isA s n type, false⟩ :=
  Goes.bind h fun n hn => goes_pure ⟨n, hn, rfl⟩

theorem goes_definePlain (s : Span) (kind : DefKind) (name : Symbol) (params : List Symbol)
    {body : Option Pending} (h : ∀ p ∈ body, p.ComesNode C (Scope.ofParams params) N) :
    (definePlain s kind name params body).run.Goes C sc sc fun o =>
      ∃ b, Option.Rel N (body.map source) b ∧
        o = ⟨.define s kind name (params.map (⟨·, none⟩)) (b.bind Node.toOption), false⟩ :=
  ((goes_optionNode h).inScope sc).bind fun b hb => goes_pure ⟨b, hb, rfl⟩

end Pending

end CoreTree

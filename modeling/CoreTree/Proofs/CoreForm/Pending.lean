import CoreTree.Proofs.CoreForm.Actions

/-! # Constructs that yield core form

Each construct yields core form if its parts do. Sugar is a construct of simpler ones, or calls
around normalized parts.
-/
namespace CoreTree
set_option autoImplicit false

namespace Pending

def OptionYieldsCore (p : Option Pending) : Prop := ∀ q ∈ p, q.YieldsCore

def ListYieldsCore (ps : List Pending) : Prop := ∀ p ∈ ps, p.YieldsCore

theorem optionYieldsCore_some {p : Pending} (h : p.YieldsCore) : OptionYieldsCore (some p) := by
  rintro _ ⟨⟩
  exact h

theorem optionYieldsCore_none : OptionYieldsCore none := by simp [OptionYieldsCore]

/-! ## Parts in order -/

theorem YieldsCore.node {p : Pending} (h : p.YieldsCore) : p.node.Yields Node.AllCore :=
  h.bind fun _ ho => Norm.yields_pure ho

theorem yields_optionNode {p : Option Pending} (h : OptionYieldsCore p) :
    (optionNode p).Yields fun n => ∀ m ∈ n, m.AllCore := by
  cases p with
  | none => exact Norm.yields_pure (by simp)
  | some p => exact (h p rfl).node.bind fun n hn => Norm.yields_pure (by simpa using hn)

theorem yields_nodes {ps : List Pending} (h : ListYieldsCore ps) :
    (nodes ps).Yields fun ns => ∀ n ∈ ns, n.AllCore := by
  induction ps with
  | nil => exact Norm.yields_pure nofun
  | cons p ps ih =>
    apply (h p (.head _)).node.bind
    intro n hn
    refine (ih fun q hq => h q (.tail _ hq)).bind fun ns hns => Norm.yields_pure ?_
    exact List.forall_mem_cons.mpr ⟨hn, hns⟩

theorem YieldsCore.target {p : Pending} (h : p.YieldsCore) : p.target.Yields Node.AllCore := by
  unfold Pending.target
  split
  · exact (Norm.yields_writeVar _).bind fun v _ => Norm.yields_pure (Node.allCore_var v)
  · exact h.node

theorem yields_targets {ps : List Pending} (h : ListYieldsCore ps) :
    (targets ps).Yields fun ns => ∀ n ∈ ns, n.AllCore := by
  induction ps with
  | nil => exact Norm.yields_pure nofun
  | cons p ps ih =>
    apply (h p (.head _)).target.bind
    intro n hn
    refine (ih fun q hq => h q (.tail _ hq)).bind fun ns hns => Norm.yields_pure ?_
    exact List.forall_mem_cons.mpr ⟨hn, hns⟩

theorem yields_statements {ps : List Pending} (h : ListYieldsCore ps) :
    (statements ps).Yields fun r => Flat r.1 := by
  induction ps with
  | nil => exact Norm.yields_pure nofun
  | cons p ps ih =>
    apply Norm.Yields.bind (h p (.head _))
    intro o ho
    split
    · exact Norm.yields_pure (flat_statements ho)
    · apply (ih fun q hq => h q (.tail _ hq)).bind
      intro r hr
      exact Norm.yields_pure ((flat_statements ho).append hr)

theorem yields_runBranch (start : Scope) {p : Option Pending} (h : OptionYieldsCore p) :
    (runBranch start p).Yields BranchEnd.OptionCore := by
  cases p with
  | none => exact Norm.yields_pure (by simp [BranchEnd.OptionCore])
  | some p =>
    refine (Norm.yields_setScope start).bind fun _ _ => Norm.Yields.bind (h p rfl) fun o ho => ?_
    refine Norm.yields_getScope.bind fun scope _ => Norm.yields_pure ?_
    rintro _ ⟨⟩ n hn
    obtain ⟨rfl, _⟩ := (o.node.toOption_eq_some_iff n).mp hn
    exact ho

theorem yields_runBlock (s : Span) {b : Block Pending} (h : OptionYieldsCore b.body) :
    (runBlock s b).Yields fun b' => ∀ n ∈ b'.body, n.AllCore := by
  apply Norm.yields_getScope.bind
  intro before _
  apply (Norm.yields_setScope _).bind
  intro _ _
  apply (yields_runBranch _ h).bind
  intro bodyEnd hBody
  refine Norm.yields_getScope.bind fun now _ => (Norm.yields_setScope _).bind fun _ _ => ?_
  exact (BranchEnd.yields_close s hBody _).bind fun body hBody' => Norm.yields_pure hBody'

/-! ## The core vocabulary -/

theorem yieldsCore_atom (s : Span) (a : Atom) : (atom s a).YieldsCore :=
  Norm.yields_pure (Node.allCore_atom a)

theorem yieldsCore_var (s : Span) (v : Var) : (var s v).YieldsCore :=
  (Norm.yields_useVar s v).bind fun v' _ => Norm.yields_pure (Node.allCore_var v')

theorem yieldsCore_seq (s : Span) {ps : List Pending} (h : ListYieldsCore ps) :
    (seq s ps).YieldsCore :=
  (yields_statements h).bind fun _ hr => Norm.yields_pure (allCore_ofStatements s hr)

theorem yieldsCore_cond (s : Span) (form : CondForm) {test : Pending} {body other : Option Pending}
    (hTest : test.YieldsCore) (hBody : OptionYieldsCore body) (hOther : OptionYieldsCore other) :
    (cond s form test body other).YieldsCore := by
  have hCore : ∀ {onTrue onFalse : Option Pending}, OptionYieldsCore onTrue →
      OptionYieldsCore onFalse → (cond s .whenTrue test onTrue onFalse).YieldsCore := by
    intro onTrue onFalse hTrue hFalse
    apply Norm.Yields.bind hTest.node
    intro test' hTest'
    apply Norm.yields_getScope.bind
    intro before _
    apply (yields_runBranch _ hTrue).bind
    intro thenEnd hThen
    apply (yields_runBranch _ hFalse).bind
    intro elseEnd hElse
    apply (Norm.yields_setScope _).bind
    intro _ _
    apply (BranchEnd.yields_close s hThen _).bind
    intro thenNode hThenNode
    apply (BranchEnd.yields_close s hElse _).bind
    intro elseNode hElseNode
    exact Norm.yields_pure (Node.allCore_cond.mpr ⟨rfl, hTest', hThenNode, hElseNode⟩)
  cases form with
  | whenTrue => exact hCore hBody hOther
  | whenFalse => exact hCore hOther hBody

theorem yieldsCore_loop (s : Span) {test : Pending} {body : Option Pending}
    (hTest : test.YieldsCore) (hBody : OptionYieldsCore body) : (loop s test body).YieldsCore := by
  apply Norm.yields_getScope.bind
  intro beforeTest _
  apply Norm.Yields.bind hTest.node
  intro test' hTest'
  apply Norm.yields_getScope.bind
  intro entry _
  apply (yields_runBranch _ hBody).bind
  intro bodyEnd hEnd
  refine Norm.yields_getScope.bind fun now _ => (Norm.yields_setScope _).bind fun _ _ => ?_
  exact Norm.yields_pure
    (Node.allCore_loop.mpr ⟨hTest', BranchEnd.allCore_closeLoop s hEnd _⟩)

theorem yieldsCore_jump (s : Span) (kind : JumpKind) {value : Option Pending}
    (h : OptionYieldsCore value) : (jump s kind value).YieldsCore :=
  (yields_optionNode h).bind fun _ hn => Norm.yields_pure (Node.allCore_jump.mpr hn)

theorem yieldsCore_assign (s : Span) {target value : Pending} (hTarget : target.YieldsCore)
    (hValue : value.YieldsCore) : (assign s target value).YieldsCore := by
  have hRest : ∀ v : Node, v.AllCore → Norm.Yields
      (do return (⟨.assign s (← target.target) v, false⟩ : Outcome)) fun o => o.node.AllCore :=
    fun v hv => hTarget.target.bind fun t ht =>
      Norm.yields_pure (Node.allCore_assign.mpr ⟨ht, hv⟩)
  unfold YieldsCore assign
  dsimp only
  split
  · exact (hValue.node.inScope .empty).bind hRest
  · exact hValue.node.bind hRest

theorem yieldsCore_multi (s : Span) {lefts values : List Pending} (hLefts : ListYieldsCore lefts)
    (hValues : ListYieldsCore values) : (multi s lefts values).YieldsCore :=
  (yields_nodes hValues).bind fun _ hns => (yields_targets hLefts).bind fun _ hts =>
    Norm.yields_pure (Node.allCore_multi.mpr ⟨hts, hns⟩)

theorem yieldsCore_call (s : Span) {receiver : Option Pending} (name : Symbol)
    {args : List Pending} {block : Option (Block Pending)} (hReceiver : OptionYieldsCore receiver)
    (hArgs : ListYieldsCore args) (hBlock : ∀ b ∈ block, OptionYieldsCore b.body) :
    (call s receiver name args block).YieldsCore := by
  have hOption : (optionBlock s block).Yields fun b => ∀ b' ∈ b, ∀ n ∈ b'.body, n.AllCore := by
    cases block with
    | none => exact Norm.yields_pure (by simp)
    | some b =>
      exact (yields_runBlock s (hBlock b rfl)).bind fun b' hb' =>
        Norm.yields_pure (by simpa using hb')
  apply Norm.Yields.bind (yields_optionNode hReceiver)
  intro receiver' hReceiver'
  refine (yields_nodes hArgs).bind fun args' hArgs' => hOption.bind fun block' hBlock' => ?_
  exact Norm.yields_pure (Node.allCore_call.mpr ⟨hReceiver', hArgs', hBlock'⟩)

theorem yieldsCore_isA (s : Span) {subject : Pending} (h : subject.YieldsCore) (type : ConstPath) :
    (isA s subject type).YieldsCore :=
  h.node.bind fun _ hn => Norm.yields_pure (Node.allCore_isA.mpr hn)

theorem yieldsCore_definePlain (s : Span) (kind : DefKind) (name : Symbol) (params : List Symbol)
    {body : Option Pending} (h : OptionYieldsCore body) :
    (definePlain s kind name params body).YieldsCore := by
  refine Norm.Yields.bind ((yields_optionNode h).inScope _) fun body' hBody => Norm.yields_pure ?_
  refine Node.allCore_define.mpr ⟨by simp, fun n hn => ?_⟩
  obtain ⟨m, hm, hOption⟩ := Option.bind_eq_some_iff.mp hn
  obtain ⟨rfl, _⟩ := (m.toOption_eq_some_iff n).mp hOption
  exact hBody m hm

end Pending

end CoreTree

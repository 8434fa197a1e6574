import CoreTree.Normal.Sugar
import CoreTree.Proofs.Frame.Actions

/-! # Constructs that spare a variable

Each construct spares a variable if its parts do. A block spares its own parameters whatever it
does to them, as far as the scope goes: what they hid is back behind it.
-/
namespace CoreTree
set_option autoImplicit false

variable {files : Loader} {x : Symbol}

namespace Pending

/-- The variable has the same versions before and after, and the result spares it. -/
def Spares (p : Pending) (files : Loader) (x : Symbol) : Prop :=
  p.run.Spares files x fun o => o.node.SparesAll x

def OptionSpares (p : Option Pending) (files : Loader) (x : Symbol) : Prop :=
  ∀ q ∈ p, q.Spares files x

def ListSpares (ps : List Pending) (files : Loader) (x : Symbol) : Prop :=
  ∀ p ∈ ps, p.Spares files x

def TargetSpares (p : Pending) (files : Loader) (x : Symbol) : Prop :=
  p.target.Spares files x fun n => ¬ n.MayBe x ∧ n.SparesAll x

theorem optionSpares_none : OptionSpares none files x := by simp [OptionSpares]

theorem optionSpares_some {p : Pending} (h : p.Spares files x) : OptionSpares (some p) files x := by
  rintro _ ⟨⟩
  exact h

/-! ## Parts in order -/

theorem Spares.node {p : Pending} (h : p.Spares files x) :
    p.node.Spares files x (Node.SparesAll x) :=
  h.bind fun _ ho => Norm.spares_pure ho

theorem spares_optionNode {p : Option Pending} (h : OptionSpares p files x) :
    (optionNode p).Spares files x fun n => ∀ m ∈ n, m.SparesAll x := by
  cases p with
  | none => exact Norm.spares_pure (by simp)
  | some p => exact (h p rfl).node.bind fun n hn => Norm.spares_pure (by simpa using hn)

theorem spares_nodes {ps : List Pending} (h : ListSpares ps files x) :
    (nodes ps).Spares files x fun ns => ∀ n ∈ ns, n.SparesAll x := by
  induction ps with
  | nil => exact Norm.spares_pure nofun
  | cons p ps ih =>
    apply (h p (.head _)).node.bind
    intro n hn
    refine (ih fun q hq => h q (.tail _ hq)).bind fun ns hns => Norm.spares_pure ?_
    exact List.forall_mem_cons.mpr ⟨hn, hns⟩

theorem spares_targets {ps : List Pending} (h : ∀ p ∈ ps, p.TargetSpares files x) :
    (targets ps).Spares files x fun ns => ∀ n ∈ ns, ¬ n.MayBe x ∧ n.SparesAll x := by
  induction ps with
  | nil => exact Norm.spares_pure nofun
  | cons p ps ih =>
    apply Norm.Spares.bind (h p (.head _))
    intro n hn
    refine (ih fun q hq => h q (.tail _ hq)).bind fun ns hns => Norm.spares_pure ?_
    exact List.forall_mem_cons.mpr ⟨hn, hns⟩

theorem targetSpares_var (s : Span) {v : Var} (h : v.name ≠ x) :
    (var s v).TargetSpares files x := by
  refine (Norm.spares_writeVar h).bind fun v' hName => Norm.spares_pure ?_
  have hOther : v'.name ≠ x := hName ▸ h
  exact ⟨hOther, Node.spares_var.mpr fun _ => hOther⟩

theorem targetSpares_atom (s : Span) (a : Atom) : (atom s a).TargetSpares files x :=
  Norm.spares_pure ⟨id, Node.spares_atom a⟩

theorem spares_statements {ps : List Pending} (h : ListSpares ps files x) :
    (statements ps).Spares files x fun r => ∀ n ∈ r.1, n.SparesAll x := by
  induction ps with
  | nil => exact Norm.spares_pure nofun
  | cons p ps ih =>
    apply Norm.Spares.bind (h p (.head _))
    intro o ho
    split
    · exact Norm.spares_pure (sparesAll_statements ho)
    · apply (ih fun q hq => h q (.tail _ hq)).bind
      intro r hr
      exact Norm.spares_pure (List.forall_mem_append.mpr ⟨sparesAll_statements ho, hr⟩)

/-- A branch leads from its start to its end without changing the variable. -/
theorem ensures_runBranch_of_spares (start : Scope) {p : Option Pending}
    (h : OptionSpares p files x) {st : NormalState} (hFiles : st.program.loader = files) :
    (runBranch start p).Ensures st True fun e st' => st'.program.loader = files ∧
      BranchEnd.OptionSpares x e ∧ (∀ b ∈ e, b.scope.get? x = start.get? x) ∧
        st'.scope.get? x = if p.isSome then start.get? x else st.scope.get? x := by
  cases p with
  | none => exact Norm.ensures_pure ⟨hFiles, by simp [BranchEnd.OptionSpares], by simp, rfl⟩
  | some p =>
    apply Norm.ensures_setScope_bind
    apply Norm.Ensures.bind (h p rfl { st with scope := start } hFiles)
    intro o st' hPost
    obtain ⟨hFiles', hScope, ho⟩ := hPost
    apply Norm.ensures_getScope_bind
    refine Norm.ensures_pure ⟨hFiles', ?_, ?_, hScope⟩
    · rintro _ ⟨⟩ n hn
      obtain ⟨rfl, _⟩ := (o.node.toOption_eq_some_iff n).mp hn
      exact ho
    · rintro _ ⟨⟩
      exact hScope

/-! ## The core vocabulary -/

theorem spares_atom (s : Span) (a : Atom) : (atom s a).Spares files x :=
  Norm.spares_pure (Node.spares_atom a)

theorem spares_var (s : Span) {v : Var} (h : v.out = true → v.name ≠ x) :
    (var s v).Spares files x :=
  (Norm.spares_useVar s h).bind fun _ hv => Norm.spares_pure (Node.spares_var.mpr hv)

theorem spares_seq (s : Span) {ps : List Pending} (h : ListSpares ps files x) :
    (seq s ps).Spares files x :=
  (spares_statements h).bind fun _ hr => Norm.spares_pure (sparesAll_ofStatements s hr)

theorem spares_cond (s : Span) (form : CondForm) {test : Pending} {body other : Option Pending}
    (hTest : test.Spares files x) (hBody : OptionSpares body files x)
    (hOther : OptionSpares other files x) : (cond s form test body other).Spares files x := by
  have hSpares : ∀ {onTrue onFalse : Option Pending}, OptionSpares onTrue files x →
      OptionSpares onFalse files x → (cond s .whenTrue test onTrue onFalse).Spares files x := by
    intro onTrue onFalse hTrue hFalse
    refine Norm.Spares.bind hTest.node fun test' hTest' st hFiles => ?_
    apply Norm.ensures_getScope_bind
    apply Norm.Ensures.bind (ensures_runBranch_of_spares st.scope hTrue hFiles)
    intro thenEnd st₁ hThen
    obtain ⟨hFiles₁, hThenNode, hThenScope, -⟩ := hThen
    let elseStart := thenEnd.elim st.scope fun e => Scope.elseStart st.scope e.scope
    have hStart : elseStart.get? x = st.scope.get? x := by
      cases thenEnd with
      | none => rfl
      | some b => exact Scope.get?_elseStart_of_same (hThenScope b rfl)
    apply Norm.Ensures.bind (ensures_runBranch_of_spares elseStart hFalse hFiles₁)
    intro elseEnd st₂ hElse
    obtain ⟨hFiles₂, hElseNode, hElseScope, -⟩ := hElse
    have hThenSame : ∀ t ∈ thenEnd.map (·.scope), t.get? x = st.scope.get? x := by
      simpa using hThenScope
    have hElseSame : ∀ t ∈ elseEnd.map (·.scope), t.get? x = elseStart.get? x := by
      simpa using hElseScope
    obtain ⟨hJoin, hThenBridges, hElseBridges⟩ :=
      Scope.joinBranches_of_same hThenSame hStart hElseSame
    apply Norm.ensures_setScope_bind
    apply Norm.Ensures.bind (BranchEnd.spares_close s hThenNode hThenBridges _ (by exact hFiles₂))
    intro thenNode st₃ hClosed
    obtain ⟨hFiles₃, hScope₃, hThenNode'⟩ := hClosed
    apply Norm.Ensures.bind (BranchEnd.spares_close s hElseNode hElseBridges _ hFiles₃)
    intro elseNode st₄ hClosed
    obtain ⟨hFiles₄, hScope₄, hElseNode'⟩ := hClosed
    refine Norm.ensures_pure ⟨hFiles₄, (hScope₄.trans hScope₃).trans hJoin, ?_⟩
    exact Node.spares_cond.mpr ⟨hTest', hThenNode', hElseNode'⟩
  cases form with
  | whenTrue => exact hSpares hBody hOther
  | whenFalse => exact hSpares hOther hBody

theorem spares_loop (s : Span) {test : Pending} {body : Option Pending}
    (hTest : test.Spares files x) (hBody : OptionSpares body files x) :
    (loop s test body).Spares files x := by
  intro st hFiles
  apply Norm.ensures_getScope_bind
  apply Norm.Ensures.bind (hTest.node st hFiles)
  intro test' st₁ hPost
  obtain ⟨hFiles₁, hScope₁, hTest'⟩ := hPost
  apply Norm.ensures_getScope_bind
  apply Norm.Ensures.bind (ensures_runBranch_of_spares st₁.scope hBody hFiles₁)
  intro bodyEnd st₂ hEnd
  obtain ⟨hFiles₂, hNode, -, hScope₂⟩ := hEnd
  rw [ite_self] at hScope₂
  apply Norm.ensures_getScope_bind
  apply Norm.ensures_setScope_bind
  refine Norm.ensures_pure ⟨hFiles₂, (Scope.get?_rewindLoop_of_same hScope₂).trans hScope₁, ?_⟩
  refine Node.spares_loop.mpr ⟨hTest', BranchEnd.sparesAll_closeLoop s hNode ?_⟩
  intro b hb
  rcases List.mem_append.mp hb with hb | hb
  · exact Scope.name_ne_of_mem_loopBridges_of_same hScope₂ b hb
  · exact Scope.name_ne_of_mem_loopBridges_of_same (hScope₂.trans hScope₁) b
      (List.mem_filter.mp hb).1

theorem spares_jump (s : Span) (kind : JumpKind) {value : Option Pending}
    (h : OptionSpares value files x) : (jump s kind value).Spares files x :=
  (spares_optionNode h).bind fun _ hn => Norm.spares_pure (Node.spares_jump.mpr hn)

theorem spares_assign (s : Span) {target value : Pending} (hTarget : target.TargetSpares files x)
    (hValue : value.Spares files x) : (assign s target value).Spares files x := by
  have hRest : ∀ v : Node, v.SparesAll x → Norm.Spares
      (do return (⟨.assign s (← target.target) v, false⟩ : Outcome)) files x
        fun o => o.node.SparesAll x :=
    fun v hv => Norm.Spares.bind hTarget fun t ht =>
      Norm.spares_pure (Node.spares_assign.mpr ⟨ht.1, ht.2, hv⟩)
  unfold Spares assign
  dsimp only
  split
  · refine Norm.Spares.bind (Norm.spares_inScope fun st hFiles => ?_) hRest
    exact (hValue.node st hFiles).mono id fun _ _ h => ⟨h.1, h.2.2⟩
  · exact hValue.node.bind hRest

theorem spares_multi (s : Span) {lefts values : List Pending}
    (hLefts : ∀ p ∈ lefts, p.TargetSpares files x) (hValues : ListSpares values files x) :
    (multi s lefts values).Spares files x :=
  (spares_nodes hValues).bind fun _ hns => (spares_targets hLefts).bind fun _ hts =>
    Norm.spares_pure (Node.spares_multi.mpr
      ⟨fun t ht => (hts t ht).1, fun t ht => (hts t ht).2, hns⟩)

/-- What the block leaves behind of a variable in the scope: its own parameters count as
spared, for the scope has back what they hid. -/
theorem spares_runBlock (s : Span) {params : List Symbol} {body : Option Pending}
    (h : OptionSpares body files x) :
    (runBlock s ⟨params, body⟩).Spares files x fun b => ∀ n ∈ b.body, n.SparesAll x := by
  intro st hFiles
  apply Norm.ensures_getScope_bind
  apply Norm.ensures_setScope_bind
  apply Norm.Ensures.bind (ensures_runBranch_of_spares _ h (by exact hFiles))
  intro bodyEnd st₁ hEnd
  obtain ⟨hFiles₁, hNode, -, hScope₁⟩ := hEnd
  rw [ite_self] at hScope₁
  apply Norm.ensures_getScope_bind
  have hNow : (Scope.unbindParams st₁.scope (Scope.bindParams st.scope params).1).get? x =
      st.scope.get? x := by
    rw [Scope.get?_unbindParams_bindParams]
    split
    · rfl
    · rename_i hMem
      rw [hScope₁, Scope.get?_bindParams, if_neg hMem]
  apply Norm.ensures_setScope_bind
  apply Norm.Ensures.bind (BranchEnd.spares_close s hNode
    (Scope.name_ne_of_mem_loopBridges_of_same hNow) _ (by exact hFiles₁))
  intro body' st₂ hClosed
  obtain ⟨hFiles₂, hScope₂, hBody'⟩ := hClosed
  exact Norm.ensures_pure
    ⟨hFiles₂, hScope₂.trans (Scope.get?_rewindBlock_of_same hNow), hBody'⟩

theorem spares_call (s : Span) {receiver : Option Pending} (name : Symbol) {args : List Pending}
    {block : Option (Block Pending)} (hReceiver : OptionSpares receiver files x)
    (hArgs : ListSpares args files x) (hBlock : ∀ b ∈ block, OptionSpares b.body files x) :
    (call s receiver name args block).Spares files x := by
  have hOption : (optionBlock s block).Spares files x fun b =>
      ∀ b' ∈ b, ∀ n ∈ b'.body, n.SparesAll x := by
    cases block with
    | none => exact Norm.spares_pure (by simp)
    | some b =>
      refine Norm.Spares.bind (spares_runBlock s (hBlock b rfl)) fun b' hb' => ?_
      exact Norm.spares_pure (by simpa using hb')
  apply Norm.Spares.bind (spares_optionNode hReceiver)
  intro receiver' hReceiver'
  refine (spares_nodes hArgs).bind fun args' hArgs' => hOption.bind fun block' hBlock' => ?_
  exact Norm.spares_pure (Node.spares_call.mpr ⟨hReceiver', hArgs', hBlock'⟩)

theorem spares_isA (s : Span) {subject : Pending} (h : subject.Spares files x)
    (type : ConstPath) : (isA s subject type).Spares files x :=
  h.node.bind fun _ hn => Norm.spares_pure (Node.spares_isA.mpr hn)

/-- The body of a definition may assign anything, for it has a scope of its own. -/
theorem spares_definePlain (s : Span) (kind : DefKind) (name : Symbol) (params : List Symbol)
    (body : Option Pending) (h : (definePlain s kind name params body).run.KeepsLoader) :
    (definePlain s kind name params body).Spares files x := by
  intro st hFiles
  refine h.ensures hFiles (Norm.Ensures.bind (Norm.ensures_inScope _ _ st) fun _ _ hScope => ?_)
  exact Norm.ensures_pure ⟨by rw [hScope], Node.spares_define⟩

end Pending

end CoreTree

import CoreTree.Proofs.Assignment.Steady

/-! # Targets of assignments

A target that is no variable is normalized like any other tree. Only a sequence or a `case` may
come down to a variable then that was read, and look as if the variable was written.
-/
namespace CoreTree
set_option autoImplicit false

def Node.isVar : Node → Bool
  | .var .. => true
  | _ => false

namespace Code

variable {α β : Type}

/-- What the code results in, if it does. -/
def Gives (P : α → Prop) (c : Code α) : Prop :=
  ∀ file st moves a st', Runs file c st moves (.ok a st') → P a

theorem gives_pure {P : α → Prop} {a : α} (h : P a) : (Pure.pure a : Code α).Gives P := by
  intro file st moves b st' hRuns
  obtain ⟨-, rfl, -⟩ := hRuns.of_pure
  exact h

theorem gives_bind {P : β → Prop} {c : Code α} {f : α → Code β} (h : ∀ a, (f a).Gives P) :
    (c >>= f).Gives P := by
  intro file st moves b st' hRuns
  obtain ⟨a, _, _, _, _, hRest, rfl⟩ := hRuns.of_bind
  exact h a _ _ _ _ _ hRest

theorem Gives.bind {P : α → Prop} {Q : β → Prop} {c : Code α} {f : α → Code β} (h : c.Gives P)
    (hNext : ∀ a, P a → (f a).Gives Q) : (c >>= f).Gives Q := by
  intro file st moves b st' hRuns
  obtain ⟨a, _, _, _, hFirst, hRest, rfl⟩ := hRuns.of_bind
  exact hNext a (h _ _ _ _ _ hFirst) _ _ _ _ _ hRest

theorem gives_transform {P : Outcome → Prop} {n : Node} (h : n.code.Gives P) :
    (transform n).Gives P := fun _ _ _ _ _ hRuns => h _ _ _ _ _ hRuns.of_transform

theorem gives_ifElse (s : Span) (test : Node) (onTrue onFalse : Option Node) :
    (ifElse s test onTrue onFalse).Gives fun o => o.node.plainVar? = none := by
  intro file st moves o st' hRuns
  obtain ⟨_, _, _, _, _, _, _, _, _, hRan, rfl⟩ := hRuns.of_ifElse
  obtain ⟨_, _, _, _, _, _, rfl⟩ := hRan.outcome
  rfl

theorem gives_define_plainParams (s : Span) (kind : DefKind) (name : Symbol)
    (params : List Symbol) (body : Option Node) :
    (transform (.define s kind name (Node.plainParams params) body)).Gives fun o =>
      o.node.isDefine = true := by
  refine gives_transform ?_
  show (Code.define ..).Gives _
  rw [Code.define, Node.any_plainParams, if_neg Bool.false_ne_true]
  exact gives_bind fun _ => gives_pure rfl

theorem gives_statements {ns : List Node}
    (h : ∀ n ∈ ns, (transform n).Gives fun o => o.node.isDefine = true) :
    (statements ns).Gives fun r => ∀ n ∈ r.1, n.isDefine = true := by
  induction ns with
  | nil => exact gives_pure nofun
  | cons n ns ih =>
    obtain ⟨hHead, hRest⟩ := List.forall_mem_cons.mp h
    have hStatements : ∀ o : Outcome, o.node.isDefine = true → o.node.statements = [o.node] := by
      rintro ⟨node, ends⟩ hDefine
      cases node <;> first | rfl | cases hDefine
    refine hHead.bind fun o ho => ?_
    rw [hStatements o ho]
    split
    · exact gives_pure (List.forall_mem_singleton.mpr ho)
    · refine (ih hRest).bind fun r hr => gives_pure ?_
      exact List.forall_mem_cons.mpr ⟨ho, hr⟩

theorem forwarders_define (s : Span) (kind : DefKind) (name : Symbol) (given : List Symbol)
    (params : List (Param Node)) : ∀ n ∈ Node.forwarders s kind name given params,
      (transform n).Gives fun o => o.node.isDefine = true := by
  induction params generalizing given with
  | nil => exact nofun
  | cons next params ih =>
    exact List.forall_mem_cons.mpr ⟨gives_define_plainParams _ _ _ _ _, ih _⟩

theorem gives_define (s : Span) (kind : DefKind) (name : Symbol) (params : List (Param Node))
    (body : Option Node) :
    (define s kind name params body).Gives fun o => o.node.plainVar? = none := by
  unfold define
  split
  · refine gives_transform (Gives.bind (gives_statements fun n hn => ?_) fun r hr =>
      gives_pure ?_)
    · obtain hn | hn := List.mem_append.mp hn
      · exact forwarders_define _ _ _ _ _ n hn
      · rw [List.mem_singleton.mp hn]
        exact gives_define_plainParams _ _ _ _ _
    · obtain ⟨_ | ⟨n, _ | ⟨m, ns⟩⟩, ends⟩ := r
      · rfl
      · have hDefine := hr n (.head _)
        show n.plainVar? = none
        cases n <;> first | rfl | cases hDefine
      · rfl
  · exact gives_bind fun _ => gives_pure rfl

end Code

namespace Node

open Code

/-- As the target of an assignment, the tree does not come down to a variable that it only
reads. -/
def IsTarget (n : Node) : Prop :=
  n.isVar = true ∨ (transform n).Gives fun o => o.node.plainVar? = none

/-- What may come down to a variable. -/
def comesDown : Node → Bool
  | .seq .. | .choose .. => true
  | _ => false

theorem isTarget_of_not_comesDown {n : Node} (h : n.comesDown = false) (hOwn : n.IsOwn) :
    n.IsTarget := by
  by_cases hVar : n.isVar = true
  · exact .inl hVar
  refine .inr (gives_transform ?_)
  cases n with
  | var => exact absurd rfl hVar
  | seq | choose => cases h
  | require => exact hOwn.elim
  | cond s form test body other => cases form <;> exact gives_ifElse _ _ _ _
  | logic s op left right =>
    have hMeaning : ∀ t, (transform (.logicAsCond s t op left right)).Gives
        fun o => o.node.plainVar? = none := by
      intro t
      obtain ⟨test, body, other, hCond⟩ : ∃ test body other,
          Node.logicAsCond s t op left right = .cond s .whenTrue test body other := by
        cases op <;> rw [Node.logicAsCond] <;> split <;> exact ⟨_, _, _, rfl⟩
      rw [hCond]
      exact gives_transform (gives_ifElse _ _ _ _)
    show (unfolded _ _).Gives _
    unfold unfolded
    split
    · exact gives_bind hMeaning
    · exact hMeaning _
  | define s kind name params body => exact gives_define s kind name params body
  | atom => exact gives_pure rfl
  | jump | isA | interp | regex => exact gives_bind fun _ => gives_pure rfl
  | multi | range => exact gives_bind fun _ => gives_bind fun _ => gives_pure rfl
  | call => exact gives_bind fun _ => gives_bind fun _ => gives_bind fun _ => gives_pure rfl
  | loop =>
    refine gives_bind fun _ => gives_bind fun _ => gives_bind fun _ => gives_bind fun _ => ?_
    exact gives_bind fun _ => gives_bind fun _ => gives_bind fun _ => gives_pure rfl
  | assign s target value =>
    show (Code.assign s target value).Gives _
    unfold Code.assign
    split <;> exact gives_bind fun _ => gives_bind fun _ => gives_pure rfl
  | array s elements type =>
    refine gives_bind fun _ => gives_bind fun _ => ?_
    split
    · exact gives_pure rfl
    · exact gives_bind fun _ => gives_pure rfl
  | hash s entries types =>
    refine gives_bind fun _ => gives_bind fun _ => ?_
    split
    · exact gives_pure rfl
    · exact gives_bind fun _ => gives_pure rfl

def HasTargets : Node → Prop
  | .assign _ target _ => target.IsTarget
  | .multi _ targets _ => ∀ t ∈ targets, t.IsTarget
  | _ => True

end Node

theorem Node.IsGlue.hasTargets {n : Node} (h : n.IsGlue) : n.HasTargets := by
  cases n with
  | assign s target value =>
    cases target with
    | atom s a => exact isTarget_of_not_comesDown rfl trivial
    | _ => exact h.elim
  | multi => exact h.elim
  | _ => trivial

end CoreTree

import CoreTree.Proofs.Meaning.Fragment
import CoreTree.Proofs.Simulation.Clauses
import CoreTree.Proofs.Simulation.Loops

/-! # Trees that simulate

The pending tree of a tree means what the tree means as it is written. This is proved
constructor by constructor, with the setting as a variable, because the body of a block knows
more variables than the code around it.
-/
namespace CoreTree
set_option autoImplicit false

/-- Where parts may run more than once, variables are bound from the start. -/
def Setting.Admits {V : Type} (C : Setting V) (F : Fragment) : Prop :=
  (F.loops = true → C.again = true) ∧ (F.blocks = true → C.again = true)

variable {V : Type} {C : Setting V} {held : Held V} {F : Fragment}

theorem targetMeans_pending (answer : RequireHandler) {n : Node} (h : n.IsPlace C.names) :
    (n.pending answer).TargetMeans C (n.store Var.name) := by
  unfold Node.IsPlace at h
  split at h
  · rename_i s v
    have hStore : Node.store (V := V) Var.name (.var s v) = Eval.writeLocal v.name := by
      funext x
      exact if_neg (by simp [h.1])
    rw [hStore, Node.pending]
    exact Pending.targetMeans_var h.1
  · rw [Node.pending]
    exact Pending.targetMeans_field _ _
  · exact h.elim

theorem targetMeans_pendingList (answer : RequireHandler) {ns : List Node}
    (h : ∀ n ∈ ns, n.IsPlace C.names) :
    List.Forall₂ (fun p store => p.TargetMeans C store) (pendingList answer ns)
      (ns.map (Node.store Var.name)) := by
  induction ns with
  | nil =>
    rw [pendingList]
    exact .nil
  | cons n ns ih =>
    rw [pendingList]
    exact .cons (targetMeans_pending answer (h n (.head _))) (ih fun n' hn' => h n' (.tail _ hn'))

theorem quiet_named (answer : RequireHandler) {n : Node}
    (h : Pending.isRepeatable (n.pending answer).source = true) :
    Pending.Quiet (n.named C.interp C.rounds) := by
  rw [Node.source_pending] at h
  have hVar : ∀ n : Node, n.plainVar?.isSome = true →
      Pending.Quiet (n.named C.interp C.rounds) := by
    intro n hPlain m
    obtain ⟨v, hv⟩ := Option.isSome_iff_exists.mp hPlain
    obtain ⟨⟨s, rfl⟩, hOut⟩ := (n.plainVar?_eq_some_iff v).mp hv
    refine ⟨m.locals v.name, ?_⟩
    rw [Node.named, Node.meaning, if_neg (by simp [hOut])]
    rfl
  unfold Pending.isRepeatable at h
  split at h
  · rename_i s subject type
    intro m
    obtain ⟨v, hv⟩ := hVar subject h m
    refine ⟨C.interp.isA v type, ?_⟩
    rw [Node.named, Node.meaning]
    exact Eval.on_bind_of_ok hv
  · exact hVar n h

theorem isVariable_eq_isScrutinee (answer : RequireHandler) {X : Set Symbol} {n : Node}
    (h : n.Within F X) : n.isVariable = Pending.isScrutinee (n.pending answer).source := by
  rw [Node.source_pending]
  cases n with
  | atom s a => cases a <;> rfl
  | var s v =>
    rw [Node.Within] at h
    simp [Pending.isScrutinee, Node.plainVar?, Node.isVariable, h.1]
  | _ => rfl

mutual
/-- Normalization preserves what a tree of the fragment means. -/
theorem Node.means_pending (answer : RequireHandler) {C : Setting V}
    {held : Held V} (hAdmits : C.Admits F) :
    ∀ n : Node, n.Within F C.names →
      (n.pending answer).Means C held (n.named C.interp C.rounds)
  | .atom s a, h => by
    rw [Node.Within] at h
    rw [Node.pending, Node.named, Node.meaning]
    exact Pending.means_atom s (by rintro rfl; exact h) (by rintro t rfl; exact h)
  | .var s v, h => by
    rw [Node.Within] at h
    rw [Node.pending, Node.named, Node.meaning, if_neg (by simp [h.1])]
    exact Pending.means_var s h.1 h.2
  | .seq s stmts, h => by
    rw [Node.Within] at h
    rw [Node.pending, Node.named, Node.meaning]
    refine Pending.means_seq s (means_pendingList answer hAdmits stmts h.2) ?_
    intro hNil
    exact h.1 (by rw [← map_source_pendingList answer stmts, hNil]; rfl)
  | .cond s form test body other, h => by
    rw [Node.Within] at h
    obtain ⟨hTest, hBody, hOther⟩ := h
    rw [Node.pending, Node.named, Node.meaning]
    exact Pending.meansIn_cond s form (Node.means_pending answer hAdmits test hTest)
      Pending.leads_true (means_pendingOption answer hAdmits body hBody)
      (means_pendingOption answer hAdmits other hOther)
  | .loop s test body, h => by
    rw [Node.Within] at h
    obtain ⟨hLoops, hTest, hBody⟩ := h
    rw [Node.pending, Node.named, Node.meaning]
    exact Pending.means_loop s (hAdmits.1 hLoops) (Node.means_pending answer hAdmits test hTest)
      (means_pendingOption answer hAdmits body hBody)
  | .choose s subject whens other, h => by
    rw [Node.Within] at h
    obtain ⟨hSubject, hWhens, hOther⟩ := h
    rw [Node.pending, Node.named, Node.meaning, isVariable_eq_isScrutinee answer hSubject]
    exact Pending.meansIn_choose s (Node.means_pending answer hAdmits subject hSubject)
      Pending.leads_true (fun _ _ => Pending.leads_true) (fun _ _ _ => Pending.leads_true)
      (means_pendingWhens answer hAdmits whens hWhens)
      (means_pendingOption answer hAdmits other hOther)
  | .logic s op left right, h => by
    rw [Node.Within] at h
    have hLeft : (left.pending answer).Means C held (left.named C.interp C.rounds) :=
      Node.means_pending answer hAdmits left h.1
    have hRight : (right.pending answer).Means C held (right.named C.interp C.rounds) :=
      Node.means_pending answer hAdmits right h.2
    rw [Node.pending, Node.named, Node.meaning]
    cases op with
    | and => exact Pending.meansIn_and s (quiet_named answer) hLeft Pending.leads_true hRight
    | or => exact Pending.meansIn_or s (quiet_named answer) hLeft Pending.leads_true hRight
  | .jump s kind value, h => by
    rw [Node.Within] at h
    obtain ⟨rfl, hValue⟩ := h
    rw [Node.pending, Node.named, Node.meaning]
    exact Pending.meansIn_jump s (means_pendingOption answer hAdmits value hValue)
      (fun _ => trivial) fun _ _ _ _ _ _ _ _ hAgree => hAgree.world
  | .assign s target value, h => by
    rw [Node.Within] at h
    rw [Node.pending, Node.named, Node.meaning]
    exact Pending.means_assign s (targetMeans_pending answer h.1)
      (Node.means_pending answer hAdmits value h.2)
  | .multi s targets values, h => by
    rw [Node.Within] at h
    obtain ⟨hTargets, _, hValues⟩ := h
    rw [Node.pending, Node.named, Node.meaning]
    exact Pending.means_multi s (targetMeans_pendingList answer hTargets)
      (means_pendingList answer hAdmits values hValues)
  | .call s receiver name args none, h => by
    rw [Node.Within] at h
    rw [Node.pending, Node.named, Node.meaning]
    exact Pending.means_call s name (means_pendingOption answer hAdmits receiver h.1)
      (means_pendingList answer hAdmits args h.2)
  | .call s receiver name args (some ⟨params, body⟩), h => by
    rw [Node.Within] at h
    obtain ⟨hReceiver, hArgs, hBlocks, hParams, hBody⟩ := h
    have hAdmits' : (C.binding params).Admits F := hAdmits
    have hBody' : (C.binding params).OptionMeans held _ _ :=
      means_pendingOption answer hAdmits' body hBody
    rw [Node.pending, Node.named, Node.meaning, List.map_id']
    exact Pending.means_callWithBlock s name (hAdmits.2 hBlocks)
      (means_pendingOption answer hAdmits receiver hReceiver)
      (means_pendingList answer hAdmits args hArgs) hParams hBody'
  | .isA s subject type, h => by
    rw [Node.Within] at h
    rw [Node.pending, Node.named, Node.meaning]
    exact Pending.means_isA s (Node.means_pending answer hAdmits subject h) type
  | .define .., h | .interp .., h | .range .., h | .regex .., h | .array .., h | .hash .., h
  | .require .., h => by
    rw [Node.Within] at h
    exact h.elim

theorem means_pendingOption (answer : RequireHandler) {C : Setting V}
    {held : Held V} (hAdmits : C.Admits F) :
    ∀ n : Option Node, optionWithin F C.names n →
      C.OptionMeans held (pendingOption answer n) (optionMeaning C.interp Var.name C.rounds n)
  | none, _ => by
    rw [pendingOption, optionMeaning]
    exact .none
  | some n, h => by
    rw [optionWithin] at h
    rw [pendingOption, optionMeaning]
    exact .some (Node.means_pending answer hAdmits n h)

theorem means_pendingList (answer : RequireHandler) {C : Setting V}
    {held : Held V} (hAdmits : C.Admits F) :
    ∀ ns : List Node, listWithin F C.names ns →
      C.ListMeans held (pendingList answer ns) (listMeaning C.interp Var.name C.rounds ns)
  | [], _ => by
    rw [pendingList, listMeaning]
    exact .nil
  | n :: ns, h => by
    rw [listWithin] at h
    rw [pendingList, listMeaning]
    exact .cons (Node.means_pending answer hAdmits n h.1) (means_pendingList answer hAdmits ns h.2)

theorem means_pendingWhens (answer : RequireHandler) {C : Setting V}
    {held : Held V} (hAdmits : C.Admits F) :
    ∀ ws : List (When Node), whensWithin F C.names ws →
      List.Forall₂ (Pending.WhenMeansIn .closed (fun _ => True) C held) (pendingWhens answer ws)
        (whensMeaning C.interp Var.name C.rounds ws)
  | [], _ => by
    rw [pendingWhens, whensMeaning]
    exact .nil
  | ⟨patterns, body⟩ :: ws, h => by
    rw [whensWithin] at h
    obtain ⟨hPatterns, hBody, hRest⟩ := h
    rw [pendingWhens, whensMeaning]
    exact .cons ⟨means_pendingList answer hAdmits patterns hPatterns,
      means_pendingOption answer hAdmits body hBody⟩ (means_pendingWhens answer hAdmits ws hRest)
end

end CoreTree

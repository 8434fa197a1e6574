import CoreTree.Proofs.Meaning.Fragment
import CoreTree.Proofs.Meaning.OfNode

/-! # Runs that are never cut off

A tree without loops and blocks runs to its end, whatever the number of rounds is.
-/
namespace CoreTree
set_option autoImplicit false

variable {V α β : Type}

namespace Eval

/-- From no machine is the run cut off. -/
def Total (c : Eval Symbol V α) : Prop := ∀ m, (c.on m).1 ≠ .error .cut

theorem total_pure (a : α) : Total (pure a : Eval Symbol V α) := fun _ => nofun

theorem Total.bind {c : Eval Symbol V α} {f : α → Eval Symbol V β} (h : c.Total)
    (hNext : ∀ a, (f a).Total) : Total (c >>= f) := by
  intro m
  rcases hc : c.on m with ⟨e | a, m'⟩
  · have hExit := h m
    rw [hc] at hExit
    rw [on_bind_of_error hc]
    exact fun hCut => hExit (congrArg Except.error (Except.error.inj hCut))
  · rw [on_bind_of_ok hc]
    exact hNext a m'

theorem total_branch (I : Interp V) {c : Option (Eval Symbol V V)} (h : ∀ d ∈ c, d.Total) :
    (branch I c).Total := by
  cases c with
  | none => exact total_pure _
  | some d => exact h d rfl

theorem total_optional {c : Option (Eval Symbol V V)} (h : ∀ d ∈ c, d.Total) :
    (optional c).Total := by
  cases c with
  | none => exact total_pure _
  | some d => exact (h d rfl).bind fun _ => total_pure _

theorem total_all {cs : List (Eval Symbol V V)} (h : ∀ c ∈ cs, c.Total) : (all cs).Total := by
  induction cs with
  | nil => exact total_pure _
  | cons c cs ih =>
    exact (h c (.head _)).bind fun _ => (ih fun d hd => h d (.tail _ hd)).bind fun _ => total_pure _

theorem total_seq (I : Interp V) {cs : List (Eval Symbol V V)} (h : ∀ c ∈ cs, c.Total) :
    (seq I cs).Total := by
  induction cs with
  | nil => exact total_pure _
  | cons c cs ih =>
    have hRest := ih fun d hd => h d (.tail _ hd)
    cases cs with
    | nil => exact h c (.head _)
    | cons d ds => exact (h c (.head _)).bind fun _ => hRest

theorem total_ite {p : Prop} [Decidable p] {c d : Eval Symbol V α} (hc : c.Total) (hd : d.Total) :
    Total (if p then c else d) := by
  split
  · exact hc
  · exact hd

theorem total_cond (I : Interp V) (form : CondForm) {test : Eval Symbol V V}
    {body other : Option (Eval Symbol V V)} (hTest : test.Total) (hBody : ∀ d ∈ body, d.Total)
    (hOther : ∀ d ∈ other, d.Total) : (cond I form test body other).Total := by
  have hBranches := fun v : V => And.intro
    (total_ite (p := I.truthy v = true) (total_branch I hBody) (total_branch I hOther))
    (total_ite (p := I.truthy v = true) (total_branch I hOther) (total_branch I hBody))
  cases form with
  | whenTrue => exact hTest.bind fun v => (hBranches v).1
  | whenFalse => exact hTest.bind fun v => (hBranches v).2

theorem total_logic (I : Interp V) (op : LogicOp) {left right : Eval Symbol V V}
    (hLeft : left.Total) (hRight : right.Total) : (logic I op left right).Total :=
  hLeft.bind fun _ => total_ite hRight (total_pure _)

theorem total_storeAll (I : Interp V) {stores : List (V → Eval Symbol V Unit)}
    (h : ∀ store ∈ stores, ∀ v, (store v).Total) (vs : List V) : (storeAll I stores vs).Total := by
  induction stores generalizing vs with
  | nil => exact total_pure _
  | cons store stores ih =>
    exact (h store (.head _) _).bind fun _ => ih (fun s hs => h s (.tail _ hs)) vs.tail

theorem total_call (I : Interp V) (rounds : Nat) {receiver : Option (Eval Symbol V V)}
    (name : Symbol) {args : List (Eval Symbol V V)} (hReceiver : ∀ d ∈ receiver, d.Total)
    (hArgs : ∀ c ∈ args, c.Total) : (call I rounds receiver name args none).Total :=
  (total_optional hReceiver).bind fun _ => (total_all hArgs).bind fun _ => fun _ => nofun

theorem total_anyMatch (I : Interp V) (rounds : Nat) {subject : Eval Symbol V V}
    {patterns : List (Eval Symbol V V)} (hSubject : subject.Total)
    (hPatterns : ∀ c ∈ patterns, c.Total) : (anyMatch I rounds subject patterns).Total := by
  induction patterns with
  | nil => exact total_pure _
  | cons p ps ih =>
    refine Total.bind (total_call I rounds _ ?_ ?_) fun _ => total_ite (total_pure _) ?_
    · rintro d ⟨⟩
      exact hPatterns _ (.head _)
    · simpa using hSubject
    · exact ih fun d hd => hPatterns d (.tail _ hd)

theorem total_clauses (I : Interp V) (rounds : Nat) {subject : Eval Symbol V V}
    {whens : List (When (Eval Symbol V V))} {other : Option (Eval Symbol V V)}
    (hSubject : subject.Total)
    (hWhens : ∀ w ∈ whens, (∀ c ∈ w.patterns, c.Total) ∧ ∀ d ∈ w.body, d.Total)
    (hOther : ∀ d ∈ other, d.Total) : (clauses I rounds subject whens other).Total := by
  induction whens with
  | nil => exact total_branch I hOther
  | cons w ws ih =>
    obtain ⟨hPatterns, hBody⟩ := hWhens w (.head _)
    apply (total_anyMatch I rounds hSubject hPatterns).bind
    intro _
    exact total_ite (total_branch I hBody) (ih fun w' hw' => hWhens w' (.tail _ hw'))

theorem total_choose (I : Interp V) (rounds : Nat) (isVariable : Bool) {subject : Eval Symbol V V}
    {whens : List (When (Eval Symbol V V))} {other : Option (Eval Symbol V V)}
    (hSubject : subject.Total)
    (hWhens : ∀ w ∈ whens, (∀ c ∈ w.patterns, c.Total) ∧ ∀ d ∈ w.body, d.Total)
    (hOther : ∀ d ∈ other, d.Total) :
    (choose I rounds isVariable subject whens other).Total :=
  total_ite (total_clauses I rounds hSubject hWhens hOther)
    (hSubject.bind fun _ => total_clauses I rounds (total_pure _) hWhens hOther)

end Eval

theorem total_store {X : Set Symbol} {n : Node} (h : n.IsPlace X) (v : V) :
    (n.store Var.name v).Total := by
  unfold Node.IsPlace at h
  split at h
  · rw [Node.store, if_neg (by simp [h.1])]
    exact fun _ => nofun
  · exact fun _ => nofun
  · exact h.elim

mutual
theorem Node.total_named (I : Interp V) (rounds : Nat) {X : Set Symbol} :
    ∀ n : Node, n.Within .branches X → (n.named I rounds).Total
  | .atom s a, _ => by
    rw [Node.named, Node.meaning]
    cases a <;> exact fun _ => nofun
  | .var s v, h => by
    rw [Node.Within] at h
    rw [Node.named, Node.meaning, if_neg (by simp [h.1])]
    exact fun _ => nofun
  | .seq s stmts, h => by
    rw [Node.Within] at h
    rw [Node.named, Node.meaning]
    exact Eval.total_seq I (total_listMeaning I rounds stmts h.2)
  | .cond s form test body other, h => by
    rw [Node.Within] at h
    obtain ⟨hTest, hBody, hOther⟩ := h
    rw [Node.named, Node.meaning]
    exact Eval.total_cond I form (test.total_named I rounds hTest)
      (total_optionMeaning I rounds body hBody) (total_optionMeaning I rounds other hOther)
  | .loop s test body, h => by
    rw [Node.Within] at h
    cases h.1
  | .choose s subject whens other, h => by
    rw [Node.Within] at h
    obtain ⟨hSubject, hWhens, hOther⟩ := h
    rw [Node.named, Node.meaning]
    exact Eval.total_choose I rounds _ (subject.total_named I rounds hSubject)
      (total_whensMeaning I rounds whens hWhens) (total_optionMeaning I rounds other hOther)
  | .logic s op left right, h => by
    rw [Node.Within] at h
    rw [Node.named, Node.meaning]
    exact Eval.total_logic I op (left.total_named I rounds h.1) (right.total_named I rounds h.2)
  | .jump s kind value, h => by
    rw [Node.Within] at h
    rw [Node.named, Node.meaning]
    exact (Eval.total_branch I (total_optionMeaning I rounds value h.2)).bind fun _ _ => nofun
  | .assign s target value, h => by
    rw [Node.Within] at h
    rw [Node.named, Node.meaning]
    exact (value.total_named I rounds h.2).bind fun v => (total_store h.1 v).bind fun _ =>
      Eval.total_pure v
  | .multi s targets values, h => by
    rw [Node.Within] at h
    obtain ⟨hTargets, _, hValues⟩ := h
    rw [Node.named, Node.meaning]
    refine (Eval.total_all (total_listMeaning I rounds values hValues)).bind fun vs =>
      (Eval.total_storeAll I ?_ vs).bind fun _ => Eval.total_pure _
    intro store hStore v
    obtain ⟨t, ht, rfl⟩ := List.mem_map.mp hStore
    exact total_store (hTargets t ht) v
  | .call s receiver name args none, h => by
    rw [Node.Within] at h
    rw [Node.named, Node.meaning]
    exact Eval.total_call I rounds name (total_optionMeaning I rounds receiver h.1)
      (total_listMeaning I rounds args h.2)
  | .call s receiver name args (some ⟨params, body⟩), h => by
    rw [Node.Within] at h
    cases h.2.2.1
  | .isA s subject type, h => by
    rw [Node.Within] at h
    rw [Node.named, Node.meaning]
    exact (subject.total_named I rounds h).bind fun _ => Eval.total_pure _
  | .define .., h | .interp .., h | .range .., h | .regex .., h | .array .., h | .hash .., h
  | .require .., h => by
    rw [Node.Within] at h
    exact h.elim

theorem total_optionMeaning (I : Interp V) (rounds : Nat) {X : Set Symbol} :
    ∀ n : Option Node, optionWithin .branches X n →
      ∀ d ∈ optionMeaning I Var.name rounds n, d.Total
  | none, _ => nofun
  | some n, h => by
    rw [optionWithin] at h
    rintro d ⟨⟩
    exact n.total_named I rounds h

theorem total_listMeaning (I : Interp V) (rounds : Nat) {X : Set Symbol} :
    ∀ ns : List Node, listWithin .branches X ns → ∀ c ∈ listMeaning I Var.name rounds ns, c.Total
  | [], _ => nofun
  | n :: ns, h => by
    rw [listWithin] at h
    rw [listMeaning]
    intro c hc
    rcases List.mem_cons.mp hc with rfl | hc
    · exact n.total_named I rounds h.1
    · exact total_listMeaning I rounds ns h.2 c hc

theorem total_whensMeaning (I : Interp V) (rounds : Nat) {X : Set Symbol} :
    ∀ ws : List (When Node), whensWithin .branches X ws →
      ∀ w ∈ whensMeaning I Var.name rounds ws,
        (∀ c ∈ w.patterns, c.Total) ∧ ∀ d ∈ w.body, d.Total
  | [], _ => nofun
  | ⟨patterns, body⟩ :: ws, h => by
    rw [whensWithin] at h
    obtain ⟨hPatterns, hBody, hRest⟩ := h
    rw [whensMeaning]
    intro w hw
    rcases List.mem_cons.mp hw with rfl | hw
    · exact ⟨total_listMeaning I rounds patterns hPatterns, total_optionMeaning I rounds body hBody⟩
    · exact total_whensMeaning I rounds ws hRest w hw
end

end CoreTree

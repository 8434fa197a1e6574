import CoreTree.Proofs.Frame.OfNode
import CoreTree.Proofs.Standing.Loops

/-! # Normalized trees see what was written last -/
namespace CoreTree
set_option autoImplicit false

variable {V : Type} {I : Interp V} {rounds : Nat} {answer : RequireHandler}

mutual
/-- Where it is sure of every variable that the tree reads, the normalized tree runs as the tree as
it is written does. -/
theorem Node.sees_pending (hAnswer : ∀ s path, (answer s path).KeepsLoader) :
    ∀ (n : Node) {t t' : Standings}, n.standings t = some t' →
      (n.pending answer).Sees I rounds (n.named I rounds) t t'
  | .atom s a, t, t', h => by
    rw [Node.pending, Node.named, Node.meaning]
    cases a with
    | nop | temp _ => cases h
    | _ =>
      cases h
      exact Pending.sees_atom s (by simp) (by simp)
  | .var s v, t, t', h => by
    rw [Node.standings] at h
    split at h
    · rename_i hRead
      cases h
      rw [Node.pending, Node.named, Node.meaning, if_neg (by simp [hRead.1])]
      exact Pending.sees_var s hRead.1 hRead.2
    · cases h
  | .seq s stmts, t, t', h => by
    rw [Node.standings] at h
    split at h
    · cases h
    · rename_i hNonempty
      rw [Node.pending, Node.named, Node.meaning]
      refine Pending.sees_seq s (allSee_pendingList hAnswer stmts h) fun hNil => hNonempty ?_
      rw [← map_source_pendingList answer stmts, hNil]
      rfl
  | .cond s form test body other, t, t', h => by
    rw [Node.pending, Node.named, Node.meaning]
    cases form with
    | whenTrue =>
      obtain ⟨t₁, hTest, h⟩ := Option.bind_eq_some_iff.mp h
      obtain ⟨t₂, hFirst, h⟩ := Option.bind_eq_some_iff.mp h
      obtain ⟨t₃, hSecond, h⟩ := Option.bind_eq_some_iff.mp h
      cases h
      exact Pending.sees_cond s (Node.sees_pending hAnswer test hTest)
        (optionSees_pendingOption hAnswer body hFirst)
        (optionSees_pendingOption hAnswer other hSecond)
    | whenFalse =>
      obtain ⟨t₁, hTest, h⟩ := Option.bind_eq_some_iff.mp h
      obtain ⟨t₂, hFirst, h⟩ := Option.bind_eq_some_iff.mp h
      obtain ⟨t₃, hSecond, h⟩ := Option.bind_eq_some_iff.mp h
      cases h
      exact Pending.sees_cond s (Node.sees_pending hAnswer test hTest)
        (optionSees_pendingOption hAnswer other hFirst)
        (optionSees_pendingOption hAnswer body hSecond)
  | .loop s test body, t, t', h => by
    obtain ⟨t₁, hTest, h⟩ := Option.bind_eq_some_iff.mp h
    obtain ⟨t₂, hBody, h⟩ := Option.bind_eq_some_iff.mp h
    cases h
    rw [Node.pending, Node.named, Node.meaning]
    refine Pending.sees_loop s (Node.sees_pending hAnswer test hTest)
      (optionSees_pendingOption hAnswer body hBody) (Node.goes_standings test hTest)
      (goes_optionStandings body hBody) fun x hx => ?_
    have hSpares := Node.spares_of_assigns_eq_false test hx
    exact ⟨test.keeps_meaning I (fun _ h => h) rounds hSpares,
      fun _ => Node.spares_pending ⟨hAnswer, nofun⟩ test hSpares⟩
  | .assign s target value, t, t', h => by
    cases target with
    | var span v =>
      rw [Node.standings] at h
      split at h
      · cases h
      · rename_i hOut
        obtain ⟨u, hValue, rfl⟩ := Option.map_eq_some_iff.mp h
        have hStore : Node.store (V := V) Var.name (.var span v) = Eval.writeLocal v.name := by
          funext x
          exact if_neg (by simp [hOut])
        rw [Node.pending, Node.pending, Node.named, Node.meaning, hStore]
        exact Pending.sees_assign s (by simpa using hOut) (Node.sees_pending hAnswer value hValue)
    | _ => cases h
  | .call s receiver name args block, t, t', h => by
    cases block with
    | none =>
      obtain ⟨u, hReceiver, hArgs⟩ := Option.bind_eq_some_iff.mp h
      rw [Node.pending, Node.named, Node.meaning]
      exact Pending.sees_call s name (optionSees_pendingOption hAnswer receiver hReceiver)
        (allSee_pendingList hAnswer args hArgs)
    | some b => cases h
  | .choose .., _, _, h | .logic .., _, _, h | .jump .., _, _, h | .multi .., _, _, h
  | .isA .., _, _, h | .define .., _, _, h | .interp .., _, _, h | .range .., _, _, h
  | .regex .., _, _, h | .array .., _, _, h | .hash .., _, _, h | .require .., _, _, h => by
    cases h

theorem optionSees_pendingOption (hAnswer : ∀ s path, (answer s path).KeepsLoader) :
    ∀ (n : Option Node) {t t' : Standings}, optionStandings n t = some t' →
      Pending.OptionSees I rounds (pendingOption answer n) (optionMeaning I Var.name rounds n) t t'
  | none, t, t', h => by
    cases h
    rw [pendingOption, optionMeaning]
    exact .none t
  | some n, t, t', h => by
    rw [pendingOption, optionMeaning]
    exact .some (Node.sees_pending hAnswer n h)

theorem allSee_pendingList (hAnswer : ∀ s path, (answer s path).KeepsLoader) :
    ∀ (ns : List Node) {t t' : Standings}, listStandings ns t = some t' →
      Pending.AllSee I rounds (pendingList answer ns) (listMeaning I Var.name rounds ns) t t'
  | [], t, t', h => by
    cases h
    rw [pendingList, listMeaning]
    exact .nil t
  | n :: ns, t, t', h => by
    obtain ⟨u, hFirst, hRest⟩ := Option.bind_eq_some_iff.mp h
    rw [pendingList, listMeaning]
    exact .cons (Node.sees_pending hAnswer n hFirst) (allSee_pendingList hAnswer ns hRest)
end

end CoreTree

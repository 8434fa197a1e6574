import CoreTree.Proofs.Simulation.Branches
import CoreTree.Proofs.Standing.Sees

/-! # Branches that see what was written last

Where branches meet, a variable that one of them has assigned goes by one version, and is `nil`
there if the other branch ran. That is what it is in the tree as written, unless it is lost.
-/
namespace CoreTree
set_option autoImplicit false

variable {V : Type} {I : Interp V} {rounds : Nat} {t t' t'' : Standings}

theorem Scope.Meets.mono {X Y : Set Symbol} {s s' : Scope} {bridges : List Bridge}
    (h : s.Meets Y bridges s') (hX : X ⊆ Y) : s.Meets X bridges s' :=
  ⟨fun b hb hx => h.carried b hb (hX hx), fun x hx => h.lands x (hX hx)⟩

theorem Standings.meet_of_bridged {s s' : Scope} {bridges : List Bridge} {m : Machine Symbol V}
    {w : Machine Cell V} (h : (t.setting I rounds).Bridged (fun _ => none) s bridges m w)
    (hLost : ∀ x, t x = .lost → t' x = .lost)
    (hMeets : s.Meets {x | t' x ≠ .lost} bridges s') : t'.Agree I rounds s' m w := by
  obtain ⟨locals, hLocals, hAgree⟩ := h
  exact Setting.Bridged.meet (C := t'.setting I rounds)
    ⟨locals, hLocals, Standings.Agree.weaken hAgree hLost⟩ hMeets

namespace BranchEnd

/-- The branch ran from `start` and goes on to what follows. -/
structure Ran (I : Interp V) (rounds : Nat) (start : Scope) (c : Eval Symbol V V) (t : Standings)
    (e : Option BranchEnd) (t' : Standings) : Prop where
  goes : e.any (·.ends) = false
  onward : start.Onward t (scopeFrom start e) t'
  alike : ∀ m w, t.Agree I rounds start m w →
    Related (fun _ => t'.Agree I rounds (scopeFrom start e)) (c.on m)
      (((t'.setting I rounds).runBranch (e.bind (·.node))).on w)
  last : ∀ span v, (branchStatements (e.bind (·.node))).getLast? = some (.var span v) →
    t' v.name ≠ .lost ∧ v.version = ((scopeFrom start e).reads v.name).getD 0

theorem ensures_runBranch_of_sees {p : Option Pending} {c : Option (Eval Symbol V V)}
    (h : Pending.OptionSees I rounds p c t t') {start : Scope} (st : NormalState)
    (hSound : start.AllSound) (hStands : start.Stands t) :
    (Pending.runBranch start p).Ensures st True fun e st' =>
      Ran I rounds start (.branch I c) t e t' ∧ st'.scope = scopeFrom st.scope e := by
  cases h with
  | none =>
    exact Norm.ensures_pure ⟨⟨rfl, .refl hSound hStands, fun m w hAgree => .value hAgree, nofun⟩,
      rfl⟩
  | some hp =>
    apply Norm.ensures_setScope_bind
    refine Norm.Ensures.bind (hp _ hSound hStands)
      fun o st' ⟨hEnds, hOnward, hSplices, hRun⟩ => ?_
    apply Norm.ensures_getScope_bind
    rw [Node.toOption_of_statements hSplices.nonempty]
    exact Norm.ensures_pure ⟨⟨by simpa using hEnds, hOnward, hRun, hSplices.last rfl⟩, rfl⟩

end BranchEnd

namespace Pending

open BranchEnd

variable {test : Pending} {body other : Option Pending} {c : Eval Symbol V V}
  {k k' : Option (Eval Symbol V V)} {t₁ t₂ t₃ : Standings}

/-- `unless` is `if` with its parts swapped, so this is about both of them. -/
theorem sees_cond (s : Span) (hTest : test.Sees I rounds c t t₁)
    (hFirst : OptionSees I rounds body k t₁ t₂)
    (hSecond : OptionSees I rounds other k' (fun x => (t₁ x).hide (t₂ x)) t₃) :
    (cond s .whenTrue test body other).Sees I rounds (.cond I .whenTrue c k k') t
      fun x => (t₂ x).join (t₃ x) := by
  intro st hSound hStands
  refine Norm.Ensures.bind (hTest.node st hSound hStands) fun test' st₁ ⟨hOnward, hRun⟩ => ?_
  apply Norm.ensures_getScope_bind
  refine Norm.Ensures.bind (ensures_runBranch_of_sees hFirst st₁ hOnward.sound hOnward.stands)
    fun e st₂ ⟨hRan, _⟩ => ?_
  let elseStart := e.elim st₁.scope fun e => Scope.elseStart st₁.scope e.scope
  have hElseStart : elseStart = (e.map (·.scope)).elim st₁.scope (Scope.elseStart st₁.scope) := by
    cases e <;> rfl
  obtain ⟨hStartSound, hStartStands⟩ := Scope.stands_start hOnward.sound hOnward.stands hRan.onward
  rw [← hElseStart] at hStartSound hStartStands
  refine Norm.Ensures.bind (ensures_runBranch_of_sees hSecond st₂ hStartSound hStartStands)
    fun e' st₃ ⟨hRan', _⟩ => ?_
  have hForks : st₁.scope.Forks t₁ (e.map (·.scope)) t₂ elseStart (e'.map (·.scope)) t₃ :=
    ⟨hRan.onward, hElseStart, hRan'.onward⟩
  obtain ⟨-, hMeets, hMeets'⟩ := hForks.ends.meets
  have hJoined : {x | (t₂ x).join (t₃ x) ≠ .lost} ⊆
      {x | (t₂ x ≠ .lost ∧ t₃ x ≠ .lost) ∨ (st₁.scope.reads x).isSome} := fun x hx =>
    .inl ⟨fun h => hx (Standing.join_eq_lost_of_or (.inl h)),
      fun h => hx (Standing.join_eq_lost_of_or (.inr h))⟩
  obtain ⟨hCarried, hCarried'⟩ := Scope.carried_joinBranches st₁.scope (e.map (·.scope)) elseStart
    (e'.map (·.scope))
  apply Norm.ensures_setScope_bind
  refine Norm.Ensures.bind ((ensures_close_of_goes s hRan.goes hRan.alike hRan.last
    (fun b hb _ => hCarried b hb) nofun).mono False.elim fun _ _ h => h)
    fun thenNode st₄ ⟨hScope, _, hThen⟩ => ?_
  have hAlike' : ∀ m w, Standings.Agree (fun x => (t₁ x).hide (t₂ x)) I rounds elseStart m w →
      Related (fun _ => t₃.Agree I rounds ((e'.map (·.scope)).getD st₁.scope))
        ((Eval.branch I k').on m) (((t₃.setting I rounds).runBranch (e'.bind (·.node))).on w) :=
    fun m w hAgree => (hRan'.alike m w hAgree).mono fun _ _ _ h =>
      h.congr_reads fun x _ => (hForks.reads_secondEnd x).symm
  refine Norm.Ensures.bind ((ensures_close_of_goes s hRan'.goes hAlike' (fun span v hLast => ?_)
    (fun b hb _ => hCarried' b hb) nofun).mono False.elim fun _ _ h => h)
    fun elseNode st₅ ⟨hScope', _, hElse⟩ => ?_
  · rw [← hForks.reads_secondEnd]
    exact hRan'.last span v hLast
  refine Norm.ensures_pure ⟨by simp [hRan.goes], ?_, splices_single _ _ _ rfl (by simp), ?_⟩
  · rw [hScope', hScope]
    exact hOnward.trans (hForks.onward_join hOnward.sound hOnward.stands)
  · intro m w hAgree
    have hNode : Node.versioned I rounds (.cond s .whenTrue test' thenNode elseNode) =
        Node.versioned I rounds test' >>= fun v =>
          if I.truthy v then (t.setting I rounds).runBranch thenNode
          else (t.setting I rounds).runBranch elseNode :=
      run_cond (C := t.setting I rounds) s test' thenNode elseNode
    rw [hNode, hScope', hScope]
    refine (hRun m w hAgree).bind fun v m' w' hAgree' => ?_
    split
    · refine (hThen m' w' hAgree').mono fun _ _ _ h => ?_
      exact Standings.meet_of_bridged h (fun x hx => Standing.join_eq_lost_of_or (.inl hx))
        (hMeets.mono hJoined)
    · have hAgree'' : Standings.Agree (fun x => (t₁ x).hide (t₂ x)) I rounds elseStart m' w' :=
        (hAgree'.weaken fun x hx => by rw [hx]; rfl).congr_reads fun x _ => hForks.reads_start x
      refine (hElse m' w' hAgree'').mono fun _ _ _ h => ?_
      exact Standings.meet_of_bridged h (fun x hx => Standing.join_eq_lost_of_or (.inr hx))
        (hMeets'.mono hJoined)

end Pending

end CoreTree

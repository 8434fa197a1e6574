import CoreTree.Proofs.Frame.Pending
import CoreTree.Proofs.Frame.Running
import CoreTree.Proofs.Simulation.Loops
import CoreTree.Proofs.Standing.Branches

/-! # Loops that see what was written last

At the test the machines agree on what the loop does not assign and on what it carries round. A
variable that the test does not know has its value in the version that the end of the body reads,
and nothing but the body touches that.
-/
namespace CoreTree
set_option autoImplicit false

variable {V : Type} {I : Interp V} {rounds : Nat} {t t' t'' : Standings} {a b : Symbol → Bool}
  {s s' s'' : Scope} {m : Machine Symbol V} {w : Machine Cell V}

namespace Scope.Circles

/-- What holds each time the loop tests. -/
structure Invariant (I : Interp V) (rounds : Nat) (a b : Symbol → Bool) (s : Scope) (t : Standings)
    (s'' : Scope) (t'' : Standings) (m : Machine Symbol V) (w : Machine Cell V) : Prop where
  agree : Standings.Agree (fun x => (t x).again (a x || b x)) I rounds s m w
  kept : ∀ x, t x = .new → a x = false → t'' x = .bound →
    w.locals (x, (s''.reads x).getD 0) = m.locals x

theorem invariant_of_agree (hStands : s.Stands t) (h : t.Agree I rounds s m w) :
    Invariant I rounds a b s t s'' t'' m w where
  agree := h.weaken fun x hx => by
    rcases (t x).again_eq (a x || b x) with hEq | hEq
    · exact hEq.trans hx
    · exact hEq
  kept x hx _ _ := by
    obtain ⟨hNamed, hCells⟩ := h.unset x (by simp [Standings.setting, hx])
      (reads_eq_none_of_get? (hStands.new x hx))
    rw [hNamed, hCells]

/-- The bridges at the end of the body lead back to the test. -/
theorem invariant_of_bridged (h : Circles a b s t s' t' s'' t'') (hStands : s.Stands t)
    (hBridged : (t''.setting I rounds).Bridged (fun _ => none) s'' (backBridges s s' s'') m w) :
    Invariant I rounds a b s t s'' t'' m w where
  agree := Standings.meet_of_bridged hBridged (fun x hx => h.eq_lost hx) (h.meets hStands)
  kept x hx hTest hEnd := by
    obtain ⟨locals, hLocals, hAgree⟩ := hBridged
    have hEntry : s.get? x = none := hStands.new x hx
    have hNone : ∀ bridge ∈ backBridges s s' s'', bridge.name ≠ x := fun bridge hMem =>
      name_ne_of_mem_backBridges hMem (reads_eq_none_of_get? hEntry)
        (reads_eq_none_of_get? ((h.spares x hTest).trans hEntry))
    rw [hLocals]
    exact hAgree.value_runBridges (x := x) (by simp [Standings.setting, hEnd])
      fun bridge hMem hName => absurd hName (hNone bridge hMem)

/-- Behind the loop, once its test fails. -/
theorem agree_behind (h : Circles a b s t s' t' s'' t'') (hStands : s.Stands t)
    (hAgree : t'.Agree I rounds s' m w) (hKept : ∀ x, t x = .new → a x = false → t'' x = .bound →
      w.locals (x, (s''.reads x).getD 0) = m.locals x) :
    Standings.Agree (fun x => (t x).leave (a x) (t' x) (t'' x)) I rounds (rewindLoop s' s'')
      m w := by
  have hCases : ∀ x, (t x).leave (a x) (t' x) (t'' x) ≠ .lost →
      (t x = .new ∧ a x = false ∧ t'' x = .bound) ∨ t' x ≠ .lost := by
    intro x hx
    rw [Standing.leave] at hx
    split at hx
    · rename_i hLeaves
      exact .inl hLeaves
    · exact .inr hx
  refine ⟨fun x hx r hr => ?_, fun x hx hr => ?_, hAgree.temps, hAgree.world⟩
  · obtain ⟨hNew, hTest, hEnd⟩ | hSure := hCases x hx
    · rw [reads, h.get?_behind hStands hNew hTest, ← reads] at hr
      have hValue := hKept x hNew hTest hEnd
      rwa [hr] at hValue
    · exact hAgree.reads x hSure r (h.reads_behind hSure ▸ hr)
  · obtain ⟨hNew, hTest, hEnd⟩ | hSure := hCases x hx
    · rw [reads, h.get?_behind hStands hNew hTest, ← reads] at hr
      have hBound := h.body.stands.bound x hEnd
      rw [hr] at hBound
      cases hBound
    · exact hAgree.unset x hSure (h.reads_behind hSure ▸ hr)

end Scope.Circles

namespace Pending

open BranchEnd

variable {test : Pending} {body : Option Pending} {c : Eval Symbol V V}
  {k : Option (Eval Symbol V V)}

theorem sees_loop (span : Span)
    (hTest : test.Sees I rounds c (fun x => (t x).again (a x || b x)) t')
    (hBody : OptionSees I rounds body k t' t'')
    (hGoesTest : Standings.Goes a (fun x => (t x).again (a x || b x)) t')
    (hGoesBody : t'.Goes b t'')
    (hSpares : ∀ x, a x = false → c.Keeps x ∧ ∀ files, test.Spares files x) :
    (loop span test body).Sees I rounds (.loop I c (.branch I k) rounds) t
      fun x => (t x).leave (a x) (t' x) (t'' x) := by
  intro st hSound hStands
  apply Norm.ensures_getScope_bind
  have hHead := hStands.lose fun x => (t x).again_eq (a x || b x)
  refine Norm.Ensures.bind (hTest.node st hSound hHead).run
    fun test' st₁ ⟨hOk, hOnward, hRunTest⟩ => ?_
  apply Norm.ensures_getScope_bind
  refine Norm.Ensures.bind (ensures_runBranch_of_sees hBody st₁ hOnward.sound hOnward.stands)
    fun e st₂ ⟨hRan, hNow⟩ => ?_
  apply Norm.ensures_getScope_bind
  have hSame : ∀ x, a x = false → st₁.scope.get? x = st.scope.get? x ∧ test'.SparesAll x := by
    intro x hx
    obtain ⟨-, hScope, hNode⟩ := (((hSpares x hx).2 st.program.loader).node st rfl).of_ok hOk
    exact ⟨hScope, hNode⟩
  have hCircles : Scope.Circles a b st.scope t st₁.scope t' st₂.scope t'' :=
    ⟨hOnward, hNow ▸ hRan.onward, fun x hx => (hSame x hx).1, hGoesTest, hGoesBody⟩
  apply Norm.ensures_setScope_bind
  refine Norm.ensures_pure ⟨rfl, hCircles.onward hStands, splices_single _ _ _ rfl (by simp),
    fun m w hAgree => ?_⟩
  have hNode : ∀ body', Node.versioned I rounds (.loop span test' body') =
      .loop I (Node.versioned I rounds test') ((t''.setting I rounds).runBranch body') rounds :=
    fun body' => run_loop (C := t''.setting I rounds) span test' body'
  rw [hNode]
  refine Alike.loop (E := .closed)
    (P := Scope.Circles.Invariant I rounds a b st.scope t st₂.scope t'') (fun m w h => ?_)
    (fun _ _ _ hMay => hMay.elim) (fun _ _ _ hMay => hMay.elim) (fun _ _ h => h.agree.world) rounds
    (Scope.Circles.invariant_of_agree hStands hAgree)
  refine (hRunTest m w h.agree).reached.bind fun v m' w' ⟨hAgree', hm, hw⟩ => ?_
  -- the test does not touch what it does not know
  have hKept : ∀ x, t x = .new → a x = false → t'' x = .bound →
      w'.locals (x, (st₂.scope.reads x).getD 0) = m'.locals x := by
    intro x hNew hx hEnd
    have hCell : (Node.versioned I rounds test').Keeps (x, (st₂.scope.reads x).getD 0) :=
      test'.keeps_meaning I (fun v hv => congrArg Prod.fst hv) rounds (hSame x hx).2
    rw [hm, hw, (hSpares x hx).1 m, hCell w]
    exact h.kept x hNew hx hEnd
  split
  · have hHeld : ∀ x, ((fun _ => none : Held V) x).isSome → st₁.program.HasTemp x := by simp
    refine (alike_closeLoop_of_goes span _ hRan.goes hHeld true
      (hRan.alike m' w' hAgree')).mono ?_
    rintro _ m'' w'' ⟨rfl, hBridged⟩
    have hEnd : scopeFrom st₁.scope e = st₂.scope := hNow.symm
    rw [hEnd] at hBridged
    exact hCircles.invariant_of_bridged hStands hBridged
  · exact .value (hCircles.agree_behind hStands hAgree' hKept)

end Pending

end CoreTree

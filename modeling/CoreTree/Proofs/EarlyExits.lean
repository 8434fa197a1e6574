import CoreTree.Proofs.Preservation
import CoreTree.Proofs.Requires.Answers
import CoreTree.Proofs.Simulation.Exits

/-! # What early exits bring out of a loop

The end of the body is bridged, so there the test reads the latest value of every variable. At
`next` and `break` nothing is bridged. A variable survives them if nothing ahead of the exit
assigns it; one that is assigned first does not.
-/
namespace CoreTree
set_option autoImplicit false

variable {V : Type}

/-- One time round a loop, in two runs that nobody outside can tell apart. `top` is the scope of
the test, `behind` the one of what follows the loop; after an early exit fewer variables may hold
their values there. -/
structure SameRound (top behind : Scope) (X atNext atBreak : Set Symbol)
    (a : Except (Exit V) Bool × Machine Symbol V) (b : Except (Exit V) Bool × Machine Cell V) :
    Prop where
  exit : a.1 = b.1
  world : a.2.world = b.2.world
  again : a.1 = .ok true → top.Holds X a.2.locals b.2.locals
  done : a.1 = .ok false → behind.Holds X a.2.locals b.2.locals
  next : ∀ v, a.1 = .error (.jump .next v) → top.Holds atNext a.2.locals b.2.locals
  brk : ∀ v, a.1 = .error (.jump .brk v) → behind.Holds atBreak a.2.locals b.2.locals

theorem Alike.sameRound {E : Escape V} {top behind : Scope} {X atNext atBreak : Set Symbol} {a b}
    (h : Alike E (fun again m w => m.world = w.world ∧
      (if again then top else behind).Holds X m.locals w.locals) a b)
    (hNext : ∀ v m w, E.post (.jump .next v) m w → top.Holds atNext m.locals w.locals)
    (hBreak : ∀ v m w, E.post (.jump .brk v) m w → behind.Holds atBreak m.locals w.locals) :
    SameRound top behind X atNext atBreak a b := by
  cases h with
  | @value again m w h =>
    cases again with
    | true => exact ⟨rfl, h.1, fun _ => h.2, nofun, nofun, nofun⟩
    | false => exact ⟨rfl, h.1, nofun, fun _ => h.2, nofun, nofun⟩
  | @left e m w _ h =>
    refine ⟨rfl, E.world _ _ _ h, nofun, nofun, ?_, ?_⟩
    · rintro v ⟨⟩
      exact hNext v m w h
    · rintro v ⟨⟩
      exact hBreak v m w h

/-- Control is at the test again after `next`, and behind the loop after `break`. What the test has
not assigned is read as before it. -/
theorem Pending.Rounds.sameRound {C : Setting V} {held : Held V} {Y atNext : Set Symbol}
    {test : Pending} {c b : Eval Symbol V V} {s : Span} {st st' : NormalState} {test' : Node}
    {body' : Option Node}
    (h : Rounds (fun entry => C.exits held entry (some Y)) C held test c b st s
      ⟨.loop s test' body', false⟩ st')
    (hY : Y ⊆ C.names) (hNext : atNext ⊆ Y) (hClear : test.Clears (some atNext))
    (hBound : st.scope.Bound C.names) {m : Machine Symbol V} {w : Machine Cell V}
    (hAgree : C.Agree held st.scope m w) :
    SameRound st.scope st'.scope C.names atNext Y ((Eval.pass C.interp c b).on m)
      ((Eval.pass C.interp (C.run test') (C.runBranch body')).on w) := by
  obtain ⟨_, _, st₁, hNode, hOk, hBehind, hPass⟩ := h.pass
  obtain ⟨rfl, rfl⟩ : _ ∧ _ := by simpa using hNode
  have hBound' : st'.scope.Bound C.names := h.advances.scope.bound hBound
  have hReads : st.scope.Reaches (some atNext) st₁.scope := hClear.reaches (fun _ _ => rfl) hOk
  refine Alike.sameRound ((hPass m w hAgree).mono fun again m' w' h => ⟨h.world, h.holds ?_⟩)
    (fun v m' w' hPost => ?_) fun v m' w' hPost => ?_
  · cases again with
    | true => exact hBound
    | false => exact hBound'
  · have hTop := ((hPost.2 nofun).only hNext).congr_reads fun y hy => (hReads y hy).symm
    exact hTop.holds fun y hy => hBound y (hY (hNext hy))
  · have hAfter := (hPost.2 nofun).congr_reads fun y hy => hBehind y (hY hy)
    exact hAfter.holds fun y hy => hBound' y (hY hy)

/-- From locals that agree, one time round keeps them at the end of the body and where the test
fails. At `next` it keeps the variables that neither the test nor what is ahead of the exit
assigns, at `break` those that nothing in the body assigns ahead of it. If that is all of them, the
loop means what it means as it is written. -/
theorem early_exits_keep_unassigned (I : Interp V) (rounds depth : Nat) (file : Option SourcePath)
    {X Y : Set Symbol} (hY : Y ⊆ X) (s : Span) {test : Node} {body : Option Node}
    (hTest : test.Within .withBlocks X)
    (hBody : ∀ n ∈ body, n.ExitsFirst .withBlocks X (some Y)) {st : NormalState}
    (hBound : ∀ x ∈ X, ∃ r write, st.scope.get? x = some ⟨some r, write⟩ ∧ r < write) :
    ∃ test' body' st', ((Node.loop s test body).pending (answerRequire depth file)).run.run st =
        .ok ⟨.loop s test' body', false⟩ st' ∧
      ∀ m w, st.scope.Holds X m.locals w.locals → m.world = w.world →
        SameRound st.scope st'.scope X {y ∈ Y | test.Spares Node.noRequire y} Y
          ((Eval.pass I (test.named I rounds)
            (.branch I (optionMeaning I Var.name rounds body))).on m)
          ((Eval.pass I (test'.versioned I rounds)
            (.branch I (optionMeaning I Var.cell rounds body'))).on w) ∧
        ((∀ x ∈ X, x ∈ Y ∧ test.Spares Node.noRequire x) →
          SameRun (((Node.loop s test body).named I rounds).on m)
            (((Node.loop s test' body').versioned I rounds).on w) (st'.scope.Holds X)) := by
  let C : Setting V := ⟨I, rounds, true, X⟩
  let held : Held V := fun _ => none
  have hAnswer := keepsLoader_answerRequire depth file
  have hAdmits : C.Admits .withBlocks := ⟨fun _ => rfl, fun _ => rfl⟩
  have hReady : C.Ready held st := C.ready_of_bound hBound
  have hTestMeans : (test.pending (answerRequire depth file)).Means C held
      (test.named I rounds) := Node.means_pending _ hAdmits test hTest
  have hLoop := Pending.ensures_loop (E := fun entry => C.exits held entry (some Y)) s rfl
    hTestMeans hReady fun _ st₁ _ hReady₁ => (optionMeansIn_pendingOption fun m hm =>
      Node.meansIn_pending hAnswer hAdmits (hBody m hm) (by simpa using hY) st₁.scope
        (.refl _)).simulatesIn hReady₁ fun _ _ => rfl
  obtain ⟨o, st', hRun, hRounds⟩ := hLoop.exists_ok (C.not_unknown_of_bound hBound)
  obtain ⟨test', body', -, rfl, -⟩ := hRounds.pass
  refine ⟨test', body', st', ?_, fun m w hHolds hWorld => ?_⟩
  · rw [Node.pending]
    exact hRun
  have hAgree : C.Agree held st.scope m w := C.agree_of_holds hHolds hWorld
  constructor
  · have hBodyRun : Eval.branch I (optionMeaning I Var.cell rounds body') = C.runBranch body' :=
      congrArg _ (optionMeaning_eq_map I Var.cell rounds body')
    rw [hBodyRun]
    refine hRounds.sameRound hY (fun _ hy => hy.1) (Node.Clears.pending hAnswer ?_)
      (hReady.bound rfl) hAgree
    rintro _ ⟨⟩ y hy
    exact hy.2
  · intro hAll
    obtain rfl : Y = X := Set.Subset.antisymm hY fun x hx => (hAll x hx).1
    have hClear : test.Clears (some Y) := by
      rintro _ ⟨⟩ y hy
      exact (hAll y hy).2
    have hSame := hRounds.related_of_clears (hClear.pending hAnswer) hAgree
    rw [Node.named, Node.meaning]
    exact (hSame.mono fun _ m' w' hAgree' => ⟨hAgree'.world,
      hAgree'.holds (hRounds.advances.scope.bound (hReady.bound rfl))⟩).sameRun

namespace Sample

/-- `if ask(total) then next end ; if total then break end ; total = flag` -/
def searchingBody : Node := .seq .nowhere [
  .cond .nowhere .whenTrue (ask [readVar total]) (some (.jump .nowhere .next none)) none,
  .cond .nowhere .whenTrue (readVar total) (some (.jump .nowhere .brk none)) none,
  write total (readVar flag)]

def searching : Node := .loop .nowhere (readVar flag) (some searchingBody)

example : ((searching.named interp 5).on (start id)).1 = .ok .nil := rfl

theorem exitsFirst_searchingBody :
    searchingBody.ExitsFirst .withBlocks locals (some locals) := by
  have hExit : ∀ (kind : JumpKind) (test : Node), test.Within .withBlocks locals →
      test.Clears (some locals) →
      (Node.cond .nowhere .whenTrue test (some (.jump .nowhere kind none)) none).ExitsFirst
        .withBlocks locals (some locals) := by
    intro kind test hTest hClear
    refine .cond hTest hClear ?_ nofun
    rintro _ ⟨⟩
    exact .jump trivial nofun
  refine .seq (.clear (hExit _ _ ?_ ?_) ?_ (.clear (hExit _ _ ?_ ?_) ?_
    (.last (.stays (.within ?_))))) <;>
  simp [Node.Clears, ask, readVar, write, Node.Within, optionWithin, listWithin, Node.IsPlace,
    locals]

theorem searching_keeps_locals :
    locals ⊆ locals ∧ (readVar flag).Within .withBlocks locals ∧
    (∀ n ∈ some searchingBody, n.ExitsFirst .withBlocks locals (some locals)) ∧
    (∀ x ∈ locals, ∃ r write,
      (Scope.ofParams [flag, total]).get? x = some ⟨some r, write⟩ ∧ r < write) ∧
    ∃ test' body' st', (searching.pending (answerRequire 0 none)).run.run
        ⟨program, .ofParams [flag, total]⟩ = .ok ⟨.loop .nowhere test' body', false⟩ st' ∧
      SameRun ((searching.named interp 5).on (start id))
        (((Node.loop .nowhere test' body').versioned interp 5).on (start Prod.fst))
        (st'.scope.Holds locals) := by
  have hTest : (readVar flag).Within .withBlocks locals := by
    simp [readVar, Node.Within, locals]
  have hBody : ∀ n ∈ some searchingBody, n.ExitsFirst .withBlocks locals (some locals) := by
    rintro _ ⟨⟩
    exact exitsFirst_searchingBody
  let st : NormalState := ⟨program, .ofParams [flag, total]⟩
  have hBound : ∀ x ∈ locals, ∃ r write, st.scope.get? x = some ⟨some r, write⟩ ∧ r < write :=
    bound_locals
  obtain ⟨test', body', st', hRun, hRounds⟩ := early_exits_keep_unassigned interp 5 0 none
    (subset_refl locals) .nowhere hTest hBody hBound
  refine ⟨subset_rfl, hTest, hBody, bound_locals, test', body', st', hRun, ?_⟩
  refine (hRounds (start id) (start Prod.fst) holds_locals rfl).2 fun x hx => ⟨hx, ?_⟩
  simp [readVar]

/-- `total = flag ; if flag then next end` -/
def skippingBody : Node := .seq .nowhere [
  write total (readVar flag),
  .cond .nowhere .whenTrue (readVar flag) (some (.jump .nowhere .next none)) none]

def skipping : Node := .loop .nowhere (ask [readVar total]) (some skippingBody)

/-- Assigned ahead of `next`, the variable is stale at the test: the new value is in a version that
the test does not read. -/
theorem skipping_loses_total : ∃ test' body' st',
    (skipping.pending (answerRequire 0 none)).run.run ⟨program, .ofParams [flag, total]⟩ =
      .ok ⟨.loop .nowhere test' body', false⟩ st' ∧
    (Scope.ofParams [flag, total]).Holds locals (start id).locals (start Prod.fst).locals ∧
    let a := (Eval.pass interp ((ask [readVar total]).named interp 0)
      (skippingBody.named interp 0)).on (start id)
    let b := (Eval.pass interp (test'.versioned interp 0)
      (.branch interp (optionMeaning interp Var.cell 0 body'))).on (start Prod.fst)
    a.1 = .error (.jump .next .nil) ∧ b.1 = .error (.jump .next .nil) ∧
      ¬ (Scope.ofParams [flag, total]).Holds locals a.2.locals b.2.locals := by
  refine ⟨_, _, _, rfl, holds_locals, rfl, rfl, fun hHolds => ?_⟩
  obtain ⟨r, hReads, hValue⟩ := hHolds total (.inr rfl)
  cases hReads
  cases hValue

end Sample

end CoreTree

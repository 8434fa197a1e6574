import CoreTree.Proofs.Simulation.Assignments
import CoreTree.Proofs.Simulation.Closing

/-! # Branches that simulate

The branches of a conditional start from the same versions, as far as reads go, and each of
them is bridged to the scope where they join. Which temporaries are held when a branch starts
may depend on the value of the test.
-/
namespace CoreTree
set_option autoImplicit false

variable {V : Type} {E : Escape V} {S S' : Scope → Prop} {C : Setting V} {held : Held V}

theorem Node.toOption_of_statements {n : Node} (h : n.statements ≠ []) : n.toOption = some n := by
  rw [toOption, if_neg]
  intro hNop
  obtain ⟨s, rfl⟩ := n.isNop_iff.mp hNop
  exact h rfl

/-- A branch simulates from one state. -/
def Pending.OptionSimulatesIn (E : Escape V) (C : Setting V) (held : Held V) (p : Option Pending)
    (c : Option (Eval Symbol V V)) (st : NormalState) : Prop :=
  Option.Rel (fun q d => q.SimulatesIn E C held d (fun _ => held) st) p c

theorem Setting.OptionMeansIn.simulatesIn {p : Option Pending} {c : Option (Eval Symbol V V)}
    {st : NormalState} (h : C.OptionMeansIn E S held p c) (hReady : C.Ready held st)
    (hStart : S st.scope) : Pending.OptionSimulatesIn E C held p c st := by
  cases h with
  | none => exact .none
  | some hp => exact .some (hp held (.refl _) st hReady hStart)

namespace BranchEnd

def scopeFrom (before : Scope) (e : Option BranchEnd) : Scope := (e.map (·.scope)).getD before

/-- The branch that was normalized runs as `c` does, from where the conditional tests. -/
structure Runs (E : Escape V) (C : Setting V) (held : Held V) (before : Scope)
    (c : Eval Symbol V V) (e : Option BranchEnd) : Prop where
  alike : ∀ m w, C.Agree held before m w →
    Alike E (fun _ m' w' => e.any (·.ends) = false ∧ C.Agree held (scopeFrom before e) m' w')
      (c.on m) ((C.runBranch (e.bind (·.node))).on w)
  last : e.any (·.ends) = false → ∀ span v,
    (branchStatements (e.bind (·.node))).getLast? = some (.var span v) →
      v.name ∈ C.names ∧ v.version = ((scopeFrom before e).reads v.name).getD 0

/-- A branch may start from another scope than the test ended in if both read the same. -/
theorem ensures_runBranch {before start : Scope} {p : Option Pending}
    {c : Option (Eval Symbol V V)} {st : NormalState}
    (h : Pending.OptionSimulatesIn E C held p c { st with scope := start })
    (hReads : ∀ x ∈ C.names, start.reads x = before.reads x) :
    (Pending.runBranch start p).Ensures st (C.Unknown start) fun e st' =>
      start.Follows C.names (scopeFrom start e) ∧
      (∀ t, st.program.HasTemp t → st'.program.HasTemp t) ∧
      st'.scope = scopeFrom st.scope e ∧ Runs E C held before (.branch C.interp c) e := by
  cases h with
  | none =>
    refine Norm.ensures_pure ⟨.refl _ _, fun _ h => h, rfl, fun m w hAgree => ?_, nofun⟩
    exact .value ⟨rfl, hAgree⟩
  | some hp =>
    apply Norm.ensures_setScope_bind
    apply Norm.Ensures.bind hp
    rintro o st' ⟨hAdv, hSplices, hRun⟩
    apply Norm.ensures_getScope_bind
    rw [Node.toOption_of_statements hSplices.nonempty]
    refine Norm.ensures_pure ⟨hAdv.scope, hAdv.temps, rfl, fun m w hAgree => ?_, hSplices.last⟩
    exact hRun m w (hAgree.congr_reads hReads)

theorem exists_of_ends {e : Option BranchEnd} (h : e.any (·.ends) ≠ false) :
    ∃ b, e = some b ∧ b.ends = true := by
  cases e with
  | none => exact absurd rfl h
  | some b => exact ⟨b, rfl, by simpa using h⟩

/-- Temporaries that are held were made before, so bridges leave them alone. -/
theorem bridged_of_carried {p : Program} {s : Scope} {bridges : List Bridge}
    (hHeld : ∀ t, (held t).isSome → p.HasTemp t) {m : Machine Symbol V} {w : Machine Cell V}
    (h : C.Agree held s m w) {temps : Symbol → V}
    (hTemps : ∀ t, p.HasTemp t → temps t = w.temps t) :
    C.Bridged held s bridges m ⟨runBridges C.interp bridges w.locals, temps, w.world⟩ := by
  refine ⟨w.locals, rfl, h.reads, h.unset, fun t x ht => ?_, h.world⟩
  show temps t = x
  rw [hTemps t (hHeld t (by simp [ht])), h.temps t x ht]

section

variable {sc : Scope} {c : Eval Symbol V V} {e : Option BranchEnd} {bridges : List Bridge}

/-- A branch that goes on to what follows, if its value is used. -/
theorem ensures_close_of_goes (s : Span) {A : Machine Symbol V → Machine Cell V → Prop}
    {st : NormalState} (hEnds : e.any (·.ends) = false)
    (hAlike : ∀ m w, A m w → Alike E (fun _ => C.Agree held sc) (c.on m)
      ((C.runBranch (e.bind (·.node))).on w))
    (hLast : ∀ span v, (branchStatements (e.bind (·.node))).getLast? = some (.var span v) →
      v.name ∈ C.names ∧ v.version = (sc.reads v.name).getD 0)
    (hCarried : ∀ b ∈ bridges, b.name ∈ C.names →
      b.source = sc.reads b.name ∧ b.source ≠ some b.target)
    (hHeld : ∀ t, (held t).isSome → st.program.HasTemp t) :
    (close s e bridges).Ensures st False fun n st' =>
      st'.scope = st.scope ∧ (∀ t, st.program.HasTemp t → st'.program.HasTemp t) ∧
      ∀ m w, A m w →
        Alike E (fun _ => C.Bridged held sc bridges) (c.on m) ((C.runBranch n).on w) := by
  have hClose : close s e bridges = appendBridges s (e.bind (·.node)) bridges := by
    cases e with
    | none => rfl
    | some b => exact if_neg (by simpa using hEnds)
  rw [hClose]
  refine (C.ensures_appendBridges s _ bridges st).mono id fun n st' ⟨hScope, hTemps, hRun⟩ =>
    ⟨hScope, hTemps, fun m w hStart => ?_⟩
  have hRelated := hAlike m w hStart
  -- a last variable is the one that the scope reads, and no bridge writes that version
  refine (hRun w fun v w' hw' => ?_).alike hRelated fun v m' w' temps hAgree' hTemps =>
    bridged_of_carried hHeld hAgree' hTemps
  rw [hw'] at hRelated
  obtain ⟨m', hAgree'⟩ := hRelated.exists_of_value
  intro span x hVar
  obtain ⟨hName, hVersion⟩ := hLast span x hVar
  rw [Var.cell, hVersion, hAgree'.value hName]
  exact hAgree'.value_runBridges hName fun b hb hb' => hb' ▸ hCarried b hb (hb' ▸ hName)

/-- A body that goes on to what follows, if its value is not used. -/
theorem alike_closeLoop_of_goes (s : Span) (bridges : List Bridge) {p : Program}
    (hEnds : e.any (·.ends) = false) (hHeld : ∀ t, (held t).isSome → p.HasTemp t) {α : Type}
    (a : α) {m : Machine Symbol V} {w : Machine Cell V}
    (hAlike : Alike E (fun _ => C.Agree held sc) (c.on m)
      ((C.runBranch (e.bind (·.node))).on w)) :
    Alike E (fun a' m' w' => a' = a ∧ C.Bridged held sc bridges m' w')
      ((c >>= fun _ => pure a).on m)
      ((C.runBranch (closeLoop s e bridges) >>= fun _ => pure a).on w) := by
  have hClose : closeLoop s e bridges = appendLoopBridges s (e.bind (·.node)) bridges := by
    cases e with
    | none => rfl
    | some b => exact if_neg (by simpa using hEnds)
  rw [hClose]
  refine (C.carried_appendLoopBridges p s _ bridges a w).alike (hAlike.bind
    fun v m' w' hAgree' => .value (Q := fun a' m' w' => a' = a ∧ C.Agree held sc m' w')
      ⟨rfl, hAgree'⟩) ?_
  intro v m' w' temps ⟨hEq, hAgree'⟩ hTemps
  exact ⟨hEq, bridged_of_carried hHeld hAgree' hTemps⟩

end

/-- A branch whose value is used, once it is bridged. -/
theorem ensures_close (s : Span) {before : Scope} {c : Eval Symbol V V} {e : Option BranchEnd}
    {bridges : List Bridge} {st : NormalState} (h : Runs E C held before c e)
    (hCarried : ∀ b ∈ bridges, b.name ∈ C.names →
      b.source = (scopeFrom before e).reads b.name ∧ b.source ≠ some b.target)
    (hHeld : ∀ t, (held t).isSome → st.program.HasTemp t) :
    (close s e bridges).Ensures st False fun n st' =>
      st'.scope = st.scope ∧ (∀ t, st.program.HasTemp t → st'.program.HasTemp t) ∧
      ∀ m w, C.Agree held before m w →
        Alike E (fun _ m' w' => e.any (·.ends) = false ∧
          C.Bridged held (scopeFrom before e) bridges m' w') (c.on m) ((C.runBranch n).on w) := by
  by_cases hEnds : e.any (·.ends) = false
  · refine (ensures_close_of_goes s hEnds (fun m w hAgree => (h.alike m w hAgree).mono
      fun _ _ _ h => h.2) (h.last hEnds) hCarried hHeld).mono id fun n st' hClose => ?_
    obtain ⟨hScope, hTemps, hRun⟩ := hClose
    exact ⟨hScope, hTemps, fun m w hAgree => (hRun m w hAgree).mono fun _ _ _ h => ⟨hEnds, h⟩⟩
  · -- a branch that ends is not bridged, and nothing that it does is seen behind it
    obtain ⟨b, rfl, hb⟩ := exists_of_ends hEnds
    have hClose : close s (some b) bridges = pure b.node := if_pos hb
    rw [hClose]
    refine Norm.ensures_pure ⟨rfl, fun _ h => h, fun m w hAgree => ?_⟩
    exact (h.alike m w hAgree).mono fun _ _ _ ⟨hGoes, _⟩ => absurd hGoes hEnds

/-- A body whose value is not used, once it is bridged. -/
theorem alike_closeLoop (s : Span) {before : Scope} {c : Eval Symbol V V}
    {e : Option BranchEnd} (bridges : List Bridge) {p : Program} (h : Runs E C held before c e)
    (hHeld : ∀ t, (held t).isSome → p.HasTemp t) {α : Type} (a : α) {m : Machine Symbol V}
    {w : Machine Cell V} (hAgree : C.Agree held before m w) :
    Alike E (fun a' m' w' => a' = a ∧ C.Bridged held (scopeFrom before e) bridges m' w')
      ((c >>= fun _ => pure a).on m)
      ((C.runBranch (closeLoop s e bridges) >>= fun _ => pure a).on w) := by
  have hRelated := h.alike m w hAgree
  by_cases hEnds : e.any (·.ends) = false
  · exact alike_closeLoop_of_goes s bridges hEnds hHeld a (hRelated.mono fun _ _ _ h => h.2)
  · obtain ⟨b, rfl, hb⟩ := exists_of_ends hEnds
    have hClose : closeLoop s (some b) bridges = b.node := if_pos hb
    rw [hClose]
    exact hRelated.bind fun v m' w' ⟨hGoes, _⟩ => absurd hGoes hEnds

/-! ## Both branches -/

/-- Both branches run from the same place. What is held there may depend on the test's value. -/
structure BothRun (E : Escape V) (C : Setting V) (after : V → Held V) (before : Scope)
    (k k' : V → Option (Eval Symbol V V)) (thenEnd : Option BranchEnd) (elseStart : Scope)
    (elseEnd : Option BranchEnd) : Prop where
  ends : Scope.BranchEnds C.names before (thenEnd.map (·.scope)) elseStart
    (elseEnd.map (·.scope))
  onTrue : ∀ v, Runs E C (after v) before (.branch C.interp (k v)) thenEnd
  onFalse : ∀ v, Runs E C (after v) before (.branch C.interp (k' v)) elseEnd

variable {body other : Option Pending} {k k' : V → Option (Eval Symbol V V)}
  {after : V → Held V} {st : NormalState}

theorem ensures_runBoth (hReady : ∀ v, C.Ready (after v) st)
    (hTrue : ∀ v, Pending.OptionSimulatesIn E C (after v) body (k v) st)
    (hFalse : ∀ v st', C.Ready (after v) st' →
      (∀ x ∈ C.names, st'.scope.reads x = st.scope.reads x) →
      Pending.OptionSimulatesIn E C (after v) other (k' v) st') :
    (Pending.runBranch st.scope body).Ensures st (C.Unknown st.scope) fun thenEnd st' =>
      let elseStart := thenEnd.elim st.scope fun e => Scope.elseStart st.scope e.scope
      (Pending.runBranch elseStart other).Ensures st' (C.Unknown st.scope) fun elseEnd st'' =>
        (∀ t, st.program.HasTemp t → st''.program.HasTemp t) ∧
          BothRun E C after st.scope k k' thenEnd elseStart elseEnd := by
  have : Nonempty V := ⟨C.interp.nil⟩
  -- a branch is normalized once, and simulates whatever value the test gives
  apply (Norm.Ensures.all fun v => ensures_runBranch (hTrue v) fun _ _ => rfl).mono id
  intro thenEnd st' hThen
  obtain ⟨hThenFollows, hThenTemps, -, -⟩ := hThen C.interp.nil
  intro elseStart
  have hStart : Scope.BranchEnds C.names st.scope (thenEnd.map (·.scope)) elseStart none :=
    ⟨hThenFollows, by cases thenEnd <;> rfl, nofun⟩
  have hReads : ∀ x ∈ C.names, elseStart.reads x = st.scope.reads x :=
    fun x hx => hStart.reads_elseStart hx
  have hReady' : ∀ v, C.Ready (after v) { st' with scope := elseStart } := fun v =>
    { sound := hStart.sound_elseStart (hReady v).sound
      bound := fun hAgain x hx => by
        rw [hReads x hx]
        exact (hReady v).bound hAgain x hx
      held := fun t ht => hThenTemps t ((hReady v).held t ht) }
  have hUnknown : C.Unknown elseStart → C.Unknown st.scope := by
    rintro ⟨x, hx, hNone⟩
    exact ⟨x, hx, hStart.eq_none_of_elseStart hx hNone⟩
  apply (Norm.Ensures.all fun v => ensures_runBranch
    (hFalse v { st' with scope := elseStart } (hReady' v) hReads) hReads).mono hUnknown
  intro elseEnd st'' hElse
  obtain ⟨hElseFollows, hElseTemps, -, -⟩ := hElse C.interp.nil
  refine ⟨fun t ht => hElseTemps t (hThenTemps t ht), ?_, fun v => (hThen v).2.2.2,
    fun v => (hElse v).2.2.2⟩
  refine ⟨hStart.thenFollows, hStart.elseStarts, fun sc hsc => ?_⟩
  obtain ⟨b, rfl, rfl⟩ := Option.map_eq_some_iff.mp hsc
  exact hElseFollows

/-- Whichever branch ran, the agreement arrives in the joined scope. -/
theorem ensures_closeBoth (s : Span) {before elseStart : Scope} {thenEnd elseEnd : Option BranchEnd}
    (h : BothRun E C after before k k' thenEnd elseStart elseEnd)
    (hHeld : ∀ v t, (after v t).isSome → st.program.HasTemp t) :
    let join := Scope.joinBranches before (thenEnd.map (·.scope)) elseStart
      (elseEnd.map (·.scope))
    (close s thenEnd join.thenBridges).Ensures st False fun thenNode st' =>
      (close s elseEnd join.elseBridges).Ensures st' False fun elseNode st'' =>
        st''.scope = st.scope ∧ (∀ t, st.program.HasTemp t → st''.program.HasTemp t) ∧
        ∀ v m w, C.Agree (after v) before m w →
          Alike E (fun _ m' w' => thenEnd.any (·.ends) = false ∧
              C.Agree (after v) join.scope m' w')
            ((Eval.branch C.interp (k v)).on m) ((C.runBranch thenNode).on w) ∧
          Alike E (fun _ m' w' => elseEnd.any (·.ends) = false ∧
              C.Agree (after v) join.scope m' w')
            ((Eval.branch C.interp (k' v)).on m) ((C.runBranch elseNode).on w) := by
  have : Nonempty V := ⟨C.interp.nil⟩
  intro join
  obtain ⟨_, hThenMeets, hElseMeets⟩ := h.ends.meets
  apply (Norm.Ensures.all fun v =>
    ensures_close s (h.onTrue v) hThenMeets.carried (hHeld v)).mono id
  intro thenNode st' hThen
  obtain ⟨hScope, hTemps, -⟩ := hThen C.interp.nil
  apply (Norm.Ensures.all fun v => ensures_close s (h.onFalse v) hElseMeets.carried
    fun t ht => hTemps t (hHeld v t ht)).mono id
  intro elseNode st'' hElse
  obtain ⟨hScope', hTemps', -⟩ := hElse C.interp.nil
  refine ⟨hScope'.trans hScope, fun t ht => hTemps' t (hTemps t ht), fun v m w hAgree => ?_⟩
  constructor
  · exact ((hThen v).2.2 m w hAgree).mono fun _ _ _ h => ⟨h.1, h.2.meet hThenMeets⟩
  · exact ((hElse v).2.2 m w hAgree).mono fun _ _ _ h => ⟨h.1, h.2.meet hElseMeets⟩

end BranchEnd

namespace Pending

open BranchEnd

theorem run_cond (s : Span) (test : Node) (body other : Option Node) :
    C.run (.cond s .whenTrue test body other) = C.run test >>= fun v =>
      if C.interp.truthy v then C.runBranch body else C.runBranch other := by
  rw [Setting.run, Node.versioned, Node.meaning, optionMeaning_eq_map, optionMeaning_eq_map]
  rfl

/-- Both branches start from what the test leaves behind, and after them the temporaries that
were held before the test are held again. -/
theorem simulatesIn_cond {s : Span} {test : Pending} {body other : Option Pending}
    {c : Eval Symbol V V} {k k' : V → Option (Eval Symbol V V)} {after : V → Held V}
    {st : NormalState} (hReady : C.Ready held st) (hStart : S st.scope)
    (hHeld : ∀ v t, (after v t).isSome → st.program.HasTemp t)
    (hAfter : ∀ v, held.Extends (after v)) (hTest : test.SimulatesIn E C held c after st)
    (hLeads : test.Leads C S S')
    (hTrue : ∀ v, C.OptionMeansIn E S' (after v) body (k v))
    (hFalse : ∀ v, C.OptionMeansIn E S' (after v) other (k' v)) :
    (cond s .whenTrue test body other).SimulatesIn E C held (c >>= fun v =>
      if C.interp.truthy v then .branch C.interp (k v) else .branch C.interp (k' v))
      (fun _ => held) st := by
  apply Norm.Ensures.bind hTest.node.run
  rintro test' st₁ ⟨hOk, hAdv, hRun⟩
  apply Norm.ensures_getScope_bind
  have hReady₁ : ∀ v, C.Ready (after v) st₁ := fun v =>
    { hReady.advance hAdv with held := fun t ht => hAdv.temps t (hHeld v t ht) }
  have hUnknown : C.Unknown st₁.scope → C.Unknown st.scope := (·.retreat hAdv.scope)
  have hBranches := ensures_runBoth hReady₁
    (fun v => (hTrue v).simulatesIn (hReady₁ v) (hLeads st _ st₁ hStart hOk _ fun _ _ => rfl))
    (fun v st' hReady' hReads =>
      (hFalse v).simulatesIn hReady' (hLeads st _ st₁ hStart hOk _ hReads))
  apply Norm.Ensures.bind (hBranches.mono hUnknown fun _ _ h => h)
  intro thenEnd st₂ hElse
  apply Norm.Ensures.bind (hElse.mono hUnknown fun _ _ h => h)
  intro elseEnd st₃ hBoth
  obtain ⟨hTemps₃, hBoth⟩ := hBoth
  let elseStart := thenEnd.elim st₁.scope fun e => Scope.elseStart st₁.scope e.scope
  let join := Scope.joinBranches st₁.scope (thenEnd.map (·.scope)) elseStart
    (elseEnd.map (·.scope))
  apply Norm.ensures_setScope_bind
  have hHeld₃ : ∀ v t, (after v t).isSome →
      ({ st₃ with scope := join.scope } : NormalState).program.HasTemp t :=
    fun v t ht => hTemps₃ t ((hReady₁ v).held t ht)
  have hClose := ensures_closeBoth s hBoth hHeld₃
  apply Norm.Ensures.bind (hClose.mono False.elim fun _ _ h => h)
  intro thenNode st₄ hClose
  apply Norm.Ensures.bind (hClose.mono False.elim fun _ _ h => h)
  intro elseNode st₅ hNodes
  obtain ⟨hScope, hTemps₅, hRuns⟩ := hNodes
  refine Norm.ensures_pure ⟨⟨?_, ?_⟩, splices_single _ _ _ rfl nofun, fun m w hAgree => ?_⟩
  · rw [hScope]
    exact hAdv.scope.trans hBoth.ends.meets.1
  · exact fun t ht => hTemps₅ t (hTemps₃ t (hAdv.temps t ht))
  · rw [run_cond, hScope]
    apply (hRun m w hAgree).bind
    intro v m' w' hAgree'
    obtain ⟨hThenRuns, hElseRuns⟩ := hRuns v m' w' hAgree'
    split
    · exact hThenRuns.mono fun _ _ _ h => ⟨by simp [h.1], h.2.weaken (hAfter v)⟩
    · exact hElseRuns.mono fun _ _ _ h => ⟨by simp [h.1], h.2.weaken (hAfter v)⟩

end Pending

end CoreTree

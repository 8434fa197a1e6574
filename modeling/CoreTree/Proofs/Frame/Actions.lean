import CoreTree.Proofs.Frame.Spares
import CoreTree.Proofs.Normal.Ensures
import CoreTree.Proofs.Requires.Answers
import CoreTree.Proofs.Versions.Joining

/-! # Actions that spare a variable

An action spares a variable if it leaves the variable's versions as they are. What it does may
depend on the files that there are to load, and it leaves those as they are, too. Where paths
meet, a variable whose versions did not change is not bridged: joins, loops and blocks look at
one variable at a time.
-/
namespace CoreTree
set_option autoImplicit false

variable {α β : Type} {files : Loader} {x : Symbol}

/-- With these files to load, the variable has the same versions after the action, the files are
the same, and `Q` holds of what it gives. -/
def Norm.Spares (act : Norm α) (files : Loader) (x : Symbol) (Q : α → Prop) : Prop :=
  ∀ st, st.program.loader = files → act.Ensures st True fun a st' =>
    st'.program.loader = files ∧ st'.scope.get? x = st.scope.get? x ∧ Q a

namespace Norm

variable {act : Norm α} {P : α → Prop} {Q : β → Prop}

theorem spares_pure {a : α} (h : P a) : (pure a : Norm α).Spares files x P :=
  fun _ hFiles => ensures_pure ⟨hFiles, rfl, h⟩

theorem Spares.bind {f : α → Norm β} (h : act.Spares files x P)
    (hNext : ∀ a, P a → (f a).Spares files x Q) : (act >>= f).Spares files x Q :=
  fun st hFiles => Ensures.bind (h st hFiles) fun a st' ⟨hFiles', hScope, ha⟩ =>
    (hNext a ha st' hFiles').mono id fun _ _ ⟨hFiles'', hScope', hb⟩ =>
      ⟨hFiles'', hScope'.trans hScope, hb⟩

/-- Whatever is done in another scope, the versions of this one stay. -/
theorem spares_inScope {scope : Scope} (h : ∀ st, st.program.loader = files →
      act.Ensures st True fun a st' => st'.program.loader = files ∧ P a) :
    (inScope scope act).Spares files x P := fun _ hFiles =>
  ensures_getScope_bind <| ensures_setScope_bind <| Ensures.bind (h _ hFiles) fun _ _ ha =>
    ensures_setScope_bind (ensures_pure ⟨ha.1, rfl, ha.2⟩)

theorem KeepsLoader.ensures {st : NormalState} {R : α → NormalState → Prop}
    (hKeeps : act.KeepsLoader) (hFiles : st.program.loader = files)
    (h : act.Ensures st True R) :
    act.Ensures st True fun a st' => st'.program.loader = files ∧ R a st' := by
  have hAct := hKeeps st
  unfold Ensures at h ⊢
  split <;> rename_i hRun
  · rw [hRun] at hAct h
    exact ⟨Eq.trans hAct hFiles, h⟩
  · trivial

theorem ensures_inScope (scope : Scope) (act : Norm α) (st : NormalState) :
    (inScope scope act).Ensures st True fun _ st' => st'.scope = st.scope := by
  unfold Ensures
  rw [run_inScope]
  cases act.run { st with scope } <;> trivial

theorem spares_onProgram {f : Program → α × Program} (h : ∀ p : Program, p.Allocates (f p).2) :
    (onProgram f).Spares files x fun _ => True :=
  fun st hFiles => ensures_onProgram ⟨(h st.program).loader.trans hFiles, rfl, trivial⟩

theorem spares_freshTemp : freshTemp.Spares files x fun _ => True :=
  spares_onProgram Program.allocates_freshTemp

theorem spares_writeVar {v : Var} (h : v.name ≠ x) :
    (writeVar v).Spares files x fun v' => v'.name = v.name := by
  intro st hFiles
  refine ⟨hFiles, ?_, rfl⟩
  show (st.scope.write v.name).2.get? x = _
  rw [Scope.get?_write, if_neg (Ne.symm h)]

theorem spares_useVar (s : Span) {v : Var} (h : v.out = true → v.name ≠ x) :
    (useVar s v).Spares files x fun v' => v'.out = true → v'.name ≠ x := by
  unfold useVar
  split
  · rename_i hOut
    intro st hFiles
    refine (spares_writeVar (h hOut) st hFiles).mono id fun v' _ ⟨hFiles', hScope, hName⟩ => ?_
    exact ⟨hFiles', hScope, fun _ => hName ▸ h hOut⟩
  · rename_i hOut
    intro st hFiles
    apply ensures_getScope_bind
    split
    · exact ensures_pure ⟨hFiles, rfl, fun h' => absurd h' hOut⟩
    · trivial

end Norm

/-! ## Where paths meet -/

namespace Scope

variable {entry now : Scope}

theorem name_ne_of_mem_loopBridges_of_same (h : now.get? x = entry.get? x) :
    ∀ b ∈ loopBridges entry now, b.name ≠ x := by
  rintro b hb rfl
  obtain ⟨target, source, hEntry, hNow, hLt, -⟩ := mem_loopBridges_iff.mp hb
  rw [reads, h, ← reads, hEntry] at hNow
  cases hNow
  exact lt_irrefl _ hLt

theorem get?_rewindLoop_of_same (h : now.get? x = entry.get? x) :
    (rewindLoop entry now).get? x = entry.get? x := by
  rw [rewindLoop, SymbolMap.get?_map, h]
  cases entry.get? x <;> rfl

theorem get?_rewindBlock_of_same (h : now.get? x = entry.get? x) :
    (rewindBlock now (loopBridges entry now)).get? x = entry.get? x := by
  have hFind : (loopBridges entry now).find? (·.name == x) = none := by
    rw [List.find?_eq_none]
    intro b hb
    simpa using name_ne_of_mem_loopBridges_of_same h b hb
  rw [rewindBlock, SymbolMap.get?_map, hFind, h]
  cases entry.get? x <;> rfl

theorem joinOf_of_same {before elseStart : Scope} {thenEnd elseEnd : Option Scope}
    (hThen : ∀ t ∈ thenEnd, t.get? x = before.get? x)
    (hElse : ∀ t ∈ elseEnd, t.get? x = elseStart.get? x) :
    BranchEnds.joinOf before thenEnd elseStart elseEnd x = {} := by
  have hThen' : thenEnd.elim (before.get? x) (·.get? x) = before.get? x := by
    cases thenEnd with
    | none => rfl
    | some t => exact hThen t rfl
  have hElse' : ∀ start, (elseEnd.isSome → start = elseStart.get? x) →
      elseEnd.elim start (·.get? x) = start := by
    intro start hStart
    cases elseEnd with
    | none => rfl
    | some t => exact (hElse t rfl).trans (hStart rfl).symm
  unfold BranchEnds.joinOf
  dsimp only
  rw [hThen', hElse' _ fun h => if_pos h]
  unfold VariableJoin.of
  rw [if_pos rfl]
  split
  · exact if_pos rfl
  · rfl

/-- A variable that neither branch changed keeps its versions, and no bridge concerns it. -/
theorem joinBranches_of_same {before elseStart : Scope} {thenEnd elseEnd : Option Scope}
    (hThen : ∀ t ∈ thenEnd, t.get? x = before.get? x)
    (hStart : elseStart.get? x = before.get? x)
    (hElse : ∀ t ∈ elseEnd, t.get? x = elseStart.get? x) :
    let join := joinBranches before thenEnd elseStart elseEnd
    join.scope.get? x = before.get? x ∧ (∀ b ∈ join.thenBridges, b.name ≠ x) ∧
      ∀ b ∈ join.elseBridges, b.name ≠ x := by
  have hJoin := joinOf_of_same hThen hElse
  intro join
  have hThenBridges : join.thenBridges = (knownVariables before thenEnd elseEnd).filterMap
      fun y => (BranchEnds.joinOf before thenEnd elseStart elseEnd y).thenBridge :=
    List.filterMap_map
  have hElseBridges : join.elseBridges = (knownVariables before thenEnd elseEnd).filterMap
      fun y => (BranchEnds.joinOf before thenEnd elseStart elseEnd y).elseBridge :=
    List.filterMap_map
  refine ⟨?_, ?_, ?_⟩
  · rw [get?_joinBranches, hJoin]
    cases thenEnd with
    | some t => exact hThen t rfl
    | none =>
      cases elseEnd with
      | some t => exact (hElse t rfl).trans hStart
      | none => rfl
  · rw [hThenBridges]
    rintro b hb rfl
    obtain ⟨y, -, hBridge⟩ := List.mem_filterMap.mp hb
    rw [← VariableJoin.name_of_bridge (.inl hBridge), hJoin] at hBridge
    cases hBridge
  · rw [hElseBridges]
    rintro b hb rfl
    obtain ⟨y, -, hBridge⟩ := List.mem_filterMap.mp hb
    rw [← VariableJoin.name_of_bridge (.inr hBridge), hJoin] at hBridge
    cases hBridge

theorem get?_elseStart_of_same {before thenEnd : Scope} (h : thenEnd.get? x = before.get? x) :
    (elseStart before thenEnd).get? x = before.get? x := by
  rw [get?_elseStart, h]
  cases before.get? x <;> rfl

end Scope

/-! ## Statements -/

/-- What is left of a tree that spares the variable, and holds no requires any more. -/
abbrev Node.SparesAll (x : Symbol) (n : Node) : Prop := n.Spares Node.noRequire x

theorem sparesAll_statements {n : Node} (h : n.SparesAll x) :
    ∀ m ∈ n.statements, m.SparesAll x := by
  unfold Node.statements
  split
  · exact nofun
  · exact Node.spares_seq.mp h
  · simpa using h

theorem sparesAll_ofStatements (s : Span) {ns : List Node} (h : ∀ n ∈ ns, n.SparesAll x) :
    (Node.ofStatements s ns).SparesAll x := by
  match ns with
  | [] => exact Node.spares_atom _
  | [n] => exact h n (.head _)
  | _ :: _ :: _ => exact Node.spares_seq.mpr h

theorem sparesAll_branchStatements {branch : Option Node} (h : ∀ n ∈ branch, n.SparesAll x) :
    ∀ m ∈ branchStatements branch, m.SparesAll x := by
  cases branch with
  | none => exact nofun
  | some n => exact sparesAll_statements (h n rfl)

theorem sparesAll_bridges (s : Span) {bridges : List Bridge} (h : ∀ b ∈ bridges, b.name ≠ x) :
    ∀ n ∈ bridges.map (·.node s), n.SparesAll x := by
  intro n hn
  obtain ⟨b, hb, rfl⟩ := List.mem_map.mp hn
  refine Node.spares_assign.mpr ⟨h b hb, by simp, ?_⟩
  cases b.source with
  | none => exact Node.spares_atom _
  | some _ => simp

theorem spares_appendBridges (s : Span) {branch : Option Node} (h : ∀ n ∈ branch, n.SparesAll x)
    {bridges : List Bridge} (hBridges : ∀ b ∈ bridges, b.name ≠ x) :
    (appendBridges s branch bridges).Spares files x fun n => ∀ m ∈ n, m.SparesAll x := by
  have hStmts := sparesAll_branchStatements h
  have hAssigns := sparesAll_bridges s hBridges
  unfold appendBridges
  split
  · exact Norm.spares_pure h
  · simp only
    split
    · refine Norm.spares_pure ?_
      rintro _ ⟨⟩
      exact Node.spares_seq.mpr (List.forall_mem_append.mpr ⟨hAssigns, by simp [Node.nil]⟩)
    · rename_i last hLast
      have hInit : ∀ n ∈ (branchStatements branch).dropLast, n.SparesAll x := fun n hn =>
        hStmts n (List.dropLast_subset _ hn)
      have hLast := hStmts last (List.mem_of_getLast? hLast)
      split
      · refine Norm.spares_pure ?_
        rintro _ ⟨⟩
        simp only [Node.spares_seq, List.forall_mem_append, List.forall_mem_singleton]
        exact ⟨⟨hInit, hAssigns⟩, hLast⟩
      · refine Norm.spares_freshTemp.bind fun t _ => Norm.spares_pure ?_
        rintro _ ⟨⟩
        simp only [Node.spares_seq, List.forall_mem_append, List.forall_mem_singleton,
          Node.spares_assign]
        exact ⟨⟨⟨hInit, id, Node.spares_atom _, hLast⟩, hAssigns⟩, Node.spares_atom _⟩

namespace BranchEnd

def OptionSpares (x : Symbol) (e : Option BranchEnd) : Prop :=
  ∀ b ∈ e, ∀ n ∈ b.node, n.SparesAll x

theorem spares_close (s : Span) {e : Option BranchEnd} (h : OptionSpares x e)
    {bridges : List Bridge} (hBridges : ∀ b ∈ bridges, b.name ≠ x) :
    (close s e bridges).Spares files x fun n => ∀ m ∈ n, m.SparesAll x := by
  cases e with
  | none => exact spares_appendBridges s (by simp) hBridges
  | some b =>
    unfold close
    simp only
    split
    · exact Norm.spares_pure (h b rfl)
    · exact spares_appendBridges s (h b rfl) hBridges

theorem sparesAll_appendLoopBridges (s : Span) {body : Option Node}
    (h : ∀ n ∈ body, n.SparesAll x) {bridges : List Bridge}
    (hBridges : ∀ b ∈ bridges, b.name ≠ x) :
    ∀ n ∈ appendLoopBridges s body bridges, n.SparesAll x := by
  unfold appendLoopBridges
  split
  · exact h
  · rintro _ ⟨⟩
    exact sparesAll_ofStatements s (List.forall_mem_append.mpr
      ⟨sparesAll_branchStatements h, sparesAll_bridges s hBridges⟩)

theorem sparesAll_closeLoop (s : Span) {e : Option BranchEnd} (h : OptionSpares x e)
    {bridges : List Bridge} (hBridges : ∀ b ∈ bridges, b.name ≠ x) :
    ∀ n ∈ closeLoop s e bridges, n.SparesAll x := by
  cases e with
  | none => exact sparesAll_appendLoopBridges s (by simp) hBridges
  | some b =>
    unfold closeLoop
    simp only
    split
    · exact h b rfl
    · exact sparesAll_appendLoopBridges s (h b rfl) hBridges

end BranchEnd

end CoreTree

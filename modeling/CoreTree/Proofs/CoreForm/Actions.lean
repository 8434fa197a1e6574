import CoreTree.Normal.OfNode
import CoreTree.Proofs.CoreForm.Everywhere

/-! # Actions that yield core form

The invariant is that the registered types mention trees in core form only. An action that
starts there ends there, and if it succeeds, what it gives is in core form as well. Nothing is
assumed of the scope: core form does not depend on versions.
-/
namespace CoreTree
set_option autoImplicit false

variable {α β : Type}

def Program.TypesCore (p : Program) : Prop := ∀ t ∈ p.types.types, ∀ e ∈ t.exprs, e.AllCore

/-- The action keeps registered types in core form, and `Q` holds of what it gives. -/
def Norm.Yields (act : Norm α) (Q : α → Prop) : Prop :=
  ∀ st, st.program.TypesCore → match act.run st with
    | .ok a st' => st'.program.TypesCore ∧ Q a
    | .error _ st' => st'.program.TypesCore

def Pending.YieldsCore (p : Pending) : Prop := p.run.Yields fun o => o.node.AllCore

namespace Norm

variable {act : Norm α} {P : α → Prop} {Q : β → Prop}

theorem yields_pure {a : α} (h : P a) : (pure a : Norm α).Yields P := fun _ hTypes => ⟨hTypes, h⟩

theorem Yields.bind {f : α → Norm β} (h : act.Yields P) (hNext : ∀ a, P a → (f a).Yields Q) :
    (act >>= f).Yields Q := by
  intro st hTypes
  have hAct := h st hTypes
  rw [EStateM.run_bind]
  cases hRun : act.run st with
  | ok a st' =>
    rw [hRun] at hAct
    exact hNext a hAct.2 st' hAct.1
  | error e st' =>
    rw [hRun] at hAct
    exact hAct

theorem Yields.of_ok (h : act.Yields P) {st st' : NormalState} {a : α}
    (hTypes : st.program.TypesCore) (hRun : act.run st = .ok a st') :
    st'.program.TypesCore ∧ P a := by
  have hAct := h st hTypes
  rwa [hRun] at hAct

theorem Yields.of_error (h : act.Yields P) {st st' : NormalState} {e : NormalizeError}
    (hTypes : st.program.TypesCore) (hRun : act.run st = .error e st') :
    st'.program.TypesCore := by
  have hAct := h st hTypes
  rwa [hRun] at hAct

/-- An action on the program that leaves the types in core form always succeeds. -/
theorem yields_onProgram {f : Program → α × Program}
    (h : ∀ p : Program, p.TypesCore → (f p).2.TypesCore) :
    (onProgram f).Yields fun _ => True := fun st hTypes => ⟨h st.program hTypes, trivial⟩

theorem yields_getScope : getScope.Yields fun _ => True := fun _ hTypes => ⟨hTypes, trivial⟩

theorem yields_setScope (scope : Scope) : (setScope scope).Yields fun _ => True :=
  fun _ hTypes => ⟨hTypes, trivial⟩

theorem yields_freshTemp : freshTemp.Yields fun _ => True := fun _ hTypes => ⟨hTypes, trivial⟩

theorem yields_writeVar (v : Var) : (writeVar v).Yields fun _ => True :=
  fun _ hTypes => ⟨hTypes, trivial⟩

theorem yields_useVar (s : Span) (v : Var) : (useVar s v).Yields fun _ => True := by
  unfold useVar
  split
  · exact yields_writeVar v
  · apply yields_getScope.bind
    intro scope _
    split
    · exact yields_pure trivial
    · exact fun _ hTypes => hTypes

theorem Yields.inScope (h : act.Yields P) (scope : Scope) : (inScope scope act).Yields P :=
  yields_getScope.bind fun outer _ => (yields_setScope scope).bind fun _ _ => h.bind fun _ ha =>
    (yields_setScope outer).bind fun _ _ => yields_pure ha

end Norm

/-! ## Statements -/

/-- Statements in core form, as they stand in a sequence. -/
def Flat (ns : List Node) : Prop := ∀ n ∈ ns, n.isStatement = true ∧ n.AllCore

theorem Flat.append {ns ms : List Node} (h : Flat ns) (h' : Flat ms) : Flat (ns ++ ms) := by
  intro n hn
  rcases List.mem_append.mp hn with hn | hn
  · exact h n hn
  · exact h' n hn

theorem flat_single {n : Node} (hStatement : n.isStatement = true) (h : n.AllCore) : Flat [n] := by
  simpa [Flat] using And.intro hStatement h

theorem flat_statements {n : Node} (h : n.AllCore) : Flat n.statements := by
  unfold Node.statements
  split
  · exact nofun
  · exact (Node.allCore_seq.mp h).2
  · rename_i hNop hSeq
    refine flat_single ?_ h
    unfold Node.isStatement
    split
    · exact (hNop _ rfl).elim
    · exact (hSeq _ _ rfl).elim
    · rfl

theorem allCore_ofStatements (s : Span) {ns : List Node} (h : Flat ns) :
    (Node.ofStatements s ns).AllCore := by
  match ns with
  | [] => exact Node.allCore_atom _
  | [n] => exact (h n (.head _)).2
  | _ :: _ :: _ => exact Node.allCore_seq.mpr ⟨by simp, h⟩

theorem flat_branchStatements {branch : Option Node} (h : ∀ n ∈ branch, n.AllCore) :
    Flat (branchStatements branch) := by
  cases branch with
  | none => exact nofun
  | some n => exact flat_statements (h n rfl)

theorem flat_bridges (s : Span) (bridges : List Bridge) : Flat (bridges.map (·.node s)) := by
  intro n hn
  obtain ⟨b, _, rfl⟩ := List.mem_map.mp hn
  refine ⟨rfl, Node.allCore_assign.mpr ⟨Node.allCore_var _, ?_⟩⟩
  cases b.source with
  | none => exact Node.allCore_atom _
  | some _ => exact Node.allCore_var _

theorem yields_appendBridges (s : Span) {branch : Option Node} (h : ∀ n ∈ branch, n.AllCore)
    (bridges : List Bridge) :
    (appendBridges s branch bridges).Yields fun n => ∀ m ∈ n, m.AllCore := by
  have hStmts := flat_branchStatements h
  have hAssigns := flat_bridges s bridges
  unfold appendBridges
  split
  · exact Norm.yields_pure h
  · rename_i hEmpty
    have hPos : 0 < bridges.length := List.length_pos_iff.mpr (by simpa using hEmpty)
    simp only
    split
    · refine Norm.yields_pure ?_
      rintro _ ⟨⟩
      refine Node.allCore_seq.mpr ⟨?_, hAssigns.append (flat_single rfl (Node.allCore_atom _))⟩
      simp
      omega
    · rename_i last hLast
      have hInit : Flat (branchStatements branch).dropLast := fun n hn =>
        hStmts n (List.dropLast_subset _ hn)
      obtain ⟨hStatement, hCore⟩ := hStmts last (List.mem_of_getLast? hLast)
      split
      · refine Norm.yields_pure ?_
        rintro _ ⟨⟩
        refine Node.allCore_seq.mpr ⟨?_, (hInit.append hAssigns).append
          (flat_single hStatement hCore)⟩
        simp only [List.length_append, List.length_map, List.length_singleton]
        omega
      · refine Norm.yields_freshTemp.bind fun t _ => Norm.yields_pure ?_
        rintro _ ⟨⟩
        have hSaved : Flat [Node.assign last.span (.temp last.span t) last] :=
          flat_single rfl (Node.allCore_assign.mpr ⟨Node.allCore_atom _, hCore⟩)
        refine Node.allCore_seq.mpr ⟨?_, ((hInit.append hSaved).append hAssigns).append
          (flat_single rfl (Node.allCore_atom _))⟩
        simp only [List.length_append, List.length_map, List.length_singleton]
        omega

namespace BranchEnd

def OptionCore (e : Option BranchEnd) : Prop := ∀ b ∈ e, ∀ n ∈ b.node, n.AllCore

theorem yields_close (s : Span) {e : Option BranchEnd} (h : OptionCore e) (bridges : List Bridge) :
    (close s e bridges).Yields fun n => ∀ m ∈ n, m.AllCore := by
  cases e with
  | none => exact yields_appendBridges s (by simp) bridges
  | some b =>
    unfold close
    simp only
    split
    · exact Norm.yields_pure (h b rfl)
    · exact yields_appendBridges s (h b rfl) bridges

theorem allCore_appendLoopBridges (s : Span) {body : Option Node} (h : ∀ n ∈ body, n.AllCore)
    (bridges : List Bridge) : ∀ n ∈ appendLoopBridges s body bridges, n.AllCore := by
  unfold appendLoopBridges
  split
  · exact h
  · rintro _ ⟨⟩
    exact allCore_ofStatements s ((flat_branchStatements h).append (flat_bridges s bridges))

theorem allCore_closeLoop (s : Span) {e : Option BranchEnd} (h : OptionCore e)
    (bridges : List Bridge) : ∀ n ∈ closeLoop s e bridges, n.AllCore := by
  cases e with
  | none => exact allCore_appendLoopBridges s (by simp) bridges
  | some b =>
    unfold closeLoop
    simp only
    split
    · exact h b rfl
    · exact allCore_appendLoopBridges s (h b rfl) bridges

end BranchEnd

end CoreTree

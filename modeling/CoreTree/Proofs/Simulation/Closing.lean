import CoreTree.Proofs.Simulation.Splicing
import Mathlib.Data.List.Basic

/-! # Bridges at the end of a branch

A bridged branch runs as the branch did, and then the bridges run. If the value of the branch
is used, it comes through: nothing but locals that the bridges write and temporaries that were
not made before tell the two runs apart.
-/
namespace CoreTree
set_option autoImplicit false

variable {V α β : Type}

/-- The second run went on to run the bridges, if the first one ended normally. A run that is cut
off may be so on either side of the bridges. -/
inductive Carried (I : Interp V) (p : Program) (bridges : List Bridge) :
    Except (Exit V) α × Machine Cell V → Except (Exit V) α × Machine Cell V → Prop where
  | value {v w temps} (h : ∀ t, p.HasTemp t → temps t = w.temps t) :
    Carried I p bridges (.ok v, w) (.ok v, ⟨runBridges I bridges w.locals, temps, w.world⟩)
  | left (e w) : Carried I p bridges (.error e, w) (.error e, w)
  | cut {w w'} (h : w.world = w'.world) : Carried I p bridges (.error .cut, w) (.error .cut, w')

namespace Carried

variable {I : Interp V} {p : Program} {bridges : List Bridge}

theorem of_nil (a : Except (Exit V) α × Machine Cell V) : Carried I p [] a a := by
  obtain ⟨_ | _, w⟩ := a
  · exact .left _ _
  · exact .value (w := w) fun _ _ => rfl

theorem after {c : Eval Cell V β} {f g : β → Eval Cell V α} {w : Machine Cell V}
    (h : ∀ v w', c.on w = (.ok v, w') → Carried I p bridges ((f v).on w') ((g v).on w')) :
    Carried I p bridges ((c >>= f).on w) ((c >>= g).on w) := by
  rcases hc : c.on w with ⟨_ | v, w'⟩
  · rw [Eval.on_bind_of_error hc, Eval.on_bind_of_error hc]
    exact .left _ _
  · rw [Eval.on_bind_of_ok hc, Eval.on_bind_of_ok hc]
    exact h v w' hc

/-- A run by names is related to a bridged run if the agreement is carried over the bridges. -/
theorem alike {E : Escape V} {Q Q' : α → Machine Symbol V → Machine Cell V → Prop} {a b b'}
    (h : Carried I p bridges b b') (hRelated : Alike E Q a b)
    (hQ : ∀ v m w temps, Q v m w → (∀ t, p.HasTemp t → temps t = w.temps t) →
      Q' v m ⟨runBridges I bridges w.locals, temps, w.world⟩) : Alike E Q' a b' := by
  cases hRelated with
  | value hv =>
    cases h with
    | value hTemps => exact .value (hQ _ _ _ _ hv hTemps)
  | left hLeaves hPost =>
    cases h with
    | left => exact .left hLeaves hPost
    | cut hSame =>
      exact .left hLeaves (E.post_of_leaves _ _ _ trivial ((E.world _ _ _ hPost).trans hSame))

end Carried

/-- The branch does not end in a variable that the bridges change. -/
def Stays (I : Interp V) (branch : Option Node) (bridges : List Bridge) (locals : Cell → V) :
    Prop :=
  ∀ span x, (branchStatements branch).getLast? = some (.var span x) →
    runBridges I bridges locals x.cell = locals x.cell

namespace Setting

variable (C : Setting V)

/-- A value that is saved before the bridges is there behind them. -/
theorem carried_saved {p : Program} {s : Span} {bridges : List Bridge} {t : Symbol}
    (hFresh : ¬ p.HasTemp t) (last : Node) (w : Machine Cell V) :
    Carried C.interp p bridges ((C.run last).on w)
      ((Eval.seq C.interp (C.run (.assign last.span (.temp last.span t) last) ::
        ((bridges.map (·.node s)).map C.run ++ [C.run (.temp last.span t)]))).on w) := by
  have hRest : (bridges.map (·.node s)).map C.run ++ [C.run (.temp last.span t)] ≠ [] := by simp
  have hSave : C.run (.assign last.span (.temp last.span t) last) =
      C.run last >>= fun v => .writeTemp t v >>= fun _ => pure v := rfl
  rw [← List.singleton_append, Eval.seq_append _ _ _ hRest]
  show Carried _ _ _ _ ((C.run (.assign last.span (.temp last.span t) last) >>= _).on w)
  rw [hSave, bind_assoc]
  conv => arg 4; rw [← bind_pure (C.run last)]
  apply Carried.after
  intro v w' _
  have hLast : [C.run (.temp last.span t)] ≠ [] := by simp
  have hRun := C.run_bridges_append s bridges hLast
    { w' with temps := Function.update w'.temps t v }
  have hValue : (C.run (.temp last.span t)).on
      ⟨runBridges C.interp bridges w'.locals, Function.update w'.temps t v, w'.world⟩ =
      (.ok v, ⟨runBridges C.interp bridges w'.locals, Function.update w'.temps t v,
        w'.world⟩) := by
    show (Except.ok (Function.update w'.temps t v t), _) = _
    rw [Function.update_self]
  have hOn : ((Eval.writeTemp t v >>= fun _ => pure v) >>= fun _ =>
      Eval.seq C.interp ((bridges.map (·.node s)).map C.run ++ [C.run (.temp last.span t)])).on w' =
      (.ok v, ⟨runBridges C.interp bridges w'.locals, Function.update w'.temps t v,
        w'.world⟩) := hRun.trans hValue
  rw [hOn, Eval.on_pure]
  refine .value fun u hu => Function.update_of_ne ?_ _ _
  rintro rfl
  exact hFresh hu

/-- A pure value may be taken after the bridges instead of before. -/
theorem carried_moved {p : Program} {s : Span} {bridges : List Bridge} {last : Node}
    (hPure : last.isPure = true) {w : Machine Cell V}
    (hStays : ∀ v, (C.run last).on w = (.ok v, w) → ∀ span x, last = .var span x →
      runBridges C.interp bridges w.locals x.cell = w.locals x.cell) :
    Carried C.interp p bridges ((C.run last).on w)
      ((Eval.seq C.interp ((bridges.map (·.node s)).map C.run ++ [C.run last])).on w) := by
  rw [C.run_bridges_append s bridges (by simp)]
  show Carried _ _ _ _ ((C.run last).on _)
  obtain hCut | ⟨v, hValue, hMoved⟩ := C.on_of_isPure hPure w
  · rw [hCut, hCut]
    exact .cut rfl
  · rw [hValue, hMoved _ (hStays v hValue)]
    exact .value fun _ _ => rfl

theorem ensures_appendBridges (s : Span) (branch : Option Node) (bridges : List Bridge)
    (st : NormalState) :
    (appendBridges s branch bridges).Ensures st False fun n st' =>
      st'.scope = st.scope ∧ (∀ t, st.program.HasTemp t → st'.program.HasTemp t) ∧
      ∀ w, (∀ v w', (C.runBranch branch).on w = (.ok v, w') →
          Stays C.interp branch bridges w'.locals) →
        Carried C.interp st.program bridges ((C.runBranch branch).on w) ((C.runBranch n).on w) := by
  unfold appendBridges
  split
  · rename_i hEmpty
    obtain rfl := List.isEmpty_iff.mp hEmpty
    exact Norm.ensures_pure ⟨rfl, fun _ h => h, fun w _ => .of_nil _⟩
  · have hBranch := C.run_branchStatements branch
    simp only
    split
    · -- without a statement the value is the `nil` that is put behind the bridges
      rename_i hLast
      rw [List.getLast?_eq_none_iff.mp hLast] at hBranch
      refine Norm.ensures_pure ⟨rfl, fun _ h => h, fun w _ => ?_⟩
      rw [← hBranch]
      show Carried _ _ _ (.ok C.interp.nil, w) ((C.run (.seq s _)).on w)
      rw [C.run_seq, List.map_append, C.run_bridges_append s bridges (by simp)]
      exact .value fun _ _ => rfl
    · rename_i last hLast
      have hSplit : branchStatements branch = (branchStatements branch).dropLast ++ [last] :=
        (List.dropLast_append_getLast? last hLast).symm
      have hRun : C.runBranch branch =
          Eval.seq C.interp ((branchStatements branch).dropLast.map C.run) >>= fun _ =>
            C.run last := by
        rw [← hBranch]
        conv => lhs; rw [hSplit]
        rw [List.map_append, Eval.seq_append _ _ _ (by simp)]
        rfl
      -- the statements before the last one run first in any case
      split
      · rename_i hPure
        refine Norm.ensures_pure ⟨rfl, fun _ h => h, fun w hStays => ?_⟩
        show Carried _ _ _ _ ((C.run (.seq s _)).on w)
        rw [C.run_seq, List.append_assoc, List.map_append, List.map_append,
          Eval.seq_append _ _ _ (by simp)]
        rw [hRun] at hStays ⊢
        refine Carried.after fun _ w' hw' => C.carried_moved hPure fun v hv span x hx => ?_
        refine hStays v w' ?_ span x (hx ▸ hLast)
        rw [Eval.on_bind_of_ok hw', hv]
      · apply Norm.ensures_freshTemp_bind
        refine Norm.ensures_pure ⟨rfl, fun _ h => h.freshTemp, fun w _ => ?_⟩
        show Carried _ _ _ _ ((C.run (.seq s _)).on w)
        rw [C.run_seq, List.append_assoc, List.append_assoc, List.map_append,
          Eval.seq_append _ _ _ (by simp), hRun, List.map_append, List.map_append]
        exact Carried.after fun _ w' _ =>
          C.carried_saved st.program.not_hasTemp_freshTemp last w'

/-- A body whose value is not used is done once the bridges have run. -/
theorem carried_appendLoopBridges (p : Program) (s : Span) (body : Option Node)
    (bridges : List Bridge) (a : α) (w : Machine Cell V) :
    Carried C.interp p bridges ((C.runBranch body >>= fun _ => pure a).on w)
      ((C.runBranch (appendLoopBridges s body bridges) >>= fun _ => pure a).on w) := by
  unfold appendLoopBridges
  split
  · rename_i hEmpty
    obtain rfl := List.isEmpty_iff.mp hEmpty
    exact .of_nil _
  · rename_i hNonempty
    have hAssigns : (bridges.map (·.node s)).map C.run ≠ [] := by
      simpa using hNonempty
    show Carried _ _ _ _ ((C.run (.ofStatements s _) >>= _).on w)
    rw [C.run_ofStatements, List.map_append, Eval.seq_append _ _ _ hAssigns,
      C.run_branchStatements, bind_assoc]
    apply Carried.after
    intro _ w' _
    obtain ⟨v, hv⟩ := C.run_bridges s (by simpa using hNonempty) w'
    rw [Eval.on_bind_of_ok hv]
    exact .value fun _ _ => rfl

end Setting

end CoreTree

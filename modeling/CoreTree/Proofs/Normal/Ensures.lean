import CoreTree.Normal.OfNode
import Std.Data.String.ToNat

/-! # What an action ensures

A postcondition for the runs of a normalizing action that succeed, and a condition that holds
if it fails. Beside it, what a fresh temporary has in common with no earlier one.
-/
namespace CoreTree
set_option autoImplicit false

namespace Norm

variable {α β : Type}

def Ensures (act : Norm α) (st : NormalState) (fails : Prop) (Q : α → NormalState → Prop) :
    Prop :=
  match act.run st with
  | .ok a st' => Q a st'
  | .error _ _ => fails

variable {act : Norm α} {st : NormalState} {fails : Prop} {Q : α → NormalState → Prop}

theorem ensures_pure {a : α} (h : Q a st) : (pure a : Norm α).Ensures st fails Q := h

theorem Ensures.bind {f : α → Norm β} {Q' : β → NormalState → Prop} (h : act.Ensures st fails Q)
    (hNext : ∀ a st', Q a st' → (f a).Ensures st' fails Q') : (act >>= f).Ensures st fails Q' := by
  unfold Ensures at h ⊢
  rw [EStateM.run_bind]
  split at h
  · rename_i a st' hAct
    simp only [hAct]
    exact hNext a st' h
  · rename_i hAct
    simp only [hAct]
    exact h

theorem Ensures.mono {fails' : Prop} {Q' : α → NormalState → Prop} (h : act.Ensures st fails Q)
    (hFails : fails → fails') (hQ : ∀ a st', Q a st' → Q' a st') : act.Ensures st fails' Q' := by
  unfold Ensures at h ⊢
  split
  · rename_i a st' hAct
    rw [hAct] at h
    exact hQ a st' h
  · rename_i hAct
    rw [hAct] at h
    exact hFails h

theorem Ensures.all {ι : Type} [Nonempty ι] {R : ι → α → NormalState → Prop}
    (h : ∀ i, act.Ensures st fails (R i)) : act.Ensures st fails fun a st' => ∀ i, R i a st' := by
  unfold Ensures at h ⊢
  split
  · rename_i a st' hAct
    intro i
    have hi := h i
    rw [hAct] at hi
    exact hi
  · rename_i hAct
    have hi := h (Classical.choice inferInstance)
    rw [hAct] at hi
    exact hi

theorem Ensures.of_ok {a : α} {st' : NormalState} (h : act.Ensures st fails Q)
    (hAct : act.run st = .ok a st') : Q a st' := by
  unfold Ensures at h
  rw [hAct] at h
  exact h

theorem Ensures.run (h : act.Ensures st fails Q) :
    act.Ensures st fails fun a st' => act.run st = .ok a st' ∧ Q a st' := by
  unfold Ensures at h ⊢
  split
  · rename_i hAct
    rw [hAct] at h
    exact ⟨hAct, h⟩
  · rename_i hAct
    rw [hAct] at h
    exact h

theorem Ensures.exists_ok (h : act.Ensures st fails Q) (hFails : ¬ fails) :
    ∃ a st', act.run st = .ok a st' ∧ Q a st' := by
  unfold Ensures at h
  split at h
  · rename_i a st' hAct
    exact ⟨a, st', hAct, h⟩
  · exact absurd h hFails

theorem ensures_onProgram {f : Program → α × Program}
    (h : Q (f st.program).1 { st with program := (f st.program).2 }) :
    (onProgram f).Ensures st fails Q := h

/-! Steps that cannot fail are taken, and what follows starts where they lead. -/

theorem ensures_getScope_bind {f : Scope → Norm α} (h : (f st.scope).Ensures st fails Q) :
    (getScope >>= f).Ensures st fails Q := h

theorem ensures_setScope_bind {scope : Scope} {f : Unit → Norm α}
    (h : (f ()).Ensures { st with scope } fails Q) : (setScope scope >>= f).Ensures st fails Q := h

theorem ensures_freshTemp_bind {f : Symbol → Norm α}
    (h : (f st.program.freshTemp.1).Ensures { st with program := st.program.freshTemp.2 }
      fails Q) : (freshTemp >>= f).Ensures st fails Q := h

theorem ensures_writeVar_bind {v : Var} {f : Var → Norm α}
    (h : (f { v with version := (st.scope.write v.name).1 }).Ensures
      { st with scope := (st.scope.write v.name).2 } fails Q) :
    (writeVar v >>= f).Ensures st fails Q := h

end Norm

/-! ## Fresh temporaries -/

namespace Program

/-- The symbol is a temporary that was made before. -/
def HasTemp (p : Program) (t : Symbol) : Prop :=
  ∃ k ≤ p.temps, p.names.text? t = some s!"#temp_{k}"

theorem tempName_injective {j k : Nat} (h : s!"#temp_{j}" = s!"#temp_{k}") : j = k := by
  have hRepr : toString j = toString k := by simpa using h
  exact Nat.repr_injective hRepr

theorem hasTemp_freshTemp (p : Program) : p.freshTemp.2.HasTemp p.freshTemp.1 :=
  ⟨p.temps + 1, Nat.le_refl _, SymbolTable.text?_intern p.names _⟩

theorem HasTemp.freshTemp {p : Program} {t : Symbol} (h : p.HasTemp t) :
    p.freshTemp.2.HasTemp t := by
  obtain ⟨k, hLe, hText⟩ := h
  exact ⟨k, Nat.le_succ_of_le hLe, SymbolTable.text?_intern_of_some hText _⟩

theorem not_hasTemp_freshTemp (p : Program) : ¬ p.HasTemp p.freshTemp.1 := by
  rintro ⟨k, hLe, hText⟩
  have hOld := SymbolTable.text?_intern_of_some hText s!"#temp_{p.temps + 1}"
  have hNew := SymbolTable.text?_intern p.names s!"#temp_{p.temps + 1}"
  have hEq := tempName_injective (Option.some.inj (hOld.symm.trans hNew))
  omega

end Program

end CoreTree

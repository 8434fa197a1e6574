import CoreTree.Proofs.Flow.Truncation
import CoreTree.Proofs.Frame.Actions
import CoreTree.Proofs.Normal.Ensures

/-! # Actions that keep the scope

Where nothing is written, a scope comes out of every join, loop and block as it went in, and no
bridges are made. Two courses are followed with the same lemmas: a first normalization, which may
fail and may add to the program, and a second one, which neither fails nor adds anything.
-/
namespace CoreTree
set_option autoImplicit false

/-! ## Maps that agree -/

namespace SymbolMap

variable {α : Type} {m n : SymbolMap α}

theorem entries_nodup (m : SymbolMap α) : m.entries.Nodup :=
  m.ascending.imp fun h hEq => absurd (hEq ▸ h) (Nat.lt_irrefl _)

/-- Maps that agree on every symbol are equal. -/
theorem eq_of_get? (h : ∀ key, m.get? key = n.get? key) : m = n := by
  have hMem : ∀ e, e ∈ m.entries ↔ e ∈ n.entries := by
    rintro ⟨key, value⟩
    rw [mem_entries_iff, mem_entries_iff, h]
  have hPerm : m.entries.Perm n.entries :=
    (List.perm_ext_iff_of_nodup m.entries_nodup n.entries_nodup).mpr hMem
  have hEntries : m.entries = n.entries := by
    refine hPerm.eq_of_pairwise ?_ m.ascending n.ascending
    intro a b _ _ hLt hGt
    exact absurd (Nat.lt_trans hLt hGt) (Nat.lt_irrefl _)
  cases m
  cases n
  cases hEntries
  rfl

end SymbolMap

namespace Scope

variable (s : Scope)

theorem loopBridges_self : loopBridges s s = [] :=
  List.eq_nil_iff_forall_not_mem.mpr fun b hb =>
    name_ne_of_mem_loopBridges_of_same rfl b hb rfl

theorem rewindLoop_self : rewindLoop s s = s :=
  SymbolMap.eq_of_get? fun _ => get?_rewindLoop_of_same rfl

theorem rewindBlock_self : rewindBlock s [] = s := by
  refine SymbolMap.eq_of_get? fun x => ?_
  have hSame : (rewindBlock s (loopBridges s s)).get? x = s.get? x := get?_rewindBlock_of_same rfl
  rwa [loopBridges_self] at hSame

theorem elseStart_self : elseStart s s = s :=
  SymbolMap.eq_of_get? fun _ => get?_elseStart_of_same rfl

theorem unbindParams_bindParams (params : List Symbol) :
    unbindParams (bindParams s params).2 (bindParams s params).1 = s := by
  refine SymbolMap.eq_of_get? fun x => ?_
  rw [get?_unbindParams_bindParams, get?_bindParams]
  split <;> rfl

/-- Branches that change nothing join without bridges. -/
theorem joinBranches_self {thenEnd elseEnd : Option Scope} (hThen : ∀ t ∈ thenEnd, t = s)
    (hElse : ∀ t ∈ elseEnd, t = s) : joinBranches s thenEnd s elseEnd = ⟨[], [], s⟩ := by
  have hThenGet (x : Symbol) : ∀ t ∈ thenEnd, t.get? x = s.get? x := fun t ht => by rw [hThen t ht]
  have hElseGet (x : Symbol) : ∀ t ∈ elseEnd, t.get? x = s.get? x := fun t ht => by rw [hElse t ht]
  have hSame (x : Symbol) := joinBranches_of_same (hThenGet x) rfl (hElseGet x)
  have hScope : (joinBranches s thenEnd s elseEnd).scope = s :=
    SymbolMap.eq_of_get? fun x => (hSame x).1
  have hThenBridges : (joinBranches s thenEnd s elseEnd).thenBridges = [] :=
    List.eq_nil_iff_forall_not_mem.mpr fun b hb => (hSame b.name).2.1 b hb rfl
  have hElseBridges : (joinBranches s thenEnd s elseEnd).elseBridges = [] :=
    List.eq_nil_iff_forall_not_mem.mpr fun b hb => (hSame b.name).2.2 b hb rfl
  generalize joinBranches s thenEnd s elseEnd = join at *
  obtain ⟨_, _, _⟩ := join
  cases hScope
  cases hThenBridges
  cases hElseBridges
  rfl

end Scope

/-! ## Courses -/

/-- What is allowed on the way: whether an action may fail, and what it may do to the program. -/
structure Course where
  fails : Prop
  later : Program → Program → Prop
  refl (p : Program) : later p p
  trans {p q r : Program} (h : later p q) (h' : later q r) : later p r

namespace Course

/-- An action may fail and may do anything to the program. -/
def first : Course where
  fails := True
  later _ _ := True
  refl _ := trivial
  trans _ _ := trivial

/-- An action succeeds and leaves the program as it is. -/
def again : Course where
  fails := False
  later p q := q = p
  refl _ := rfl
  trans h h' := h'.trans h

end Course

namespace Norm

variable {C : Course} {s s' s'' : Scope} {α β : Type} {act : Norm α} {P : α → Prop} {Q : β → Prop}

/-- From any program the action goes from one scope to the other, and `P` holds of what it
gives. -/
def Goes (C : Course) (s s' : Scope) (act : Norm α) (P : α → Prop) : Prop :=
  ∀ p, act.Ensures ⟨p, s⟩ C.fails fun a st => C.later p st.program ∧ st.scope = s' ∧ P a

theorem goes_pure {a : α} (h : P a) : (pure a : Norm α).Goes C s s P :=
  fun p => ensures_pure ⟨C.refl p, rfl, h⟩

theorem Goes.bind {f : α → Norm β} (h : act.Goes C s s' P)
    (hNext : ∀ a, P a → (f a).Goes C s' s'' Q) : (act >>= f).Goes C s s'' Q := by
  intro p
  refine (h p).bind fun a st hGone => ?_
  obtain ⟨q, _⟩ := st
  obtain ⟨hLater, rfl, ha⟩ := hGone
  exact (hNext a ha q).mono id fun b st' ⟨hLater', hScope, hb⟩ =>
    ⟨C.trans hLater hLater', hScope, hb⟩

theorem Goes.mono {Q : α → Prop} (h : act.Goes C s s' P) (hQ : ∀ a, P a → Q a) :
    act.Goes C s s' Q :=
  fun p => (h p).mono id fun a _ ⟨hLater, hScope, ha⟩ => ⟨hLater, hScope, hQ a ha⟩

theorem goes_getScope_bind {f : Scope → Norm β} (h : (f s).Goes C s s' Q) :
    (getScope >>= f).Goes C s s' Q := fun p => ensures_getScope_bind (h p)

theorem goes_setScope_bind {f : Unit → Norm β} (h : (f ()).Goes C s' s'' Q) :
    (setScope s' >>= f).Goes C s s'' Q := fun p => ensures_setScope_bind (h p)

/-- Whatever the action does to its own scope, the outer one is back behind it. -/
theorem Goes.inScope {inner inner' : Scope} (h : act.Goes C inner inner' P) (outer : Scope) :
    (inScope inner act).Goes C outer outer P :=
  goes_getScope_bind (goes_setScope_bind (h.bind fun _ ha => goes_setScope_bind (goes_pure ha)))

theorem goes_onProgram {f : Program → α × Program} :
    (onProgram f).Goes .first s s fun _ => True :=
  fun _ => ensures_onProgram ⟨trivial, rfl, trivial⟩

theorem goes_freshTemp : freshTemp.Goes .first s s fun _ => True := goes_onProgram

/-- The variable is read with the version that reaches this point. -/
theorem goes_useVar (span : Span) {v : Var} (hOut : v.out = false)
    (hKnown : s.readVersion? v.name = none → C.fails) :
    (useVar span v).Goes C s s fun w =>
      ∃ version, s.readVersion? v.name = some version ∧ w = { v with version } := by
  unfold useVar
  rw [if_neg (by rw [hOut]; exact Bool.false_ne_true)]
  refine goes_getScope_bind ?_
  cases hRead : s.readVersion? v.name with
  | none => exact fun _ => hKnown hRead
  | some version => exact goes_pure ⟨version, rfl, rfl⟩

theorem Goes.gives {Q : α → Prop} (h : act.Goes C s s' P) (hGives : act.Gives Q) :
    act.Goes C s s' fun a => P a ∧ Q a :=
  fun p => (h p).run.mono id fun _ _ ⟨hRun, hLater, hScope, ha⟩ =>
    ⟨hLater, hScope, ha, hGives _ _ _ hRun⟩

theorem Goes.exists_ok (h : act.Goes .again s s' P) (p : Program) :
    ∃ a, act.run ⟨p, s⟩ = .ok a ⟨p, s'⟩ ∧ P a := by
  obtain ⟨a, ⟨q, t⟩, hRun, rfl, rfl, ha⟩ := (h p).exists_ok id
  exact ⟨a, hRun, ha⟩

end Norm

end CoreTree

import CoreTree.Proofs.Simulation.Branches

/-! # Conditionals and logic

`if` and `unless` mean the same before and after. `and` and `or` become conditionals: the first
operand is evaluated again where that cannot be noticed, and else its value is taken from a
fresh temporary.
-/
namespace CoreTree
set_option autoImplicit false

variable {V : Type} {E : Escape V} {S S' : Scope → Prop} {C : Setting V} {held : Held V}

namespace Pending

/-- The branches may escape, and start where the test leads. -/
theorem meansIn_cond (s : Span) (form : CondForm) {test : Pending} {body other : Option Pending}
    {c : Eval Symbol V V} {k k' : Option (Eval Symbol V V)} (hTest : test.Means C held c)
    (hLeads : test.Leads C S S') (hBody : C.OptionMeansIn E S' held body k)
    (hOther : C.OptionMeansIn E S' held other k') :
    (cond s form test body other).MeansIn E S C held (.cond C.interp form c k k') := by
  intro held' hExtends st hReady hStart
  have hHeld : ∀ (_ : V) t, (held' t).isSome → st.program.HasTemp t := fun _ => hReady.held
  have hTest' := (hTest.extend hExtends).anywhere (E := E) held' (.refl _) st hReady hStart
  cases form with
  | whenTrue =>
    exact simulatesIn_cond hReady hStart hHeld (fun _ => .refl _) hTest' hLeads
      (fun _ => hBody.extend hExtends) fun _ => hOther.extend hExtends
  | whenFalse =>
    exact simulatesIn_cond (s := s) hReady hStart hHeld (fun _ => .refl _) hTest' hLeads
      (fun _ => hOther.extend hExtends) fun _ => hBody.extend hExtends

theorem free_of_ready {st : NormalState} (hReady : C.Ready held st) :
    held st.program.freshTemp.1 = none := by
  cases h : held st.program.freshTemp.1 with
  | none => rfl
  | some v => exact absurd (hReady.held _ (by simp [h])) st.program.not_hasTemp_freshTemp

/-- What starts with a fresh temporary goes on in a state where nothing else has changed. -/
theorem simulatesIn_fresh {p : Pending} (rest : Symbol → Pending) {c : Eval Symbol V V}
    {after : V → Held V} {st : NormalState} (hReady : C.Ready held st) (hStart : S st.scope)
    (hRun : p.run = Norm.freshTemp >>= fun t => (rest t).run)
    (h : ∀ t st', held t = none → st'.program.HasTemp t → C.Ready held st' → S st'.scope →
      (rest t).SimulatesIn E C held c after st') : p.SimulatesIn E C held c after st := by
  rw [SimulatesIn, hRun]
  apply Norm.ensures_freshTemp_bind
  have hAdv : C.Advances st { st with program := st.program.freshTemp.2 } :=
    ⟨.refl _ _, fun _ h => h.freshTemp⟩
  refine (h _ _ (free_of_ready hReady) st.program.hasTemp_freshTemp
    (hReady.advance hAdv) hStart).mono id ?_
  exact fun o st' hRest => ⟨hAdv.trans hRest.1, hRest.2⟩

theorem node_save (t : Symbol) (p : Pending) :
    (save t p).node = p.node >>= fun n => pure (.assign p.span (.temp p.span t) n) := by
  have hRun : (save t p).run = p.node >>= fun n =>
      pure ⟨.assign p.span (.temp p.span t) n, false⟩ := rfl
  rw [node, hRun, bind_assoc]
  rfl

/-- To save a value leads where the value does. -/
theorem Leads.save {p : Pending} (h : p.Leads C S S') (t : Symbol) :
    (save t p).Leads C S S' := by
  intro st n st' hStart hRun
  rw [node_save, EStateM.run_bind] at hRun
  split at hRun
  · rename_i hNode
    cases hRun
    exact h st _ _ hStart hNode
  · cases hRun

theorem simulatesIn_savedCond {s : Span} {left : Pending} {body other : Option Pending}
    {c : Eval Symbol V V} {k k' : V → Option (Eval Symbol V V)} {t : Symbol} {st : NormalState}
    (hReady : C.Ready held st) (hStart : S st.scope) (hFree : held t = none)
    (hTemp : st.program.HasTemp t) (hLeft : left.Means C held c) (hLeads : left.Leads C S S')
    (hBody : ∀ v, C.OptionMeansIn E S' (held.keep t v) body (k v))
    (hOther : ∀ v, C.OptionMeansIn E S' (held.keep t v) other (k' v)) :
    (cond s .whenTrue (save t left) body other).SimulatesIn E C held (c >>= fun v =>
      if C.interp.truthy v then .branch C.interp (k v) else .branch C.interp (k' v))
      (fun _ => held) st :=
  simulatesIn_cond hReady hStart (fun v => (hReady.keep hTemp v).held)
    (fun v => Held.extends_keep hFree v) (simulatesFrom_save hLeft hReady).simulatesIn
    (hLeads.save t) hBody hOther

/-! ## `and` and `or` -/

/-- Nothing is noticed of how often it runs. -/
def Quiet (c : Eval Symbol V V) : Prop := ∀ m, ∃ v, c.on m = (.ok v, m)

theorem Quiet.bind_congr {c : Eval Symbol V V} (h : Quiet c) {f g : V → Eval Symbol V V}
    (hEq : ∀ v m, c.on m = (.ok v, m) → (f v).on m = (g v).on m) : c >>= f = c >>= g := by
  funext m
  obtain ⟨v, hv⟩ := h m
  show (c >>= f).on m = (c >>= g).on m
  rw [Eval.on_bind_of_ok hv, Eval.on_bind_of_ok hv, hEq v m hv]

theorem isRepeatable_of_plainVar? {n : Node} (h : n.plainVar?.isSome = true) :
    isRepeatable n = true := by
  obtain ⟨v, hv⟩ := Option.isSome_iff_exists.mp h
  obtain ⟨⟨s, rfl⟩, _⟩ := (n.plainVar?_eq_some_iff v).mp hv
  exact h

/-- The right operand may escape, and starts where the left one leads. -/
theorem meansIn_and (s : Span) {left right : Pending} {c d : Eval Symbol V V}
    (hQuiet : isRepeatable left.source = true → Quiet c) (hLeft : left.Means C held c)
    (hLeads : left.Leads C S S') (hRight : right.MeansIn E S' C held d) :
    (and s left right).MeansIn E S C held (.logic C.interp .and c d) := by
  intro held' hExtends st hReady hStart
  have hLeft' := hLeft.extend hExtends
  have hRight' := hRight.extend hExtends
  by_cases hRepeat : isRepeatable left.source = true
  · -- the left operand runs twice where it decides, and nobody can tell
    have hRun : (and s left right).run = (cond s .whenTrue left (some right) (some left)).run :=
      if_pos hRepeat
    have hLogic : Eval.logic C.interp .and c d =
        Eval.cond C.interp .whenTrue c (some d) (some c) := by
      apply (hQuiet hRepeat).bind_congr
      intro v m hv
      cases h : C.interp.truthy v <;> simp [Eval.branch, hv, Eval.on_pure]
    rw [SimulatesIn, hRun, hLogic]
    exact meansIn_cond s .whenTrue hLeft' hLeads (.some hRight') (.some hLeft'.anywhere) held'
      (.refl _) st hReady hStart
  · refine simulatesIn_fresh (fun t => cond s .whenTrue (save t left) (some right)
      (some (temp left.span t))) hReady hStart (if_neg hRepeat)
      fun t st' hFree hTemp hReady' hStart' => ?_
    have hLogic : Eval.logic C.interp .and c d = c >>= fun v => if C.interp.truthy v then
        .branch C.interp (some d) else .branch C.interp (some (pure v)) := by
      simp [Eval.logic, Eval.branch]
    rw [hLogic]
    refine simulatesIn_savedCond hReady' hStart' hFree hTemp hLeft' hLeads (fun v => ?_) fun v => ?_
    · exact .some (hRight'.extend (Held.extends_keep hFree v))
    · exact .some (means_temp _ (by simp [Held.keep])).anywhere

theorem meansIn_or (s : Span) {left right : Pending} {c d : Eval Symbol V V}
    (hQuiet : isRepeatable left.source = true → Quiet c) (hLeft : left.Means C held c)
    (hLeads : left.Leads C S S') (hRight : right.MeansIn E S' C held d) :
    (or s left right).MeansIn E S C held (.logic C.interp .or c d) := by
  intro held' hExtends st hReady hStart
  have hLeft' := hLeft.extend hExtends
  have hRight' := hRight.extend hExtends
  by_cases hRepeat : left.source.plainVar?.isSome = true
  · have hRun : (or s left right).run = (cond s .whenTrue left (some left) (some right)).run :=
      if_pos hRepeat
    have hLogic : Eval.logic C.interp .or c d =
        Eval.cond C.interp .whenTrue c (some c) (some d) := by
      apply (hQuiet (isRepeatable_of_plainVar? hRepeat)).bind_congr
      intro v m hv
      cases h : C.interp.truthy v <;> simp [Eval.branch, hv, Eval.on_pure]
    rw [SimulatesIn, hRun, hLogic]
    exact meansIn_cond s .whenTrue hLeft' hLeads (.some hLeft'.anywhere) (.some hRight') held'
      (.refl _) st hReady hStart
  · refine simulatesIn_fresh (fun t => cond s .whenTrue (save t left)
      (some (temp left.span t)) (some right)) hReady hStart (if_neg hRepeat)
      fun t st' hFree hTemp hReady' hStart' => ?_
    have hLogic : Eval.logic C.interp .or c d = c >>= fun v => if C.interp.truthy v then
        .branch C.interp (some (pure v)) else .branch C.interp (some d) := by
      unfold Eval.logic
      congr 1
      funext v
      cases h : C.interp.truthy v <;> simp [Eval.branch]
    rw [hLogic]
    refine simulatesIn_savedCond hReady' hStart' hFree hTemp hLeft' hLeads (fun v => ?_) fun v => ?_
    · exact .some (means_temp _ (by simp [Held.keep])).anywhere
    · exact .some (hRight'.extend (Held.extends_keep hFree v))

end Pending

end CoreTree

import CoreTree.Proofs.Renaming.Pairing
import CoreTree.Proofs.Requires.Answers

/-! # Actions side by side

Two actions agree if they do the same in two programs: either both fail with the same error, or both
succeed, the scopes are the same up to the names in them, and what one gives corresponds to what the
other does. Whether they fail or not, the programs are on a level afterwards.
-/
namespace CoreTree
set_option autoImplicit false

namespace Pairing

variable {α β : Type} (P : Pairing)

abbrev SameScope (scope scope' : Scope) : Prop := Scope.Renamed P.rename P.names scope scope'

/-- One is the other under every renaming that fits. -/
def Same (f : Renaming → α → α) (p p' : Program) (a a' : α) : Prop :=
  ∀ g, P.Fits p p' g → a' = f g a

/-- What comes of two actions that were run from these states. `Q` relates what they give. -/
inductive SameResult (Q : Program → Program → α → α → Prop) (st st' : NormalState) :
    EStateM.Result NormalizeError NormalState α → EStateM.Result NormalizeError NormalState α →
      Prop where
  | ok {a a' : α} {u u' : NormalState}
    (hReaches : P.Reaches st.program st'.program u.program u'.program)
    (hScope : P.SameScope u.scope u'.scope) (h : Q u.program u'.program a a') :
    SameResult Q st st' (.ok a u) (.ok a' u')
  | error {e : NormalizeError} {u u' : NormalState}
    (hReaches : P.Reaches st.program st'.program u.program u'.program) :
    SameResult Q st st' (.error e u) (.error e u')

/-- Whenever the programs have got beyond `p` and `p'`, the actions do the same. -/
def Agrees (p p' : Program) (act act' : Norm α) (Q : Program → Program → α → α → Prop) : Prop :=
  ∀ st st', P.Reaches p p' st.program st'.program → P.SameScope st.scope st'.scope →
    P.SameResult Q st st' (act.run st) (act'.run st')

variable {P} {p p' q q' : Program} {act act' : Norm α} {Q : Program → Program → α → α → Prop}
  {R : Program → Program → β → β → Prop}

theorem Same.later {f : Renaming → α → α} {a a' : α} (h : P.Same f p p' a a')
    (hReaches : P.Reaches p p' q q') : P.Same f q q' a a' :=
  fun g hg => h g (hg.of_reaches hReaches)

theorem Agrees.later (h : P.Agrees p p' act act' Q) (hReaches : P.Reaches p p' q q') :
    P.Agrees q q' act act' Q := fun st st' hSt => h st st' (hReaches.trans hSt)

/-- It is enough to look at programs on a level. -/
theorem agrees_of_level (h : ∀ q q', P.Reaches p p' q q' → P.Agrees q q' act act' Q) :
    P.Agrees p p' act act' Q := fun st st' hSt =>
  h st.program st'.program hSt st st' hSt.level.refl

theorem agrees_pure {a a' : α} (h : ∀ q q', P.Reaches p p' q q' → Q q q' a a') :
    P.Agrees p p' (pure a) (pure a') Q := fun _ _ hSt hScope =>
  .ok hSt.level.refl hScope (h _ _ hSt)

theorem Agrees.bind {f f' : α → Norm β} (h : P.Agrees p p' act act' Q)
    (hNext : ∀ a a' q q', P.Reaches p p' q q' → Q q q' a a' → P.Agrees q q' (f a) (f' a') R) :
    P.Agrees p p' (act >>= f) (act' >>= f') R := by
  intro st st' hSt hScope
  have hFirst := h st st' hSt hScope
  rw [EStateM.run_bind, EStateM.run_bind]
  cases hRun : act.run st <;> cases hRun' : act'.run st' <;> rw [hRun, hRun'] at hFirst
  case ok.ok a u a' u' =>
    obtain ⟨hReaches, hScope', ha⟩ := hFirst
    have hRest := hNext a a' _ _ (hSt.trans hReaches) ha u u' hReaches.level.refl hScope'
    dsimp only
    cases hEnd : (f a).run u <;> cases hEnd' : (f' a').run u' <;> rw [hEnd, hEnd'] at hRest
    case ok.ok =>
      obtain ⟨hReaches', hScope'', hb⟩ := hRest
      exact .ok (hReaches.trans hReaches') hScope'' hb
    case error.error =>
      cases hRest with
      | error hReaches' => exact .error (hReaches.trans hReaches')
    all_goals cases hRest
  case error.error =>
    cases hFirst with
    | error hReaches => exact .error hReaches
  all_goals cases hFirst

/-! ## Steps -/

theorem agrees_getScope :
    P.Agrees p p' Norm.getScope Norm.getScope fun _ _ scope scope' => P.SameScope scope scope' :=
  fun _ _ hSt hScope => .ok hSt.level.refl hScope hScope

theorem agrees_setScope {scope scope' : Scope} (h : P.SameScope scope scope') :
    P.Agrees p p' (Norm.setScope scope) (Norm.setScope scope') fun _ _ _ _ => True :=
  fun _ _ hSt _ => .ok hSt.level.refl h trivial

theorem agrees_onProgram {f f' : Program → α × Program}
    (h : ∀ q q', P.Reaches p p' q q' →
      P.Reaches q q' (f q).2 (f' q').2 ∧ Q (f q).2 (f' q').2 (f q).1 (f' q').1) :
    P.Agrees p p' (Norm.onProgram f) (Norm.onProgram f') Q := fun _ _ hSt hScope =>
  .ok (h _ _ hSt).1 hScope (h _ _ hSt).2

theorem agrees_freshTemp :
    P.Agrees p p' Norm.freshTemp Norm.freshTemp (P.Same Renaming.name) :=
  agrees_onProgram fun _ _ hReaches => hReaches.level.freshTemp

theorem agrees_regexConstant {text : Symbol} (hText : text ∈ P.texts) (s : Span) :
    P.Agrees p p' (Norm.onProgram (·.regexConstant text s))
      (Norm.onProgram (·.regexConstant (P.rename text) s)) (P.Same Renaming.name) :=
  agrees_onProgram fun _ _ hReaches => hReaches.level.regexConstant hText s

theorem agrees_genericType {base : Symbol} (hBase : base.id < commonNames.length)
    {args args' : List TypeArg} (h : P.Same (fun g => List.map (·.rename g)) p p' args args') :
    P.Agrees p p' (Norm.onProgram (·.genericType base args))
      (Norm.onProgram (·.genericType base args')) (P.Same Renaming.type) := by
  refine agrees_onProgram fun q q' hReaches => hReaches.level.genericType fun g hg => ?_
  rw [h.later hReaches g hg]
  exact congrArg (GenericType.mk · (args.map (·.rename g))) (hg.common hBase).symm

theorem agrees_writeVar {v : Var} (hv : v.name ∈ P.names) :
    P.Agrees p p' (Norm.writeVar v) (Norm.writeVar { v with name := P.rename v.name })
      (P.Same Var.rename) := by
  intro st st' hSt hScope
  obtain ⟨hVersion, hWritten⟩ := hScope.write P.increasing hv
  have hVar : P.Same Var.rename st.program st'.program
      { v with version := (st.scope.write v.name).1 }
      { v with name := P.rename v.name, version := (st'.scope.write (P.rename v.name)).1 } := by
    intro g hg
    rw [hVersion, Var.rename, hSt.level.name_of_mem hg hv]
  exact .ok hSt.level.refl hWritten hVar

theorem agrees_useVar (s : Span) {v : Var} (hv : v.name ∈ P.names) :
    P.Agrees p p' (Norm.useVar s v) (Norm.useVar s { v with name := P.rename v.name })
      (P.Same Var.rename) := by
  unfold Norm.useVar
  dsimp only
  split
  · exact agrees_writeVar hv
  · refine agrees_getScope.bind fun scope scope' q q' _ hScope => ?_
    rw [hScope.readVersion? P.increasing hv]
    cases scope.readVersion? v.name with
    | some version =>
      refine agrees_pure fun r r' hr g hg => ?_
      simp only [Var.rename, hr.level.name_of_mem hg hv]
    | none =>
      intro st st' hSt _
      obtain ⟨name, hText, hText', -⟩ := hSt.level.names v.name hv
      have hSpelled : st'.program.names.text (P.rename v.name) = st.program.names.text v.name := by
        rw [SymbolTable.text, SymbolTable.text, hText, hText']
      show P.SameResult _ st st' (.error _ st) (.error (.unbound
        (st'.program.names.text (P.rename v.name)) s) st')
      rw [hSpelled]
      exact .error hSt.level.refl

theorem Agrees.inScope (h : P.Agrees p p' act act' Q) {scope scope' : Scope}
    (hScope : P.SameScope scope scope') :
    P.Agrees p p' (Norm.inScope scope act) (Norm.inScope scope' act') Q := by
  intro st st' hSt hOuter
  have hInner := h ⟨st.program, scope⟩ ⟨st'.program, scope'⟩ hSt hScope
  rw [Norm.run_inScope, Norm.run_inScope]
  cases hRun : act.run ⟨st.program, scope⟩ <;> cases hRun' : act'.run ⟨st'.program, scope'⟩ <;>
    rw [hRun, hRun'] at hInner
  case ok.ok =>
    obtain ⟨hReaches, -, ha⟩ := hInner
    exact .ok hReaches hOuter ha
  case error.error =>
    cases hInner with
    | error hReaches => exact .error hReaches
  all_goals cases hInner

end Pairing

end CoreTree

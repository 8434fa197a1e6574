import CoreTree.Proofs.Reads.Known
import CoreTree.Proofs.Reads.Walk
import CoreTree.Proofs.Runs.Steps

/-! # Code that follows a walk

A relation between code and walks, closed under composition: from any state, the code runs through
if the walk does that starts from the names known to the scope, which afterwards knows the names
that are bound then; and if the walk stops at a read, the code fails there.
-/
namespace CoreTree
set_option autoImplicit false

namespace Code

variable {α β γ δ : Type} {answer : RequireHandler} {st : NormalState}

/-- `Q` relates what the code and the walk return, and the state that the code leaves behind. -/
structure Follows (answer : RequireHandler) (c : Code α) (st : NormalState) (w : Walk β)
    (Q : α → NormalState → β → Prop) : Prop where
  ok : ∀ a st', (c.denote answer).run st = .ok a st' → st.program.Extends st'.program ∧
    ∃ b, w.run st.scope.known = .ok (b, st'.scope.known) ∧ Q a st' b
  error : ∀ e st', (c.denote answer).run st = .error e st' → st.program.Extends st'.program ∧
    ∃ read, w.run st.scope.known = .error read ∧
      e = .unbound (st'.program.names.text read.name) read.span

variable {c : Code α} {w : Walk β} {Q : α → NormalState → β → Prop}

theorem follows_of_ok {a : α} {st' : NormalState} {b : β}
    (hRun : (c.denote answer).run st = .ok a st') (hExtends : st.program.Extends st'.program)
    (hWalk : w.run st.scope.known = .ok (b, st'.scope.known)) (hb : Q a st' b) :
    c.Follows answer st w Q where
  ok x st'' hOk := by
    cases hRun.symm.trans hOk
    exact ⟨hExtends, b, hWalk, hb⟩
  error e st'' hError := nomatch hRun.symm.trans hError

theorem follows_of_error {st' : NormalState} {read : Read}
    (hWalk : w.run st.scope.known = .error read)
    (hRun : (c.denote answer).run st =
      .error (.unbound (st'.program.names.text read.name) read.span) st')
    (hExtends : st.program.Extends st'.program) : c.Follows answer st w Q where
  ok a st'' hOk := nomatch hRun.symm.trans hOk
  error e st'' hError := by
    cases hRun.symm.trans hError
    exact ⟨hExtends, read, hWalk, rfl⟩

theorem follows_pure {a : α} {b : β} (h : Q a st b) :
    (Pure.pure a : Code α).Follows answer st (Pure.pure b : Walk β) Q :=
  follows_of_ok rfl (.refl _) rfl h

/-- Code that begins with a step that cannot fail goes on from where the step leads. -/
theorem Follows.of_step {d : Code α} {w' : Walk β} {st' : NormalState}
    (h : d.Follows answer st' w' Q) (hExtends : st.program.Extends st'.program)
    (hRun : (c.denote answer).run st = (d.denote answer).run st')
    (hWalk : w.run st.scope.known = w'.run st'.scope.known) : c.Follows answer st w Q where
  ok a st'' hOk := by
    obtain ⟨hExtends', b, hWalk', hb⟩ := h.ok a st'' (hRun.symm.trans hOk)
    exact ⟨hExtends.trans hExtends', b, hWalk.trans hWalk', hb⟩
  error e st'' hError := by
    obtain ⟨hExtends', read, hWalk', he⟩ := h.error e st'' (hRun.symm.trans hError)
    exact ⟨hExtends.trans hExtends', read, hWalk.trans hWalk', he⟩

theorem Follows.bind {f : α → Code γ} {g : β → Walk δ} {R : γ → NormalState → δ → Prop}
    (h : c.Follows answer st w Q)
    (hNext : ∀ a st' b, Q a st' b → (f a).Follows answer st' (g b) R) :
    (c >>= f).Follows answer st (w >>= g) R := by
  cases hFirst : (c.denote answer).run st with
  | ok a st' =>
    obtain ⟨hExtends, b, hWalk, hb⟩ := h.ok a st' hFirst
    have hRun : ((c >>= f).denote answer).run st = ((f a).denote answer).run st' := by
      rw [denote_bind, EStateM.run_bind, hFirst]
    exact (hNext a st' b hb).of_step hExtends hRun (Walk.ok_bind w g hWalk)
  | error e st' =>
    obtain ⟨hExtends, read, hWalk, rfl⟩ := h.error e st' hFirst
    have hRun : ((c >>= f).denote answer).run st =
        .error (.unbound (st'.program.names.text read.name) read.span) st' := by
      rw [denote_bind, EStateM.run_bind, hFirst]
    exact follows_of_error (Walk.error_bind w g hWalk) hRun hExtends

theorem Follows.map {f : α → γ} {R : γ → NormalState → β → Prop} (h : c.Follows answer st w Q)
    (hQ : ∀ a st' b, Q a st' b → R (f a) st' b) :
    (c >>= fun a => Pure.pure (f a)).Follows answer st w R := by
  rw [← bind_pure w]
  exact h.bind fun a st' b hb => follows_pure (hQ a st' b hb)

/-- A walk may drop what it returns. -/
theorem Follows.dropping (h : c.Follows answer st w Q) {d : δ} :
    c.Follows answer st (w >>= fun _ => Pure.pure d) fun _ _ _ => True where
  ok a st' hRun := by
    obtain ⟨hExtends, b, hWalk, -⟩ := h.ok a st' hRun
    exact ⟨hExtends, d, Walk.ok_bind w _ hWalk, trivial⟩
  error e st' hRun := by
    obtain ⟨hExtends, read, hWalk, he⟩ := h.error e st' hRun
    exact ⟨hExtends, read, Walk.error_bind w _ hWalk, he⟩

/-- What the scope knows is known afterwards, if the walk keeps what is bound. -/
theorem Follows.keeps (h : c.Follows answer st w Q) (hKeeps : w.Keeps) :
    c.Follows answer st w fun a st' b => Q a st' b ∧ st.scope.known ⊆ st'.scope.known where
  ok a st' hRun := by
    obtain ⟨hExtends, b, hWalk, hb⟩ := h.ok a st' hRun
    exact ⟨hExtends, b, hWalk, hb, hKeeps _ _ _ hWalk⟩
  error := h.error

/-! ## Steps that call nothing -/

section

variable {f : α → Code γ} {R : γ → NormalState → β → Prop}

theorem follows_getScope_bind {f : Scope → Code γ} (h : (f st.scope).Follows answer st w R) :
    (getScope >>= f).Follows answer st w R := h.of_step (.refl _) rfl rfl

/-- The walk goes to the names that the new scope knows. -/
theorem follows_setScope_bind {scope : Scope} {f : Unit → Code γ} (w' : Walk β)
    (hWalk : w.run st.scope.known = w'.run scope.known)
    (h : (f ()).Follows answer ⟨st.program, scope⟩ w' R) :
    (setScope scope >>= f).Follows answer st w R := h.of_step (.refl _) rfl hWalk

theorem follows_noteBridges_bind {bridges : List Bridge} {f : Unit → Code γ}
    (h : (f ()).Follows answer st w R) : (noteBridges bridges >>= f).Follows answer st w R :=
  h.of_step (.refl _) rfl rfl

theorem follows_noteParams_bind {params : List Symbol} {f : Unit → Code γ}
    (h : (f ()).Follows answer st w R) : (noteParams params >>= f).Follows answer st w R :=
  h.of_step (.refl _) rfl rfl

theorem follows_allocate_bind {act : Norm α} {hAct : act.Allocating}
    (h : ∀ a q, (f a).Follows answer ⟨q, st.scope⟩ w R) :
    (Code.act (.allocate act hAct) >>= f).Follows answer st w R := by
  obtain ⟨a, q, hExtends, hRun⟩ := hAct st.program
  refine (h a q).of_step hExtends ?_ rfl
  show (act >>= fun a => (f a).denote answer).run st = _
  rw [EStateM.run_bind, show act.run st = _ from hRun st.scope]

end

theorem follows_write (v : Var) :
    (Code.act (.write v)).Follows answer st (Walk.bindName v.name) fun _ _ _ => True := by
  have hKnown := (Scope.known_write st.scope v.name).symm
  exact follows_of_ok rfl (.refl _) (congrArg (fun known => Except.ok ((), known)) hKnown) trivial

/-- The only step that may fail. -/
theorem follows_read (s : Span) (v : Var) :
    (Code.act (.read s v)).Follows answer st (Walk.read s v.name) fun _ _ _ => True := by
  have hRun : ((Code.act (.read s v)).denote answer).run st = _ := Act.run_read s v st
  have hKnown : v.name ∈ st.scope.known ↔ st.scope.readVersion? v.name ≠ none := by
    rw [ne_eq, Scope.readVersion?_eq_none_iff, ← Scope.not_mem_known_iff, not_not]
  cases hVersion : st.scope.readVersion? v.name with
  | some version =>
    have hWalk : (Walk.read s v.name).run st.scope.known = .ok ((), st.scope.known) := by
      rw [Walk.run_read, if_pos (hKnown.mpr (by simp [hVersion]))]
    rw [hVersion] at hRun
    exact follows_of_ok hRun (.refl _) hWalk trivial
  | none =>
    have hWalk : (Walk.read s v.name).run st.scope.known = .error ⟨v.name, s⟩ := by
      rw [Walk.run_read, if_neg fun h => hKnown.mp h hVersion]
    rw [hVersion] at hRun
    exact follows_of_error hWalk hRun (.refl _)

theorem follows_useVar (s : Span) (v : Var) :
    (useVar s v).Follows answer st (Walk.use s v) fun _ _ _ => True := by
  unfold useVar Walk.use
  split
  · exact follows_write v
  · exact follows_read s v

/-! ## Calls -/

/-- The normalizer follows the walk through the tree, from whatever state. -/
def Walks (answer : RequireHandler) (n : Node) : Prop :=
  ∀ st, (transform n).Follows answer st n.walk fun o _ ends => o.ends = ends

theorem Walks.node {n : Node} (h : Walks answer n) (st : NormalState) :
    (Code.node n).Follows answer st n.walk fun _ _ _ => True := (h st).map fun _ _ _ _ => trivial

theorem follows_optionNode {n : Option Node} (h : ∀ m, n = some m → Walks answer m)
    (st : NormalState) :
    (optionNode n).Follows answer st (walkOption n) fun _ _ _ => True := by
  cases n with
  | none =>
    rw [walkOption]
    exact follows_pure trivial
  | some n =>
    rw [walkOption]
    exact ((h n rfl).node st).map fun _ _ _ _ => trivial

theorem follows_nodes {ns : List Node} (h : ∀ n ∈ ns, Walks answer n) (st : NormalState) :
    (nodes ns).Follows answer st (walkList ns) fun _ _ _ => True := by
  induction ns generalizing st with
  | nil =>
    rw [walkList]
    exact follows_pure trivial
  | cons n ns ih =>
    rw [walkList]
    exact ((h n (.head _)).node st).bind fun m st' _ _ =>
      (ih (fun k hk => h k (.tail _ hk)) st').map fun _ _ _ _ => trivial

theorem follows_target {n : Node} (h : Walks answer n) (st : NormalState) :
    (Code.target n).Follows answer st (Walk.target n n.walk) fun _ _ _ => True := by
  cases n with
  | var s v => exact (follows_write v).map fun _ _ _ _ => trivial
  | _ => exact (h.node st).dropping

theorem follows_targets {ns : List Node} (h : ∀ n ∈ ns, Walks answer n) (st : NormalState) :
    (targets ns).Follows answer st (walkTargets ns) fun _ _ _ => True := by
  induction ns generalizing st with
  | nil =>
    rw [walkTargets]
    exact follows_pure trivial
  | cons n ns ih =>
    rw [walkTargets]
    exact (follows_target (h n (.head _)) st).bind fun m st' _ _ =>
      (ih (fun k hk => h k (.tail _ hk)) st').map fun _ _ _ _ => trivial

theorem follows_statements {ns : List Node} (h : ∀ n ∈ ns, Walks answer n) (st : NormalState) :
    (statements ns).Follows answer st (walkStatements ns) fun p _ ends => p.2 = ends := by
  induction ns generalizing st with
  | nil =>
    rw [walkStatements]
    exact follows_pure rfl
  | cons n ns ih =>
    rw [walkStatements]
    refine (h n (.head _) st).bind ?_
    rintro o st' _ rfl
    dsimp only
    split
    · exact follows_pure rfl
    · exact (ih (fun k hk => h k (.tail _ hk)) st').map fun _ _ _ hb => hb

theorem follows_entryNodes {es : List (HashEntry Node)}
    (h : ∀ e ∈ es, Walks answer e.key ∧ Walks answer e.value) (st : NormalState) :
    (entryNodes es).Follows answer st (walkEntries es) fun _ _ _ => True := by
  induction es generalizing st with
  | nil =>
    rw [walkEntries]
    exact follows_pure trivial
  | cons e es ih =>
    obtain ⟨hKey, hValue⟩ := h e (.head _)
    rw [walkEntries]
    exact (hKey.node st).bind fun _ st₁ _ _ => (hValue.node st₁).bind fun _ st₂ _ _ =>
      (ih (fun e' he' => h e' (.tail _ he')) st₂).map fun _ _ _ _ => trivial

theorem follows_apart {n : Node} (h : Walks answer n) (params : List Symbol) (st : NormalState) :
    (Code.apart params n).Follows answer st (Walk.apart params.toFinset n.walk)
      fun _ _ _ => True := by
  have hInner := h.node ⟨st.program, .ofParams params⟩
  have hRun : ((Code.apart params n).denote answer).run st = _ :=
    Norm.run_inScope (.ofParams params) ((Code.node n).denote answer) st
  have hWalk : (Walk.apart params.toFinset n.walk).run st.scope.known =
      (n.walk.run (Scope.ofParams params).known).map fun a => (a.1, st.scope.known) := by
    rw [Walk.run_apart, Scope.known_ofParams]
  cases hNode : ((Code.node n).denote answer).run ⟨st.program, .ofParams params⟩ with
  | ok m st' =>
    obtain ⟨hExtends, b, hRest, -⟩ := hInner.ok m st' hNode
    rw [hNode] at hRun
    exact follows_of_ok hRun hExtends (hWalk.trans (congrArg _ hRest)) trivial
  | error e st' =>
    obtain ⟨hExtends, read, hRest, rfl⟩ := hInner.error e st' hNode
    rw [hNode] at hRun
    exact follows_of_error (hWalk.trans (congrArg _ hRest)) hRun hExtends

theorem follows_optionApart {n : Option Node} (h : ∀ m, n = some m → Walks answer m)
    (params : List Symbol) (st : NormalState) :
    (optionApart params n).Follows answer st (Walk.apart params.toFinset (walkOption n))
      fun _ _ _ => True := by
  cases n with
  | none =>
    rw [walkOption, Walk.apart_pure]
    exact follows_pure trivial
  | some n =>
    rw [walkOption]
    exact (follows_apart (h n rfl) params st).map fun _ _ _ _ => trivial

theorem follows_assign {s : Span} {target value : Node} (hTarget : Walks answer target)
    (hValue : Walks answer value) (st : NormalState) :
    (assign s target value).Follows answer st
      (do let _ ← Walk.value target value.walk; Walk.target target target.walk; return false)
      fun o _ ends => o.ends = ends := by
  have hRest : ∀ (m : Node) (st' : NormalState),
      (Code.target target >>= fun n => Pure.pure ⟨.assign s n m, false⟩ : Code Outcome).Follows
        answer st' (do Walk.target target target.walk; return false)
        fun o _ ends => o.ends = ends := fun m st' =>
    (follows_target hTarget st').bind fun _ _ _ _ => follows_pure rfl
  cases target with
  | atom _ a =>
    cases a with
    | const _ => exact (follows_apart hValue [] st).bind fun m st' _ _ => hRest m st'
    | _ => exact (hValue.node st).bind fun m st' _ _ => hRest m st'
  | _ => exact (hValue.node st).bind fun m st' _ _ => hRest m st'

theorem follows_definePlain {s : Span} {kind : DefKind} {name : Symbol} {params : List Symbol}
    {body : Option Node} (h : ∀ m, body = some m → Walks answer m) (st : NormalState) :
    (definePlain s kind name params body).Follows answer st
      (do let _ ← Walk.apart params.toFinset (walkOption body); return false)
      fun o _ ends => o.ends = ends :=
  (follows_optionApart h params st).bind fun _ _ _ _ => follows_pure rfl

/-- Sugar follows the walk through what it stands for, whatever name that takes. -/
theorem follows_unfolded {saves : Bool} {meaning : Symbol → Node} {w : Walk Bool}
    (h : ∀ t, Walks answer (meaning t)) (hWalk : ∀ t, (meaning t).walk = w) (st : NormalState) :
    (unfolded saves meaning).Follows answer st w fun o _ ends => o.ends = ends := by
  unfold unfolded
  split
  · exact follows_allocate_bind fun t q => hWalk t ▸ h t ⟨q, st.scope⟩
  · exact hWalk .empty ▸ h .empty st

/-! ## Branches, loops and blocks -/

/-- The scope at the end of a branch, if there was one, is that of the state. -/
def EndsIn (st : NormalState) (e : Option BranchEnd) (st' : NormalState) : Prop :=
  match e with
  | none => st' = st
  | some b => st'.scope = b.scope

theorem follows_runBranch {n : Option Node} (h : ∀ m, n = some m → Walks answer m) {start : Scope}
    (st : NormalState) (hStart : start.known = st.scope.known) :
    (runBranch start n).Follows answer st (walkOption n) fun e st' ends =>
      (e.any (·.ends) = ends ∧ EndsIn st e st') ∧ st.scope.known ⊆ st'.scope.known := by
  refine Follows.keeps ?_ (keeps_walkOption n)
  cases n with
  | none =>
    rw [walkOption]
    exact follows_pure ⟨rfl, rfl⟩
  | some n =>
    rw [walkOption]
    refine follows_setScope_bind _ (congrArg _ hStart.symm) ?_
    rw [← bind_pure n.walk]
    refine (h n rfl _).bind fun o st' ends hEnds => ?_
    exact follows_getScope_bind (follows_pure ⟨hEnds, rfl⟩)

/-- Where the branches of a conditional meet, the names are known that the last branch to run
ended with. -/
theorem known_joinBranches_of_endsIn {st st₁ st₂ : NormalState} {thenEnd elseEnd : Option BranchEnd}
    {elseStart : Scope} (hThen : EndsIn st thenEnd st₁)
    (hThenGrows : st.scope.known ⊆ st₁.scope.known) (hStart : elseStart.known = st₁.scope.known)
    (hElse : EndsIn st₁ elseEnd st₂) (hElseGrows : st₁.scope.known ⊆ st₂.scope.known) :
    (Scope.joinBranches st.scope (thenEnd.map (·.scope)) elseStart
      (elseEnd.map (·.scope))).scope.known = st₂.scope.known := by
  have hThenKnown : ((thenEnd.map (·.scope)).getD st.scope).known = st₁.scope.known := by
    cases thenEnd with
    | none => exact congrArg (·.scope.known) hThen.symm
    | some b => exact congrArg Scope.known hThen.symm
  rw [Scope.known_joinBranches]
  · cases elseEnd with
    | none =>
      obtain rfl : st₂ = st₁ := hElse
      exact hThenKnown
    | some b => exact congrArg Scope.known hElse.symm
  · intro s hs
    rw [hs, Option.getD_some] at hThenKnown
    exact hThenKnown ▸ hThenGrows
  · exact hStart.trans hThenKnown.symm
  · intro s hs
    obtain ⟨b, rfl, rfl⟩ := Option.map_eq_some_iff.mp hs
    have hEnd : st₂.scope = b.scope := hElse
    rw [hStart, ← hEnd]
    exact hElseGrows

theorem follows_ifElse {s : Span} {test : Node} {onTrue onFalse : Option Node}
    (hTest : Walks answer test) (hTrue : ∀ m, onTrue = some m → Walks answer m)
    (hFalse : ∀ m, onFalse = some m → Walks answer m) (st : NormalState) :
    (ifElse s test onTrue onFalse).Follows answer st
      (do let _ ← test.walk; Walk.branches (walkOption onTrue) (walkOption onFalse))
      fun o _ ends => o.ends = ends := by
  refine (hTest.node st).bind fun testNode st₀ _ _ => follows_getScope_bind ?_
  refine (follows_runBranch hTrue st₀ rfl).bind ?_
  rintro thenEnd st₁ _ ⟨⟨rfl, hThen⟩, hThenGrows⟩
  have hStart : (thenEnd.elim st₀.scope fun e => Scope.elseStart st₀.scope e.scope).known =
      st₁.scope.known := by
    cases thenEnd with
    | none => exact congrArg (·.scope.known) hThen.symm
    | some b => exact (Scope.known_elseStart _ _).trans (congrArg Scope.known hThen.symm)
  refine (follows_runBranch hFalse st₁ hStart).bind ?_
  rintro elseEnd st₂ _ ⟨⟨rfl, hElse⟩, hElseGrows⟩
  refine follows_noteBridges_bind (follows_setScope_bind _ (congrArg _
    (known_joinBranches_of_endsIn hThen hThenGrows hStart hElse hElseGrows).symm) ?_)
  exact follows_allocate_bind fun _ _ => follows_allocate_bind fun _ _ => follows_pure rfl

theorem follows_loop {s : Span} {test : Node} {body : Option Node} (hTest : Walks answer test)
    (hBody : ∀ m, body = some m → Walks answer m) (st : NormalState) :
    (loop s test body).Follows answer st
      (do let _ ← test.walk; let _ ← walkOption body; return false)
      fun o _ ends => o.ends = ends := by
  refine follows_getScope_bind ((hTest.node st).bind fun testNode st₁ _ _ => ?_)
  refine follows_getScope_bind ((follows_runBranch hBody st₁ rfl).bind ?_)
  rintro e st₂ _ -
  refine follows_getScope_bind (follows_noteBridges_bind (follows_setScope_bind _ (congrArg _
    (Scope.known_rewindLoop st₁.scope st₂.scope).symm) ?_))
  exact follows_pure rfl

theorem follows_runBlock {s : Span} {params : List Symbol} {body : Option Node}
    (hBody : ∀ m, body = some m → Walks answer m) (st : NormalState) :
    (runBlock s ⟨params, body⟩).Follows answer st (Walk.withParams params (walkOption body))
      fun _ _ _ => True := by
  have hBound : (Scope.bindParams st.scope params).2.known = st.scope.known ∪ params.toFinset :=
    Scope.known_bindParams st.scope params
  refine follows_getScope_bind (follows_noteParams_bind (follows_setScope_bind (do
    let ends ← walkOption body
    modify (· \ (params.toFinset \ st.scope.known))
    return ends) (hBound ▸ rfl) ?_))
  refine (follows_runBranch hBody ⟨st.program, _⟩ rfl).bind ?_
  rintro e st₁ ends ⟨-, hGrows⟩
  have hOuter : st.scope.known ⊆ st₁.scope.known :=
    (Finset.subset_union_left.trans hBound.ge).trans hGrows
  have hNow : ∀ bridges, (Scope.rewindBlock (Scope.unbindParams st₁.scope
      (Scope.bindParams st.scope params).1) bridges).known =
        st₁.scope.known \ (params.toFinset \ st.scope.known) := fun bridges =>
    (Scope.known_rewindBlock _ bridges).trans (Scope.known_unbindParams hOuter params)
  refine follows_getScope_bind (follows_noteBridges_bind (follows_setScope_bind
    (Pure.pure ends) (congrArg (fun known => Except.ok (ends, known)) (hNow _).symm) ?_))
  exact follows_allocate_bind fun _ _ => follows_pure trivial

theorem follows_optionBlock {s : Span} {b : Option (Block Node)}
    (h : ∀ m, b.bind (·.body) = some m → Walks answer m) (st : NormalState) :
    (optionBlock s b).Follows answer st (b.elim (return false) fun b =>
      Walk.withParams b.params (walkOption b.body)) fun _ _ _ => True := by
  cases b with
  | none => exact follows_pure trivial
  | some b => exact (follows_runBlock h st).map fun _ _ _ _ => trivial

theorem follows_call (s : Span) {receiver : Option Node} (name : Symbol) {args : List Node}
    {block : Option (Block Node)} (hReceiver : ∀ m, receiver = some m → Walks answer m)
    (hArgs : ∀ m ∈ args, Walks answer m)
    (hBlock : ∀ m, block.bind (·.body) = some m → Walks answer m) (st : NormalState) :
    (call s receiver name args block).Follows answer st
      (do
        let _ ← walkOption receiver
        walkList args
        let _ ← block.elim (return false) fun b => Walk.withParams b.params (walkOption b.body)
        return false)
      fun o _ ends => o.ends = ends :=
  (follows_optionNode hReceiver st).bind fun _ st₁ _ _ =>
    (follows_nodes hArgs st₁).bind fun _ st₂ _ _ =>
      (follows_optionBlock hBlock st₂).bind fun _ _ _ _ => follows_pure rfl

end Code

end CoreTree

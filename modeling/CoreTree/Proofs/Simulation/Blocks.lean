import CoreTree.Proofs.Simulation.Branches

/-! # Blocks that simulate

A run of a block starts and ends in agreement at the scope where its call stands, so the callee
may run it any number of times. In between the parameters are variables like any other.
-/
namespace CoreTree
set_option autoImplicit false

variable {V : Type} {C : Setting V} {held : Held V}

/-! ## Parameters -/

namespace Setting

def binding (C : Setting V) (params : List Symbol) : Setting V :=
  { C with names := {x | x ∈ params ∨ x ∈ C.names} }

theorem binding_cons (C : Setting V) (p : Symbol) (params : List Symbol) :
    (C.binding [p]).binding params = C.binding (p :: params) := by
  have hNames : {x | x ∈ params ∨ x ∈ [p] ∨ x ∈ C.names} = {x | x ∈ p :: params ∨ x ∈ C.names} := by
    ext x
    simp only [Set.mem_ofPred_eq, List.mem_cons, List.not_mem_nil]
    tauto
  exact congrArg (fun names => { C with names }) hNames

def paramCell (p : Symbol) : Cell := (p, 0)

theorem Agree.unbind {params : List Symbol} {s : Scope} {m : Machine Symbol V}
    {w : Machine Cell V} (h : (C.binding params).Agree held s m w) : C.Agree held s m w :=
  ⟨fun x hx => h.reads x (.inr hx), fun x hx => h.unset x (.inr hx), h.temps, h.world⟩

theorem Agree.bindParam {s : Scope} {m : Machine Symbol V} {w : Machine Cell V}
    (h : C.Agree held s m w) (p : Symbol) (v : V) :
    (C.binding [p]).Agree held (s.insert p .fresh)
      { m with locals := Function.update m.locals p v }
      { w with locals := Function.update w.locals (paramCell p) v } where
  reads x hx r hr := by
    by_cases hEq : x = p
    · subst hEq
      rw [Scope.reads, SymbolMap.get?_insert, if_pos rfl] at hr
      cases hr
      simp [paramCell]
    · have hx : x ∈ C.names := hx.resolve_left (by simpa using hEq)
      rw [Scope.reads, SymbolMap.get?_insert, if_neg hEq] at hr
      simpa [paramCell, Function.update_apply, hEq] using h.reads x hx r hr
  unset x hx hr := by
    by_cases hEq : x = p
    · subst hEq
      rw [Scope.reads, SymbolMap.get?_insert, if_pos rfl] at hr
      cases hr
    · have hx : x ∈ C.names := hx.resolve_left (by simpa using hEq)
      rw [Scope.reads, SymbolMap.get?_insert, if_neg hEq] at hr
      simpa [paramCell, Function.update_apply, hEq, binding] using h.unset x hx hr
  temps := h.temps
  world := h.world

theorem Agree.bindParams {s : Scope} {m : Machine Symbol V} {w : Machine Cell V}
    (h : C.Agree held s m w) (params : List Symbol) (args : List V) :
    Related (fun _ => (C.binding params).Agree held (Scope.bindParams s params).2)
      ((Eval.bindParams C.interp params args).on m)
      ((Eval.bindParams C.interp (params.map paramCell) args).on w) := by
  induction params generalizing C s m w args with
  | nil =>
    refine .value ⟨fun x hx => h.reads x ?_, fun x hx => h.unset x ?_, h.temps, h.world⟩
    · simpa [binding] using hx
    · simpa [binding] using hx
  | cons p ps ih =>
    have hRest := ih (h.bindParam p (args.headD C.interp.nil)) args.tail
    rw [binding_cons] at hRest
    exact hRest

theorem Bridged.unbind {params : List Symbol} {s : Scope} {bridges : List Bridge}
    {m : Machine Symbol V} {w : Machine Cell V}
    (h : (C.binding params).Bridged held s bridges m w) : C.Bridged held s bridges m w := by
  obtain ⟨locals, hLocals, hAgree⟩ := h
  exact ⟨locals, hLocals, hAgree.unbind⟩

/-- What the parameters hid is back, and nothing else has changed. -/
theorem Agree.restore {s : Scope} {m : Machine Symbol V} {w : Machine Cell V}
    (h : C.Agree held s m w) {params : List Symbol} (hParams : ∀ p ∈ params, p ∉ C.names)
    (outer : Symbol → V) (outer' : Cell → V) :
    Related (fun _ => C.Agree held s) ((Eval.restore params outer).on m)
      ((Eval.restore (params.map paramCell) outer').on w) := by
  have hNamed : ∀ x ∈ C.names, x ∉ params := fun x hx hMem => hParams x hMem hx
  have hCell : ∀ x ∈ C.names, ∀ v, ((x, v) : Cell) ∉ params.map paramCell := by
    intro x hx v hMem
    obtain ⟨p, hp, hEq⟩ := List.mem_map.mp hMem
    cases hEq
    exact hNamed _ hx hp
  refine .value ⟨fun x hx r hr => ?_, fun x hx hr => ?_, h.temps, h.world⟩
  · have hRead := h.reads x hx r hr
    exact (if_neg (hCell x hx r)).trans (hRead.trans (if_neg (hNamed x hx)).symm)
  · obtain ⟨hName, hVersions⟩ := h.unset x hx hr
    refine ⟨(if_neg (hNamed x hx)).trans hName, fun v => ?_⟩
    exact (if_neg (hCell x hx v)).trans (hVersions v)

end Setting

theorem Setting.Ready.bindParams {st : NormalState} (h : C.Ready held st) (params : List Symbol) :
    (C.binding params).Ready held { st with scope := (Scope.bindParams st.scope params).2 } where
  sound x hx v r hv hr := by
    rw [Scope.get?_bindParams] at hv
    split at hv
    · cases hv
      cases hr
      exact Nat.one_pos
    · rename_i hMem
      exact h.sound x (hx.resolve_left hMem) v r hv hr
  bound hAgain x hx := by
    rw [Scope.reads, Scope.get?_bindParams]
    split
    · rfl
    · rename_i hMem
      exact h.bound hAgain x (hx.resolve_left hMem)
  held := h.held

/-! ## One block -/

theorem on_runBlock {K : Type} [DecidableEq K] (I : Interp V) (ks : List K)
    (body : Option (Eval K V V)) (args : List V) (m : Machine K V) :
    (Eval.runBlock I ks body args).on m = (Eval.bindParams I ks args >>= fun _ =>
      (Eval.branch I body).attempt >>= fun exit => Eval.restore ks m.locals >>= fun _ =>
        match exit with
        | .ok v | .error (.jump .next v) => pure v
        | .error e => throw e).on m := rfl

/-- Every run of the block keeps the agreement at the scope that its end is bridged to. -/
theorem related_runBlock {params : List Symbol} {before ended : Scope} {bridges : List Bridge}
    {k : Option (Eval Symbol V V)} {n : Option Node} {P : Prop}
    (hParams : ∀ p ∈ params, p ∉ C.names) (hMeets : ended.Meets C.names bridges before)
    (hBody : ∀ m w, (C.binding params).Agree held (Scope.bindParams before params).2 m w →
      Related (fun _ m' w' => P ∧ (C.binding params).Bridged held ended bridges m' w')
        ((Eval.branch C.interp k).on m) ((C.runBranch n).on w))
    (args : List V) {m : Machine Symbol V} {w : Machine Cell V} (h : C.Agree held before m w) :
    Related (fun _ => C.Agree held before) ((Eval.runBlock C.interp params k args).on m)
      ((Eval.runBlock C.interp (params.map Setting.paramCell) (n.map C.run) args).on w) := by
  rw [on_runBlock, on_runBlock]
  apply (h.bindParams params args).bind
  intro _ m' w' hInside
  apply (hBody m' w' hInside).attempt
  · intro v m'' w'' ⟨_, hBridged⟩
    have hBack : C.Agree held before m'' w'' := hBridged.unbind.meet hMeets
    exact (hBack.restore hParams m.locals w.locals).bind fun _ _ _ h => .value h
  · exact fun v m'' w'' hWorld => .left trivial hWorld
  · exact fun m'' w'' hWorld => .left trivial hWorld

theorem Setting.Unknown.unbind {params : List Symbol} {s : Scope}
    (h : (C.binding params).Unknown (Scope.bindParams s params).2) : C.Unknown s := by
  obtain ⟨x, hx, hNone⟩ := h
  rw [Scope.get?_bindParams] at hNone
  split at hNone
  · cases hNone
  · rename_i hMem
    exact ⟨x, hx.resolve_left hMem, hNone⟩

theorem follows_of_binding {params : List Symbol} {before ended : Scope}
    (hParams : ∀ p ∈ params, p ∉ C.names)
    (h : (Scope.bindParams before params).2.Follows (C.binding params).names ended) :
    before.Follows C.names ended := by
  intro x hx
  have hInside := h x (.inr hx)
  rwa [Scope.get?_bindParams, if_neg fun hMem => hParams x hMem hx] at hInside

theorem follows_unbindParams {params : List Symbol} {before ended : Scope}
    (hParams : ∀ p ∈ params, p ∉ C.names) (h : before.Follows C.names ended) :
    before.Follows C.names
      (Scope.unbindParams ended (Scope.bindParams before params).1) := by
  intro x hx
  rw [Scope.get?_unbindParams_bindParams, if_neg fun hMem => hParams x hMem hx]
  exact h x hx

theorem Pending.ensures_runBlock (s : Span) {params : List Symbol} {body : Option Pending}
    {k : Option (Eval Symbol V V)} {st : NormalState} (hAgain : C.again = true)
    (hParams : ∀ p ∈ params, p ∉ C.names) (hBody : (C.binding params).OptionMeans held body k)
    (hReady : C.Ready held st) :
    (runBlock s ⟨params, body⟩).Ensures st (C.Unknown st.scope) fun b st' =>
      C.Advances st st' ∧ (∀ x ∈ C.names, st'.scope.reads x = st.scope.reads x) ∧
      b.params = params ∧ ∀ args m w, C.Agree held st.scope m w →
        Related (fun _ => C.Agree held st.scope) ((Eval.runBlock C.interp params k args).on m)
          ((Eval.runBlock C.interp (params.map Setting.paramCell) (b.body.map C.run)
            args).on w) := by
  apply Norm.ensures_getScope_bind
  apply Norm.ensures_setScope_bind
  refine Norm.Ensures.bind (Norm.Ensures.mono (BranchEnd.ensures_runBranch
    (hBody.simulatesIn (hReady.bindParams params) trivial) fun _ _ => rfl)
    Setting.Unknown.unbind fun _ _ h => h)
    fun bodyEnd st₁ ⟨hBodyFollows, hTemps₁, hNow, hRuns⟩ => ?_
  have hBound := hReady.bound hAgain
  have hFollows := follows_of_binding hParams hBodyFollows
  have hFollowsNow := follows_unbindParams hParams hFollows
  apply Norm.ensures_getScope_bind
  rw [hNow]
  apply Norm.ensures_setScope_bind
  refine Norm.Ensures.bind (Norm.Ensures.mono (BranchEnd.ensures_close s hRuns
    (fun b hb _ => Scope.carried_of_mem_blockBridges hb) fun t ht => hTemps₁ t (hReady.held t ht))
    False.elim fun _ _ h => h) fun bodyNode st₂ ⟨hScope, hTemps₂, hRun⟩ => ?_
  refine Norm.ensures_pure ⟨⟨?_, fun t ht => hTemps₂ t (hTemps₁ t ht)⟩, ?_, rfl, ?_⟩
  · rw [hScope]
    exact Scope.follows_rewindBlock hReady.sound hBound hFollowsNow
  · intro x hx
    rw [hScope]
    exact Scope.reads_rewindBlock hBound hFollowsNow hx
  · intro args m w hAgree
    exact related_runBlock hParams (Scope.meets_block hBound hParams hFollows) hRun args hAgree

end CoreTree

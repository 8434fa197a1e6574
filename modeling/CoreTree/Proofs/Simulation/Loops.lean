import CoreTree.Proofs.Simulation.Branches

/-! # Loops that simulate

The invariant is the agreement at the scope before the test. The body's end is bridged back to
it, and behind the loop the versions are read that the test leaves behind. How many rounds
there are is the same for both machines, whether or not the loop ends.
-/
namespace CoreTree
set_option autoImplicit false

variable {V : Type} {C : Setting V} {held : Held V}

/-- If one time round keeps an invariant, or else leads out, so does any number of rounds. -/
theorem Alike.loop {E : Escape V} {I : Interp V} {P Q : Machine Symbol V → Machine Cell V → Prop}
    {c b : Eval Symbol V V} {c' b' : Eval Cell V V}
    (hPass : ∀ m w, P m w → Alike E (fun again m' w' => if again then P m' w' else Q m' w')
      ((Eval.pass I c b).on m) ((Eval.pass I c' b').on w))
    (hNext : ∀ v m w, E.may (.jump .next v) → E.post (.jump .next v) m w → P m w)
    (hBreak : ∀ v m w, E.may (.jump .brk v) → E.post (.jump .brk v) m w → Q m w)
    (hWorld : ∀ m w, P m w → m.world = w.world) (rounds : Nat) {m : Machine Symbol V}
    {w : Machine Cell V} (h : P m w) :
    Related (fun _ => Q) ((Eval.loop I c b rounds).on m) ((Eval.loop I c' b' rounds).on w) := by
  induction rounds generalizing m w with
  | zero => exact .left trivial (hWorld m w h)
  | succ rounds ih =>
    refine (hPass m w h).attempt ?_ ?_
    · intro again m' w' hNext
      cases again with
      | true => exact ih hNext
      | false => exact .value hNext
    · intro e m' w' hMay hPost
      match e with
      | .jump .next v => exact ih (hNext v m' w' hMay hPost)
      | .jump .brk v => exact .value (hBreak v m' w' hMay hPost)
      | .jump .ret _ | .cut => exact .left trivial (E.world _ _ _ hPost)

theorem run_loop (s : Span) (test : Node) (body : Option Node) :
    C.run (.loop s test body) =
      .loop C.interp (C.run test) (C.runBranch body) C.rounds := by
  rw [Setting.run, Node.versioned, Node.meaning, optionMeaning_eq_map]
  rfl

namespace Pending

variable {test : Pending} {body : Option Pending} {c : Eval Symbol V V}
  {k : Option (Eval Symbol V V)} {st : NormalState}

/-- The loop that was normalized, told by one time round. How the body may escape may depend on
the scope that the test leaves behind. -/
structure Rounds (E : Scope → Escape V) (C : Setting V) (held : Held V) (test : Pending)
    (c b : Eval Symbol V V) (st : NormalState) (s : Span) (o : Outcome) (st' : NormalState) :
    Prop where
  advances : C.Advances st st'
  pass : ∃ test' body' st₁, o = ⟨.loop s test' body', false⟩ ∧ test.node.run st = .ok test' st₁ ∧
    (∀ x ∈ C.names, st'.scope.reads x = st₁.scope.reads x) ∧
    ∀ m w, C.Agree held st.scope m w →
      Alike (E st₁.scope)
        (fun again m' w' => C.Agree held (if again then st.scope else st'.scope) m' w')
        ((Eval.pass C.interp c b).on m)
        ((Eval.pass C.interp (C.run test') (C.runBranch body')).on w)

/-- Once round, the bridges lead from the end of the body to before the test. Where the test fails,
the scope behind the loop reads what the test leaves behind. -/
theorem ensures_loop {E : Scope → Escape V} (s : Span) (hAgain : C.again = true)
    (hTest : test.Means C held c) (hReady : C.Ready held st)
    (hBody : ∀ n st₁, test.node.run st = .ok n st₁ → C.Ready held st₁ →
      OptionSimulatesIn (E st₁.scope) C held body k st₁) :
    (loop s test body).run.Ensures st (C.Unknown st.scope)
      (Rounds E C held test c (.branch C.interp k) st s) := by
  apply Norm.ensures_getScope_bind
  apply Norm.Ensures.bind (hTest.node st hReady).run
  intro test' st₁ hPost
  obtain ⟨hOk, hAdv₁, hRunTest⟩ := hPost
  apply Norm.ensures_getScope_bind
  have hReady₁ := hReady.advance hAdv₁
  refine Norm.Ensures.bind (Norm.Ensures.mono (BranchEnd.ensures_runBranch
    (hBody test' st₁ hOk hReady₁) fun _ _ => rfl) (·.retreat hAdv₁.scope) fun _ _ h => h)
    fun bodyEnd st₂ ⟨hFollows, hTemps₂, hNow, hRuns⟩ => ?_
  apply Norm.ensures_getScope_bind
  rw [hNow]
  have hBound := hReady₁.bound hAgain
  have hMeets := Scope.meets_loop (hReady.bound hAgain) hAdv₁.scope hFollows
  apply Norm.ensures_setScope_bind
  refine Norm.ensures_pure ⟨⟨?_, ?_⟩, _, _, st₁, rfl, hOk, ?_, fun m w hAgree => ?_⟩
  · exact hAdv₁.scope.trans (Scope.follows_rewindLoop hReady₁.sound hBound hFollows)
  · exact fun t ht => hTemps₂ t (hAdv₁.temps t ht)
  · exact fun x hx => Scope.reads_rewindLoop hBound hFollows hx
  · apply (hRunTest m w hAgree).of_closed.bind
    intro v m' w' hAgree'
    split
    · refine (BranchEnd.alike_closeLoop s _ hRuns hReady₁.held true hAgree').mono ?_
      rintro _ m'' w'' ⟨rfl, hBridged⟩
      exact hBridged.meet hMeets
    · exact .value (hAgree'.congr_reads fun x hx => Scope.reads_rewindLoop hBound hFollows hx)

/-- The loop goes round in both machines alike if `next` leads to where it tests, and `break` to
what is behind it. -/
theorem Rounds.related_loop {E : Scope → Escape V} {b : Eval Symbol V V} {s : Span} {o : Outcome}
    {st' : NormalState} (h : Rounds E C held test c b st s o st')
    (hNext : ∀ n st₁, test.node.run st = .ok n st₁ → ∀ v m w, (E st₁.scope).may (.jump .next v) →
      (E st₁.scope).post (.jump .next v) m w → C.Agree held st.scope m w)
    (hBreak : ∀ s₁ : Scope, (∀ x ∈ C.names, st'.scope.reads x = s₁.reads x) → ∀ v m w,
      (E s₁).may (.jump .brk v) → (E s₁).post (.jump .brk v) m w → C.Agree held st'.scope m w)
    {m : Machine Symbol V} {w : Machine Cell V} (hAgree : C.Agree held st.scope m w) :
    Related (fun _ => C.Agree held st'.scope) ((Eval.loop C.interp c b C.rounds).on m)
      ((C.run o.node).on w) := by
  obtain ⟨test', body', st₁, rfl, hOk, hBehind, hPass⟩ := h.pass
  rw [run_loop]
  refine Alike.loop (P := C.Agree held st.scope) (fun m w hAgree => ?_) (hNext _ _ hOk)
    (hBreak _ hBehind) (fun _ _ h => h.world) C.rounds hAgree
  exact (hPass m w hAgree).mono fun again _ _ h => by cases again <;> exact h

theorem means_loop (s : Span) (hAgain : C.again = true) (hTest : test.Means C held c)
    (hBody : C.OptionMeans held body k) :
    (loop s test body).Means C held (.loop C.interp c (.branch C.interp k) C.rounds) := by
  intro held' hExtends st hReady _
  refine (ensures_loop (E := fun _ => .closed) s hAgain (hTest.extend hExtends) hReady
    fun _ _ _ hReady₁ => (hBody.extend hExtends).simulatesIn hReady₁ trivial).mono id
    fun o st' h => ?_
  obtain ⟨test', body', _, rfl, -⟩ := h.pass
  refine ⟨h.advances, splices_single _ _ _ rfl nofun, fun m w hAgree => ?_⟩
  exact (h.related_loop (fun _ _ _ _ _ _ hMay => hMay.elim) (fun _ _ _ _ _ hMay => hMay.elim)
    hAgree).mono fun _ _ _ h => ⟨rfl, h⟩

end Pending

end CoreTree

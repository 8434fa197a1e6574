import CoreTree.Proofs.Simulation.Blocks

/-! # Calls that simulate

A callee sees the record of events and the instance variables, and these are the same in both
machines. So it answers the same, runs its block as often and with the same arguments, and is
handed the same values.
-/
namespace CoreTree
set_option autoImplicit false

variable {V : Type} {C : Setting V} {held : Held V}

namespace Related

variable {P : Machine Symbol V → Machine Cell V → Prop}

/-- A callee with a block, if every run of the block keeps an invariant. -/
theorem converse {I : Interp V} {made : Event V} {run : List V → Eval Symbol V V}
    {run' : List V → Eval Cell V V}
    (hReply : ∀ given m w, P m w →
      Related (fun _ => P) ((Eval.reply I made given).on m) ((Eval.reply I made given).on w))
    (hRecord : ∀ e m w, P m w →
      Related (fun _ => P) ((Eval.record e).on m) ((Eval.record e).on w))
    (hRun : ∀ args m w, P m w → Related (fun _ => P) ((run args).on m) ((run' args).on w))
    (hWorld : ∀ m w, P m w → m.world = w.world) (given : List V) (rounds : Nat)
    {m : Machine Symbol V} {w : Machine Cell V} (h : P m w) :
    Related (fun _ => P) ((Eval.converse I made run given rounds).on m)
      ((Eval.converse I made run' given rounds).on w) := by
  induction rounds generalizing given m w with
  | zero => exact .left trivial (hWorld m w h)
  | succ rounds ih =>
    apply (hReply given m w h).bind
    intro r m₁ w₁ h₁
    cases r with
    | done v => exact .value h₁
    | run args =>
      apply (hRun args m₁ w₁ h₁).bind
      intro v m₂ w₂ h₂
      exact (hRecord (.ran v) m₂ w₂ h₂).bind fun _ m₃ w₃ h₃ => ih (v :: given) h₃

theorem catchBreak {c : Eval Symbol V V} {d : Eval Cell V V} {m : Machine Symbol V}
    {w : Machine Cell V} (h : Related (fun _ => P) (c.on m) (d.on w)) :
    Related (fun _ => P) (c.catchBreak.on m) (d.catchBreak.on w) :=
  h.attempt (fun _ _ _ hValue => .value hValue) (fun _ _ _ hWorld => .left trivial hWorld)
    fun _ _ hWorld => .left trivial hWorld

end Related

def Setting.runBlock (C : Setting V) (b : Block Node) : List V → Eval Cell V V :=
  .runBlock C.interp (b.params.map paramCell) (b.body.map C.run)

theorem run_call (s : Span) (receiver : Option Node) (name : Symbol) (args : List Node)
    (block : Option (Block Node)) :
    C.run (.call s receiver name args block) = .call C.interp C.rounds (receiver.map C.run) name
      (args.map C.run) (block.map C.runBlock) := by
  obtain _ | ⟨params, body⟩ := block
  · rw [Setting.run, Node.versioned, Node.meaning, optionMeaning_eq_map, listMeaning_eq_map]
    rfl
  · rw [Setting.run, Node.versioned, Node.meaning, optionMeaning_eq_map, listMeaning_eq_map,
      optionMeaning_eq_map]
    rfl

namespace Pending

theorem means_call_of {s : Span} {receiver : Option Pending} {name : Symbol} {args : List Pending}
    {block : Option (Block Pending)} {r : Option (Eval Symbol V V)} {cs : List (Eval Symbol V V)}
    {run : Option (List V → Eval Symbol V V)} (hReceiver : C.OptionMeans held receiver r)
    (hArgs : C.ListMeans held args cs)
    (hBlock : ∀ held' v vs, held.Extends held' → (optionBlock s block).Simulates C held'
      (Eval.finishCall C.interp C.rounds (.call v name vs) run)
      fun b => Eval.finishCall C.interp C.rounds (.call v name vs) (b.map C.runBlock)) :
    (call s receiver name args block).Means C held
      (.call C.interp C.rounds r name cs run) := by
  have hRun : (call s receiver name args block).run =
      (do
        let n ← optionNode receiver
        let rest ← (do let ns ← nodes args; let b ← optionBlock s block; return (ns, b))
        return (n, rest)) >>= fun r => pure ⟨.call s r.1 name r.2.1 r.2.2, false⟩ := by
    simp only [call, bind_assoc, pure_bind]
  have : Inhabited V := ⟨C.interp.nil⟩
  refine means_of_action _ _ _ (fun held' hExtends => ?_) hRun
    (fun r => run_call s r.1 name r.2.1 r.2.2) fun _ => ⟨rfl, nofun⟩
  refine Norm.Simulates.bind (optionNode_simulates (hReceiver.extend hExtends))
    (l := fun v rest => Eval.all (rest.1.map C.run) >>= fun vs =>
      Eval.finishCall C.interp C.rounds (.call v name vs) (rest.2.map C.runBlock))
    (fun v => ?_) fun _ _ => rfl
  exact Norm.Simulates.bind (nodes_simulates (hArgs.extend hExtends))
    (l := fun vs b => Eval.finishCall C.interp C.rounds (.call v name vs) (b.map C.runBlock))
    (fun vs => hBlock held' v vs hExtends) fun _ _ => rfl

theorem means_call (s : Span) {receiver : Option Pending} (name : Symbol) {args : List Pending}
    {r : Option (Eval Symbol V V)} {cs : List (Eval Symbol V V)}
    (hReceiver : C.OptionMeans held receiver r) (hArgs : C.ListMeans held args cs) :
    (call s receiver name args none).Means C held
      (.call C.interp C.rounds r name cs none) := by
  refine means_call_of hReceiver hArgs fun held' v vs _ => Norm.simulates_pure none ?_
  exact Setting.Keeps.bind (fun _ _ _ hAgree => hAgree.record _)
    fun _ _ _ _ hAgree => hAgree.answer

/-- The agreement at the scope of the call lasts through all runs of the block. -/
theorem means_callWithBlock (s : Span) {receiver : Option Pending} (name : Symbol)
    {args : List Pending} {params : List Symbol} {body : Option Pending}
    {r : Option (Eval Symbol V V)} {cs : List (Eval Symbol V V)} {k : Option (Eval Symbol V V)}
    (hAgain : C.again = true) (hReceiver : C.OptionMeans held receiver r)
    (hArgs : C.ListMeans held args cs) (hParams : ∀ p ∈ params, p ∉ C.names)
    (hBody : (C.binding params).OptionMeans held body k) :
    (call s receiver name args (some ⟨params, body⟩)).Means C held
      (.call C.interp C.rounds r name cs (some (.runBlock C.interp params k))) := by
  apply means_call_of hReceiver hArgs
  intro held' v vs hExtends st hReady
  refine Norm.Ensures.bind (ensures_runBlock s hAgain hParams (hBody.extend hExtends) hReady)
    fun b st' ⟨hAdv, hReads, hBinds, hRun⟩ => Norm.ensures_pure ⟨hAdv, fun m w hAgree => ?_⟩
  subst hBinds
  have hStay : Related (fun _ => C.Agree held' st.scope)
      ((Eval.finishCall C.interp C.rounds (.call v name vs)
        (some (Eval.runBlock C.interp b.params k))).on m)
      ((Eval.finishCall C.interp C.rounds (.call v name vs) (some (C.runBlock b))).on w) := by
    refine (hAgree.record _).bind fun _ m' w' hAgree' => Related.catchBreak ?_
    exact Related.converse (fun given _ _ h => h.reply _ given) (fun e _ _ h => h.record e) hRun
      (fun _ _ h => h.world) [] C.rounds hAgree'
  exact hStay.mono fun _ _ _ h => h.congr_reads hReads

end Pending

end CoreTree

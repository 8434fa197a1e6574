import CoreTree.Proofs.Simulation.Splicing
import Mathlib.Data.List.Forall2

/-! # Statements that simulate

Atoms, variables, sequences, assignments, jumps and type tests: each of them means what its
parts mean, put together. What is left to later modules joins paths or runs more than once.
-/
namespace CoreTree
set_option autoImplicit false

variable {V : Type} {E : Escape V} {S : Scope → Prop} {C : Setting V} {held : Held V}

namespace Setting

/-- What a pending tree may be part of: one that is absent does nothing. -/
def OptionMeansIn (E : Escape V) (S : Scope → Prop) (C : Setting V) (held : Held V) :
    Option Pending → Option (Eval Symbol V V) → Prop :=
  Option.Rel fun p c => p.MeansIn E S C held c

abbrev OptionMeans (C : Setting V) (held : Held V) :
    Option Pending → Option (Eval Symbol V V) → Prop :=
  C.OptionMeansIn .closed (fun _ => True) held

def ListMeans (C : Setting V) (held : Held V) : List Pending → List (Eval Symbol V V) → Prop :=
  List.Forall₂ fun p c => p.Means C held c

variable {held' : Held V}

theorem OptionMeansIn.extend {p : Option Pending} {c : Option (Eval Symbol V V)}
    (h : C.OptionMeansIn E S held p c) (hExtends : held.Extends held') :
    C.OptionMeansIn E S held' p c := by
  cases h with
  | none => exact .none
  | some hp => exact .some (hp.extend hExtends)

theorem ListMeans.extend {ps : List Pending} {cs : List (Eval Symbol V V)}
    (h : C.ListMeans held ps cs) (hExtends : held.Extends held') : C.ListMeans held' ps cs :=
  List.Forall₂.imp (fun _ _ hp => hp.extend hExtends) h

end Setting

namespace Pending

/-! ## Leaves -/

theorem means_atom (s : Span) {a : Atom} (hNop : a ≠ .nop) (hTemp : ∀ t, a ≠ .temp t) :
    (atom s a).Means C held (Eval.atom C.interp a) := by
  refine means_of_action (pure ()) (fun _ => Eval.atom C.interp a) (fun _ => .atom s a)
    (fun held' _ => Norm.simulates_pure _ ?_) rfl (fun _ => rfl) fun _ => ⟨?_, nofun⟩
  · intro sc m w hAgree
    cases a with
    | nop => exact absurd rfl hNop
    | temp t => exact absurd rfl (hTemp t)
    | field f => exact hAgree.readField f
    | _ => exact .value hAgree
  · cases a with
    | nop => exact absurd rfl hNop
    | _ => rfl

theorem means_temp (s : Span) {t : Symbol} {v : V} (h : held t = some v) :
    (temp s t).Means C held (pure v) := by
  refine means_of_action (pure ()) (fun _ => .readTemp t) (fun _ => .temp s t)
    (fun held' hExtends => Norm.simulates_pure _ ?_) rfl (fun _ => rfl) fun _ => ⟨rfl, nofun⟩
  intro sc m w hAgree
  have hOn : (Eval.readTemp t).on w = (.ok v, w) := by
    show (Except.ok (w.temps t), w) = _
    rw [hAgree.temps t v (hExtends t v h)]
  rw [hOn]
  exact .value hAgree

/-- A read gives the version that reaches it, if the variable is known at all. -/
theorem ensures_useVar (s : Span) {v : Var} (hOut : v.out = false) (st : NormalState) :
    (Norm.useVar s v).Ensures st (st.scope.get? v.name = none) fun v' st' =>
      st' = st ∧ v' = { v with version := (st.scope.reads v.name).getD 0 } := by
  unfold Norm.useVar
  rw [if_neg (by simp [hOut])]
  apply Norm.ensures_getScope_bind
  split
  · rename_i version hVersion
    refine Norm.ensures_pure ⟨rfl, ?_⟩
    rw [Scope.readVersion?_eq_some hVersion]
  · rename_i hNone
    exact (Scope.readVersion?_eq_none_iff _ _).mp hNone

theorem means_var (s : Span) {v : Var} (hOut : v.out = false) (hName : v.name ∈ C.names) :
    (var s v).Means C held (.readLocal v.name) := by
  intro held' _ st hReady _
  show ((Norm.useVar s v >>= fun v' => pure ⟨.var s v', false⟩) : Norm Outcome).Ensures _ _ _
  refine Norm.Ensures.bind ((ensures_useVar s hOut st).mono (fun hNone => ⟨v.name, hName, hNone⟩)
    fun _ _ h => h) ?_
  rintro _ st ⟨rfl, rfl⟩
  refine Norm.ensures_pure ⟨.refl C _, ⟨by simp [Node.statements], ?_, ?_⟩, fun m w hAgree => ?_⟩
  · simp [Node.statements, Node.isStatement]
  · intro _ span x hLast
    cases hLast
    exact ⟨hName, rfl⟩
  · have hRun : (C.run (.var s { v with version := (st.scope.reads v.name).getD 0 })).on w =
        (.ok (w.locals (v.name, (st.scope.reads v.name).getD 0)), w) := by
      rw [Setting.run, Node.versioned, Node.meaning, if_neg (by simp [hOut])]
      rfl
    rw [hRun, hAgree.value hName]
    exact .value ⟨rfl, hAgree⟩

/-! ## Parts in order -/

theorem nodes_simulates {ps : List Pending} {cs : List (Eval Symbol V V)}
    (h : C.ListMeans held ps cs) :
    (nodes ps).Simulates C held (Eval.all cs) fun ns => Eval.all (ns.map C.run) := by
  induction h with
  | nil => exact Norm.simulates_pure [] (Setting.keeps_pure [])
  | @cons p c ps cs hp _ ih =>
    have : Inhabited V := ⟨C.interp.nil⟩
    refine Norm.Simulates.bind (k := fun v => Eval.all cs >>= fun vs => pure (v :: vs))
      (l := fun v ns => Eval.all (ns.map C.run) >>= fun vs => pure (v :: vs))
      (f := fun n ns => n :: ns) hp.node (fun v => ?_) fun _ _ => rfl
    exact ih.andThen fun vs => Setting.keeps_pure _

theorem optionNode_simulates {p : Option Pending} {c : Option (Eval Symbol V V)}
    (h : C.OptionMeans held p c) :
    (optionNode p).Simulates C held (Eval.optional c) fun n => Eval.optional (n.map C.run) := by
  cases h with
  | none => exact Norm.simulates_pure none (Setting.keeps_pure none)
  | some hp =>
    intro st hReady
    refine (hp.node st hReady).bind fun n st' ⟨hAdv, hRun⟩ => Norm.ensures_pure ⟨hAdv, ?_⟩
    exact fun m w hAgree => (hRun m w hAgree).bind fun v m' w' hAgree' => .value hAgree'

/-! ## Sequences -/

def StatementsIn (E : Escape V) (C : Setting V) (held : Held V) (ps : List Pending)
    (c : Eval Symbol V V) (after : V → Held V) (st : NormalState) : Prop :=
  (statements ps).Ensures st (C.Unknown st.scope) fun r st' =>
    C.Advances st st' ∧ Splices C.names r.1 r.2 st'.scope ∧
    ∀ m w, C.Agree held st.scope m w →
      Alike E (fun v m' w' => r.2 = false ∧ C.Agree (after v) st'.scope m' w') (c.on m)
        ((Eval.seq C.interp (r.1.map C.run)).on w)

theorem StatementsIn.of_closed {ps : List Pending} {c : Eval Symbol V V} {after : V → Held V}
    {st : NormalState} (h : StatementsIn .closed C held ps c after st) :
    StatementsIn E C held ps c after st :=
  h.mono id fun _ _ ⟨hAdv, hSplices, hRun⟩ =>
    ⟨hAdv, hSplices, fun m w hAgree => (hRun m w hAgree).of_closed⟩

theorem statementsIn_single {p : Pending} {c : Eval Symbol V V} {after : V → Held V}
    {st : NormalState} (h : p.SimulatesIn E C held c after st) :
    StatementsIn E C held [p] c after st := by
  apply Norm.Ensures.bind h
  intro o st' hPost
  obtain ⟨hAdv, hSplices, hRun⟩ := hPost
  split
  · rename_i hEnds
    rw [hEnds] at hSplices
    refine Norm.ensures_pure ⟨hAdv, hSplices, fun m w hAgree => ?_⟩
    rw [C.run_statements]
    exact (hRun m w hAgree).mono fun v m' w' ⟨hGoes, _⟩ => by rw [hEnds] at hGoes; cases hGoes
  · rename_i hGoes
    have hEnds : o.ends = false := by simpa using hGoes
    rw [hEnds] at hSplices
    refine Norm.ensures_pure ⟨hAdv, ?_, fun m w hAgree => ?_⟩
    · simpa using hSplices
    · rw [List.append_nil, C.run_statements]
      exact (hRun m w hAgree).mono fun v m' w' h => ⟨rfl, h.2⟩

theorem splices_append {X X' : Set Symbol} {s s' : Scope} {before after : List Node}
    {ends ends' : Bool} (h : Splices X before ends s) (h' : Splices X' after ends' s') :
    Splices X' (before ++ after) ends' s' := by
  refine ⟨by simp [h.nonempty], ?_, ?_⟩
  · intro n hn
    rcases List.mem_append.mp hn with hn | hn
    · exact h.flat n hn
    · exact h'.flat n hn
  · intro hEnds span v hLast
    rw [List.getLast?_append_of_ne_nil _ h'.nonempty] at hLast
    exact h'.last hEnds span v hLast

/-- What stands after a statement that ends is left out. -/
theorem statementsIn_cons {p : Pending} {ps : List Pending} {c : Eval Symbol V V}
    {k : V → Eval Symbol V V} {after : V → Held V} {held' : Held V} {st : NormalState}
    (h : p.SimulatesIn E C held c after st)
    (hRest : ∀ v o st', p.run.run st = .ok o st' → C.Advances st st' →
      StatementsIn E C (after v) ps (k v) (fun _ => held') st') :
    StatementsIn E C held (p :: ps) (c >>= k) (fun _ => held') st := by
  have : Nonempty V := ⟨C.interp.nil⟩
  apply Norm.Ensures.bind h.run
  intro o st₁ hPost
  obtain ⟨hOk, hAdv, hSplices, hRun⟩ := hPost
  split
  · rename_i hEnds
    rw [hEnds] at hSplices
    refine Norm.ensures_pure ⟨hAdv, hSplices, fun m w hAgree => ?_⟩
    rw [C.run_statements]
    apply (hRun m w hAgree).bind_of_never
    rintro v m' w' ⟨hGoes, _⟩
    rw [hEnds] at hGoes
    cases hGoes
  · -- the rest is normalized once, and simulates whatever value the first statement gives
    refine Norm.Ensures.bind (Norm.Ensures.mono (.all fun v => hRest v o st₁ hOk hAdv)
      (·.retreat hAdv.scope) fun _ _ h => h) fun r st₂ hAll => Norm.ensures_pure ?_
    obtain ⟨hAdv', hSplices', _⟩ := hAll C.interp.nil
    refine ⟨hAdv.trans hAdv', splices_append hSplices hSplices', fun m w hAgree => ?_⟩
    rw [List.map_append, Eval.seq_append _ _ _ (by simp [hSplices'.nonempty]), C.run_statements]
    exact (hRun m w hAgree).bind fun v m' w' ⟨_, hAgree'⟩ => (hAll v).2.2 m' w' hAgree'

theorem statementsIn_of_means {ps : List Pending} {cs : List (Eval Symbol V V)}
    (h : C.ListMeans held ps cs) (hNonempty : ps ≠ []) {st : NormalState}
    (hReady : C.Ready held st) :
    StatementsIn .closed C held ps (.seq C.interp cs) (fun _ => held) st := by
  induction h generalizing st with
  | nil => exact absurd rfl hNonempty
  | @cons p c ps cs hp hps ih =>
    have hHead := hp.simulates st hReady
    cases hps with
    | nil => exact statementsIn_single hHead
    | cons _ _ =>
      exact statementsIn_cons hHead fun v _ st' _ hAdv => ih (by simp) (hReady.advance hAdv)

theorem statements_ofStatements {X : Set Symbol} {s : Span} {ns : List Node} {ends : Bool}
    {sc : Scope} (h : Splices X ns ends sc) : (Node.ofStatements s ns).statements = ns := by
  match ns with
  | [] => exact absurd rfl h.nonempty
  | [n] => exact Node.statements_of_isStatement (h.flat n (by simp))
  | _ :: _ :: _ => rfl

theorem simulatesIn_seq {s : Span} {ps : List Pending} {c : Eval Symbol V V}
    {after : V → Held V} {st : NormalState} (h : StatementsIn E C held ps c after st) :
    (seq s ps).SimulatesIn E C held c after st := by
  refine Norm.Ensures.bind h fun r st' ⟨hAdv, hSplices, hRun⟩ => Norm.ensures_pure ?_
  refine ⟨hAdv, (statements_ofStatements hSplices).symm ▸ hSplices, fun m w hAgree => ?_⟩
  rw [C.run_ofStatements]
  exact hRun m w hAgree

theorem means_seq (s : Span) {ps : List Pending} {cs : List (Eval Symbol V V)}
    (h : C.ListMeans held ps cs) (hNonempty : ps ≠ []) :
    (seq s ps).Means C held (.seq C.interp cs) := by
  intro held' hExtends st hReady _
  exact simulatesIn_seq (statementsIn_of_means (h.extend hExtends) hNonempty hReady)

/-! ## Jumps and type tests -/

/-- Where a jump leads out, the machines agree at the scope that its value leaves behind. -/
theorem meansIn_jump (s : Span) {kind : JumpKind} {p : Option Pending}
    {c : Option (Eval Symbol V V)} (h : C.OptionMeans held p c)
    (hMay : ∀ v, E.may (.jump kind v))
    (hPost : ∀ st n st', S st.scope → (optionNode p).run st = .ok n st' →
      ∀ v m w, C.Agree held st'.scope m w → E.post (.jump kind v) m w) :
    (jump s kind p).MeansIn E S C held (.jump C.interp kind c) := by
  intro held' hExtends st hReady hStart
  refine Norm.Ensures.bind (optionNode_simulates (h.extend hExtends) st hReady).run
    fun n st' ⟨hOk, hAdv, hRun⟩ =>
      Norm.ensures_pure ⟨hAdv, splices_single _ _ _ rfl nofun, fun m w hAgree => ?_⟩
  have hJump : C.run (.jump s kind n) = Eval.optional (n.map C.run) >>= fun v =>
      throw (.jump kind (v.getD C.interp.nil)) := by
    rw [Setting.run, Node.versioned, Node.meaning, optionMeaning_eq_map, Eval.jump,
      Eval.branch_eq_optional, bind_assoc]
    rfl
  rw [hJump, Eval.jump, Eval.branch_eq_optional, bind_assoc]
  refine (hRun m w hAgree).of_closed.bind fun v m' w' hAgree' => .left (hMay _) ?_
  exact hPost st n st' hStart hOk _ m' w' (hAgree'.weaken hExtends)

theorem means_isA (s : Span) {p : Pending} {c : Eval Symbol V V} (h : p.Means C held c)
    (type : ConstPath) : (isA s p type).Means C held (.isA C.interp c type) := by
  refine means_of_action p.node (fun n => C.run n >>= fun v => pure (C.interp.isA v type))
    (fun n => .isA s n type) (fun held' hExtends => ?_) rfl (fun _ => rfl) fun _ => ⟨rfl, nofun⟩
  exact (h.extend hExtends).node.andThen fun v => Setting.keeps_pure _

end Pending

end CoreTree

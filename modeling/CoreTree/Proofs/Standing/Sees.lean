import CoreTree.Proofs.Simulation.Assignments
import CoreTree.Proofs.Standing.Scopes

/-! # Trees that see what was written last

A pending tree leads from one standing of the variables to another: from machines that agree on the
variables that are not lost, its result runs as the tree does, and the machines agree on those that
are not lost behind it. A variable that was lost may be compared again once it is assigned.
-/
namespace CoreTree
set_option autoImplicit false

variable {V α β γ : Type}

/-- Whatever is not lost is compared. -/
def Standings.setting (t : Standings) (I : Interp V) (rounds : Nat) : Setting V :=
  ⟨I, rounds, false, {x | t x ≠ .lost}⟩

/-- The machines agree where it is sure what a variable is. -/
abbrev Standings.Agree (t : Standings) (I : Interp V) (rounds : Nat) (s : Scope)
    (m : Machine Symbol V) (w : Machine Cell V) : Prop :=
  (t.setting I rounds).Agree (fun _ => none) s m w

variable {I : Interp V} {rounds : Nat} {t t' t'' : Standings}

theorem Standings.Agree.weaken {s : Scope} {m : Machine Symbol V} {w : Machine Cell V}
    (h : t.Agree I rounds s m w) (hLost : ∀ x, t x = .lost → t' x = .lost) :
    t'.Agree I rounds s m w where
  reads x hx := h.reads x fun hEq => hx (hLost x hEq)
  unset x hx := h.unset x fun hEq => hx (hLost x hEq)
  temps := h.temps
  world := h.world

theorem Standings.Agree.write {s : Scope} {m : Machine Symbol V} {w : Machine Cell V}
    (h : t.Agree I rounds s m w) (x : Symbol) (v : V) :
    (t.assign x).Agree I rounds (s.write x).2 { m with locals := Function.update m.locals x v }
      { w with locals := Function.update w.locals (x, (s.write x).1) v } := by
  have hNames : ∀ y ∈ ((t.assign x).setting I rounds).names, y ≠ x →
      y ∈ (t.setting I rounds).names := fun y hy hNe hLost =>
    hy ((Function.update_of_ne hNe _ _).trans hLost)
  have hInterp : ((t.assign x).setting I rounds).interp = (t.setting I rounds).interp := rfl
  exact Setting.Agree.write_of h hInterp hNames v

/-! ## Actions -/

/-- What the action gives, read by `d`, runs as `c` does. -/
def Norm.Sees (I : Interp V) (rounds : Nat) (act : Norm α) (c : Eval Symbol V β)
    (d : α → Eval Cell V β) (t t' : Standings) : Prop :=
  ∀ st, st.scope.AllSound → st.scope.Stands t → act.Ensures st True fun a st' =>
    st.scope.Onward t st'.scope t' ∧ ∀ m w, t.Agree I rounds st.scope m w →
      Related (fun _ => t'.Agree I rounds st'.scope) (c.on m) ((d a).on w)

namespace Norm

variable {act : Norm α} {c : Eval Symbol V β} {d : α → Eval Cell V β}

theorem sees_pure {a : α} (h : ∀ s m w, t.Agree I rounds s m w →
    Related (fun _ => t.Agree I rounds s) (c.on m) ((d a).on w)) :
    (pure a : Norm α).Sees I rounds c d t t :=
  fun st hSound hStands => ensures_pure ⟨.refl hSound hStands, h st.scope⟩

/-- Two actions in a row. What the second one gives runs after what the first one gives. -/
theorem Sees.bind {δ ε ζ : Type} [Inhabited β] {act' : Norm δ} {k : β → Eval Symbol V ε}
    {l : β → δ → Eval Cell V ε} {f : α → δ → ζ} {e : ζ → Eval Cell V ε}
    (h : act.Sees I rounds c d t t') (h' : ∀ b, act'.Sees I rounds (k b) (l b) t' t'')
    (hPair : ∀ a a', e (f a a') = d a >>= fun b => l b a') :
    Norm.Sees I rounds (do let a ← act; let a' ← act'; return f a a') (c >>= k) e t t'' := by
  intro st hSound hStands
  refine (h st hSound hStands).bind fun a st₁ ⟨hOnward, hRun⟩ => ?_
  refine Ensures.bind (.all fun b => h' b st₁ hOnward.sound hOnward.stands) fun a' st₂ h₂ =>
    ensures_pure ⟨hOnward.trans (h₂ default).1, fun m w hAgree => ?_⟩
  rw [hPair]
  exact (hRun m w hAgree).bind fun b m' w' hAgree' => (h₂ b).2 m' w' hAgree'

theorem Sees.andThen {k : β → Eval Symbol V γ} {k' : β → Eval Cell V γ}
    (h : act.Sees I rounds c d t t') (hKeeps : ∀ b s m w, t'.Agree I rounds s m w →
      Related (fun _ => t'.Agree I rounds s) ((k b).on m) ((k' b).on w)) :
    act.Sees I rounds (c >>= k) (fun a => d a >>= k') t t' := by
  intro st hSound hStands
  refine (h st hSound hStands).mono id fun a st' ⟨hOnward, hRun⟩ => ⟨hOnward, fun m w hAgree => ?_⟩
  exact (hRun m w hAgree).bind fun b m' w' hAgree' => hKeeps b _ m' w' hAgree'

end Norm

/-! ## Pending trees -/

/-- The result of the pending tree runs as `c` does, and goes on to what follows. -/
def Pending.Sees (I : Interp V) (rounds : Nat) (p : Pending) (c : Eval Symbol V V)
    (t t' : Standings) : Prop :=
  ∀ st, st.scope.AllSound → st.scope.Stands t → p.run.Ensures st True fun o st' =>
    o.ends = false ∧ st.scope.Onward t st'.scope t' ∧
    Splices {x | t' x ≠ .lost} o.node.statements false st'.scope ∧
    ∀ m w, t.Agree I rounds st.scope m w →
      Related (fun _ => t'.Agree I rounds st'.scope) (c.on m)
        ((o.node.versioned I rounds).on w)

namespace Pending

/-- Trees in a row. -/
inductive AllSee (I : Interp V) (rounds : Nat) :
    List Pending → List (Eval Symbol V V) → Standings → Standings → Prop where
  | nil (t : Standings) : AllSee I rounds [] [] t t
  | cons {p : Pending} {ps : List Pending} {c : Eval Symbol V V} {cs : List (Eval Symbol V V)}
    {t t' t'' : Standings} (h : p.Sees I rounds c t t') (hRest : AllSee I rounds ps cs t' t'') :
    AllSee I rounds (p :: ps) (c :: cs) t t''

inductive OptionSees (I : Interp V) (rounds : Nat) :
    Option Pending → Option (Eval Symbol V V) → Standings → Standings → Prop where
  | none (t : Standings) : OptionSees I rounds none none t t
  | some {p : Pending} {c : Eval Symbol V V} {t t' : Standings} (h : p.Sees I rounds c t t') :
    OptionSees I rounds (some p) (some c) t t'

variable {p : Pending} {c : Eval Symbol V V}

theorem Sees.node (h : p.Sees I rounds c t t') :
    p.node.Sees I rounds c (Node.versioned I rounds) t t' :=
  fun st hSound hStands => (h st hSound hStands).bind fun _ _ ⟨_, hOnward, _, hRun⟩ =>
    Norm.ensures_pure ⟨hOnward, hRun⟩

/-- A construct that is one statement. -/
theorem sees_of_action (act : Norm α) (d : α → Eval Cell V V) (make : α → Node)
    (h : act.Sees I rounds c d t t') (hRun : p.run = act >>= fun a => pure ⟨make a, false⟩)
    (hNode : ∀ a, (make a).versioned I rounds = d a)
    (hKind : ∀ a, (make a).isStatement = true ∧ ∀ span v, make a ≠ .var span v) :
    p.Sees I rounds c t t' := by
  intro st hSound hStands
  rw [hRun]
  refine (h st hSound hStands).bind fun a st' ⟨hOnward, hRelated⟩ => Norm.ensures_pure ?_
  obtain ⟨hStatement, hNotVar⟩ := hKind a
  refine ⟨rfl, hOnward, splices_single _ _ _ hStatement hNotVar, fun m w hAgree => ?_⟩
  rw [hNode]
  exact hRelated m w hAgree

/-! ## Leaves -/

theorem sees_atom (s : Span) {a : Atom} (hNop : a ≠ .nop) (hTemp : ∀ x, a ≠ .temp x) :
    (atom s a).Sees I rounds (Eval.atom I a) t t := by
  refine sees_of_action (pure ()) (fun _ => Eval.atom I a) (fun _ => .atom s a)
    (Norm.sees_pure fun sc m w hAgree => ?_) rfl (fun _ => rfl) fun _ => ⟨?_, by simp⟩
  · cases a with
    | nop => exact absurd rfl hNop
    | temp x => exact absurd rfl (hTemp x)
    | field f => exact hAgree.readField f
    | _ => exact .value hAgree
  · cases a with
    | nop => exact absurd rfl hNop
    | _ => rfl

theorem sees_var (s : Span) {v : Var} (hOut : v.out = false) (hName : t v.name ≠ .lost) :
    (var s v).Sees I rounds (.readLocal v.name) t t := by
  intro st hSound hStands
  refine Norm.Ensures.bind ((ensures_useVar s hOut st).mono (fun _ => trivial) fun _ _ h => h)
    fun v' st' h => ?_
  obtain ⟨rfl, rfl⟩ := h
  refine Norm.ensures_pure ⟨rfl, .refl hSound hStands, ⟨by simp [Node.statements], ?_, ?_⟩,
    fun m w hAgree => ?_⟩
  · simp [Node.statements, Node.isStatement]
  · intro _ span x hLast
    cases hLast
    exact ⟨hName, rfl⟩
  · have hRun : (Node.versioned I rounds
        (.var s { v with version := (st'.scope.reads v.name).getD 0 })).on w =
        (.ok (w.locals (v.name, (st'.scope.reads v.name).getD 0)), w) := by
      rw [Node.versioned, Node.meaning, if_neg (by simp [hOut])]
      rfl
    have hValue : w.locals (v.name, (st'.scope.reads v.name).getD 0) = m.locals v.name :=
      Setting.Agree.value hAgree hName
    rw [hRun, hValue]
    exact .value hAgree

/-! ## Parts in order -/

theorem AllSee.nodes {ps : List Pending} {cs : List (Eval Symbol V V)}
    (h : AllSee I rounds ps cs t t') :
    (nodes ps).Sees I rounds (Eval.all cs) (fun ns => Eval.all (ns.map (Node.versioned I rounds)))
      t t' := by
  induction h with
  | nil t => exact Norm.sees_pure fun _ _ _ hAgree => .value hAgree
  | @cons p ps c cs _ _ _ hp _ ih =>
    have : Inhabited V := ⟨I.nil⟩
    refine Norm.Sees.bind (k := fun v => Eval.all cs >>= fun vs => pure (v :: vs))
      (l := fun v ns => Eval.all (ns.map (Node.versioned I rounds)) >>= fun vs => pure (v :: vs))
      (f := fun n ns => n :: ns) hp.node (fun v => ?_) fun _ _ => rfl
    exact ih.andThen fun _ _ _ _ hAgree => .value hAgree

theorem OptionSees.optionNode {p : Option Pending} {c : Option (Eval Symbol V V)}
    (h : OptionSees I rounds p c t t') :
    (optionNode p).Sees I rounds (Eval.optional c)
      (fun n => Eval.optional (n.map (Node.versioned I rounds))) t t' := by
  cases h with
  | none => exact Norm.sees_pure fun _ _ _ hAgree => .value hAgree
  | some hp =>
    intro st hSound hStands
    refine (hp.node st hSound hStands).bind fun n st' ⟨hOnward, hRun⟩ =>
      Norm.ensures_pure ⟨hOnward, ?_⟩
    exact fun m w hAgree => (hRun m w hAgree).bind fun v m' w' hAgree' => .value hAgree'

/-! ## Assignments and calls -/

theorem sees_assign (s : Span) {v : Var} (hOut : v.out = false) {value : Pending} {target : Span}
    (h : value.Sees I rounds c t t') :
    (assign s (var target v) value).Sees I rounds (.assign (.writeLocal v.name) c) t
      (t'.assign v.name) := by
  have : Inhabited V := ⟨I.nil⟩
  have hRun : (assign s (var target v) value).run =
      (do let n ← value.node; let n' ← (var target v).target; return (n, n')) >>= fun r =>
        pure ⟨.assign s r.2 r.1, false⟩ := by
    simp only [assign, bind_assoc, pure_bind]
    rfl
  refine sees_of_action _ (fun r => Node.versioned I rounds r.1 >>= fun x =>
    r.2.store Var.cell x >>= fun _ => pure x) _ ?_ hRun (fun _ => rfl) fun _ => ⟨rfl, by simp⟩
  refine Norm.Sees.bind h.node (l := fun x n' => n'.store Var.cell x >>= fun _ => pure x)
    (fun x st hSound hStands => ?_) fun _ _ => rfl
  apply Norm.ensures_writeVar_bind
  refine Norm.ensures_pure ⟨Scope.onward_write hSound hStands v.name, fun m w hAgree => ?_⟩
  have hStore : Node.store (V := V) Var.cell
      (.var target { v with version := (st.scope.write v.name).1 }) x =
        Eval.writeLocal (v.name, (st.scope.write v.name).1) x := if_neg (by simp [hOut])
  beta_reduce
  rw [hStore]
  exact .value (hAgree.write v.name x)

theorem sees_call (s : Span) {receiver : Option Pending} (name : Symbol) {args : List Pending}
    {r : Option (Eval Symbol V V)} {cs : List (Eval Symbol V V)}
    (hReceiver : OptionSees I rounds receiver r t t') (hArgs : AllSee I rounds args cs t' t'') :
    (call s receiver name args none).Sees I rounds (.call I rounds r name cs none) t t'' := by
  have : Inhabited V := ⟨I.nil⟩
  have hRun : (call s receiver name args none).run =
      (do let n ← optionNode receiver; let ns ← nodes args; return (n, ns)) >>= fun r =>
        pure ⟨.call s r.1 name r.2 none, false⟩ := by
    simp only [call, optionBlock, bind_assoc, pure_bind]
  let call' (n : Option Node) (ns : List Node) : Eval Cell V V :=
    .call I rounds (n.map (Node.versioned I rounds)) name (ns.map (Node.versioned I rounds)) none
  refine sees_of_action _ (fun r => call' r.1 r.2) _ ?_ hRun (fun r => ?_) fun _ => ⟨rfl, by simp⟩
  · refine Norm.Sees.bind hReceiver.optionNode
      (l := fun v ns => Eval.all (ns.map (Node.versioned I rounds)) >>= fun vs =>
        Eval.finishCall I rounds (.call v name vs) none) (fun v => ?_) fun _ _ => rfl
    refine hArgs.nodes.andThen fun vs sc m w hAgree => ?_
    exact (hAgree.record _).bind fun _ m' w' hAgree' => hAgree'.answer
  · rw [Node.versioned, Node.meaning, optionMeaning_eq_map, listMeaning_eq_map]

/-! ## Sequences -/

/-- Statements in a row, none of which ends. -/
theorem AllSee.statements {ps : List Pending} {cs : List (Eval Symbol V V)}
    (h : AllSee I rounds ps cs t t') (hNonempty : ps ≠ []) {st : NormalState}
    (hSound : st.scope.AllSound) (hStands : st.scope.Stands t) :
    (statements ps).Ensures st True fun r st' =>
      r.2 = false ∧ st.scope.Onward t st'.scope t' ∧
      Splices {x | t' x ≠ .lost} r.1 false st'.scope ∧
      ∀ m w, t.Agree I rounds st.scope m w →
        Related (fun _ => t'.Agree I rounds st'.scope) ((Eval.seq I cs).on m)
          ((Eval.seq I (r.1.map (Node.versioned I rounds))).on w) := by
  induction h generalizing st with
  | nil => exact absurd rfl hNonempty
  | @cons p ps c cs t t' t'' hp hRest ih =>
    refine Norm.Ensures.bind (hp st hSound hStands) fun o st₁ ⟨hEnds, hOnward, hSplices, hRun⟩ => ?_
    rw [if_neg (by simp [hEnds])]
    have hFirst : ∀ m w, t.Agree I rounds st.scope m w →
        Related (fun _ => t'.Agree I rounds st₁.scope) (c.on m)
          ((Eval.seq I (o.node.statements.map (Node.versioned I rounds))).on w) := by
      intro m w hAgree
      have hStatements : Eval.seq I (o.node.statements.map (Node.versioned I rounds)) =
        Node.versioned I rounds o.node := (t.setting I rounds).run_statements o.node
      rw [hStatements]
      exact hRun m w hAgree
    cases hRest with
    | nil =>
      refine Norm.ensures_pure ⟨rfl, hOnward, ?_, fun m w hAgree => ?_⟩
      · simpa using hSplices
      · rw [List.append_nil]
        exact hFirst m w hAgree
    | cons hp' hRest =>
      refine Norm.Ensures.bind (ih (by simp) hOnward.sound hOnward.stands)
        fun r st₂ ⟨hEnds', hOnward', hSplices', hRun'⟩ => Norm.ensures_pure ?_
      refine ⟨hEnds', hOnward.trans hOnward', splices_append hSplices hSplices',
        fun m w hAgree => ?_⟩
      rw [List.map_append, Eval.seq_append _ _ _ (by simp [hSplices'.nonempty])]
      exact (hFirst m w hAgree).bind fun _ m' w' hAgree' => hRun' m' w' hAgree'

theorem sees_seq (s : Span) {ps : List Pending} {cs : List (Eval Symbol V V)}
    (h : AllSee I rounds ps cs t t') (hNonempty : ps ≠ []) :
    (seq s ps).Sees I rounds (.seq I cs) t t' := by
  intro st hSound hStands
  refine Norm.Ensures.bind (h.statements hNonempty hSound hStands)
    fun r st' ⟨hEnds, hOnward, hSplices, hRun⟩ => Norm.ensures_pure ?_
  refine ⟨hEnds, hOnward, ?_, fun m w hAgree => ?_⟩
  · rw [statements_ofStatements hSplices]
    exact hSplices
  · have hNode : Node.versioned I rounds (.ofStatements s r.1) =
        Eval.seq I (r.1.map (Node.versioned I rounds)) :=
      (t.setting I rounds).run_ofStatements s r.1
    rw [hNode]
    exact hRun m w hAgree

end Pending

end CoreTree

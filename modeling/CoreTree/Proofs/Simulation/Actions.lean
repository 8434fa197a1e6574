import CoreTree.Proofs.Normal.Ensures
import CoreTree.CoreForm
import CoreTree.Proofs.Simulation.Related

/-! # Normalizing actions that simulate

An action simulates a run by names if, from a state that is ready, it fails only for want of
a variable, and what it gives runs alike by versions, from the scope before it to the scope
after it. A pending tree means a run if its action simulates that run whatever temporaries
hold, and its result can be spliced into a sequence.
-/
namespace CoreTree
set_option autoImplicit false

variable {V α β γ : Type}

namespace Setting

/-- Normalization may start: versions are sound, they reach where they have to, and the held
temporaries were made before. -/
structure Ready (C : Setting V) (held : Held V) (st : NormalState) : Prop where
  sound : st.scope.Sound C.names
  bound : C.again = true → st.scope.Bound C.names
  held : ∀ t, (held t).isSome → st.program.HasTemp t

/-- What normalization does to the state as a whole. -/
structure Advances (C : Setting V) (st st' : NormalState) : Prop where
  scope : st.scope.Follows C.names st'.scope
  temps : ∀ t, st.program.HasTemp t → st'.program.HasTemp t

def Unknown (C : Setting V) (s : Scope) : Prop := ∃ x ∈ C.names, s.get? x = none

variable {C : Setting V} {held : Held V} {st st' st'' : NormalState}

theorem Advances.refl (C : Setting V) (st : NormalState) : C.Advances st st :=
  ⟨.refl _ _, fun _ h => h⟩

theorem Advances.trans (h : C.Advances st st') (h' : C.Advances st' st'') : C.Advances st st'' :=
  ⟨h.scope.trans h'.scope, fun t ht => h'.temps t (h.temps t ht)⟩

theorem Ready.advance (h : C.Ready held st) (hAdv : C.Advances st st') : C.Ready held st' where
  sound := hAdv.scope.sound h.sound
  bound hAgain := hAdv.scope.bound (h.bound hAgain)
  held t ht := hAdv.temps t (h.held t ht)

theorem Ready.keep (h : C.Ready held st) {t : Symbol} (hTemp : st.program.HasTemp t) (v : V) :
    C.Ready (held.keep t v) st where
  sound := h.sound
  bound := h.bound
  held u hu := by
    by_cases hEq : u = t
    · exact hEq ▸ hTemp
    · rw [Held.keep, Function.update_of_ne hEq] at hu
      exact h.held u hu

theorem Unknown.retreat {s s' : Scope} (h : C.Unknown s') (hFollows : s.Follows C.names s') :
    C.Unknown s := by
  obtain ⟨x, hx, hNone⟩ := h
  exact ⟨x, hx, (hFollows x hx).eq_none hNone⟩

/-- Steps that leave the scope alone and keep the agreement. -/
def Keeps (C : Setting V) (held : Held V) (c : Eval Symbol V α) (d : Eval Cell V α) : Prop :=
  ∀ s m w, C.Agree held s m w → Related (fun _ => C.Agree held s) (c.on m) (d.on w)

theorem keeps_pure (a : α) : C.Keeps held (pure a) (pure a) := fun _ _ _ h => .value h

theorem Keeps.bind {c : Eval Symbol V α} {d : Eval Cell V α} {f : α → Eval Symbol V β}
    {g : α → Eval Cell V β} (h : C.Keeps held c d) (hNext : ∀ a, C.Keeps held (f a) (g a)) :
    C.Keeps held (c >>= f) (d >>= g) :=
  fun s m w hAgree => (h s m w hAgree).bind fun a m' w' h' => hNext a s m' w' h'

end Setting

/-! ## Actions -/

/-- What the action gives, read by `d`, runs as `c` does. -/
def Norm.Simulates (C : Setting V) (held : Held V) (act : Norm α) (c : Eval Symbol V β)
    (d : α → Eval Cell V β) : Prop :=
  ∀ st, C.Ready held st → act.Ensures st (C.Unknown st.scope) fun a st' =>
    C.Advances st st' ∧ ∀ m w, C.Agree held st.scope m w →
      Related (fun _ => C.Agree held st'.scope) (c.on m) ((d a).on w)

namespace Norm

variable {C : Setting V} {held : Held V} {act : Norm α} {c : Eval Symbol V β}
  {d : α → Eval Cell V β}

theorem simulates_pure (a : α) (h : C.Keeps held c (d a)) :
    (pure a : Norm α).Simulates C held c d := by
  intro st _
  exact ensures_pure ⟨.refl C st, h st.scope⟩

/-- Two actions in a row. What the second one gives runs after what the first one gives. -/
theorem Simulates.bind {δ ε ζ : Type} [Inhabited β] {act' : Norm δ} {k : β → Eval Symbol V ε}
    {l : β → δ → Eval Cell V ε} {f : α → δ → ζ} {e : ζ → Eval Cell V ε}
    (h : act.Simulates C held c d) (h' : ∀ b, act'.Simulates C held (k b) (l b))
    (hPair : ∀ a a', e (f a a') = d a >>= fun b => l b a') :
    Norm.Simulates C held (do let a ← act; let a' ← act'; return f a a') (c >>= k) e := by
  intro st hReady
  apply (h st hReady).bind
  rintro a st₁ ⟨hAdv, hRun⟩
  refine Ensures.bind (Ensures.mono (.all fun b => h' b st₁ (hReady.advance hAdv))
    (·.retreat hAdv.scope) fun _ _ h => h) fun a' st₂ h₂ => ensures_pure ?_
  refine ⟨hAdv.trans (h₂ default).1, fun m w hAgree => ?_⟩
  rw [hPair]
  exact (hRun m w hAgree).bind fun b m' w' hAgree' => (h₂ b).2 m' w' hAgree'

theorem Simulates.andThen {k : β → Eval Symbol V γ} {k' : β → Eval Cell V γ}
    (h : act.Simulates C held c d) (hKeeps : ∀ b, C.Keeps held (k b) (k' b)) :
    act.Simulates C held (c >>= k) fun a => d a >>= k' := by
  intro st hReady
  refine (h st hReady).mono (fun h => h) fun a st' ⟨hAdv, hRun⟩ => ⟨hAdv, fun m w hAgree => ?_⟩
  exact (hRun m w hAgree).bind fun b m' w' hAgree' => hKeeps b _ m' w' hAgree'

end Norm

/-! ## Pending trees -/

def Setting.run (C : Setting V) (n : Node) : Eval Cell V V := n.versioned C.interp C.rounds

/-- Statements that can stand in a sequence. If they go on to what follows and the last one is
a variable, it is the variable that the scope reads. -/
structure Splices (X : Set Symbol) (stmts : List Node) (ends : Bool) (s : Scope) : Prop where
  nonempty : stmts ≠ []
  flat : ∀ n ∈ stmts, n.isStatement = true
  last : ends = false → ∀ span v, stmts.getLast? = some (.var span v) →
    v.name ∈ X ∧ v.version = (s.reads v.name).getD 0

/-- The result of the pending tree runs as `c` does, and then the temporaries hold what
`after` says. -/
def Pending.SimulatesIn (E : Escape V) (C : Setting V) (held : Held V) (p : Pending)
    (c : Eval Symbol V V) (after : V → Held V) (st : NormalState) : Prop :=
  p.run.Ensures st (C.Unknown st.scope) fun o st' =>
    C.Advances st st' ∧ Splices C.names o.node.statements o.ends st'.scope ∧
    ∀ m w, C.Agree held st.scope m w →
      Alike E (fun v m' w' => o.ends = false ∧ C.Agree (after v) st'.scope m' w') (c.on m)
        ((C.run o.node).on w)

abbrev Pending.SimulatesFrom (C : Setting V) (held : Held V) (p : Pending) (c : Eval Symbol V V)
    (after : V → Held V) (st : NormalState) : Prop :=
  p.SimulatesIn .closed C held c after st

def Pending.Simulates (C : Setting V) (held : Held V) (p : Pending) (c : Eval Symbol V V)
    (after : V → Held V) : Prop :=
  ∀ st, C.Ready held st → p.SimulatesFrom C held c after st

/-- Whatever temporaries hold beside `held`, they hold it afterwards. The scope at the start is one
of those that `S` tells. -/
def Pending.MeansIn (E : Escape V) (S : Scope → Prop) (C : Setting V) (held : Held V)
    (p : Pending) (c : Eval Symbol V V) : Prop :=
  ∀ held', held.Extends held' → ∀ st, C.Ready held' st → S st.scope →
    p.SimulatesIn E C held' c (fun _ => held') st

abbrev Pending.Means (C : Setting V) (held : Held V) (p : Pending) (c : Eval Symbol V V) : Prop :=
  p.MeansIn .closed (fun _ => True) C held c

/-- From a scope that `S` tells, the tree leads to scopes that `S'` tells, and so does whatever
reads the same. -/
def Pending.Leads (C : Setting V) (S S' : Scope → Prop) (p : Pending) : Prop :=
  ∀ st n st', S st.scope → p.node.run st = .ok n st' →
    ∀ sc : Scope, (∀ x ∈ C.names, sc.reads x = st'.scope.reads x) → S' sc

theorem Node.statements_of_isStatement {n : Node} (h : n.isStatement = true) :
    n.statements = [n] := by
  unfold isStatement at h
  unfold statements
  split at h <;> simp_all

theorem splices_single (X : Set Symbol) {n : Node} (s : Scope) (ends : Bool)
    (hStatement : n.isStatement = true) (hNotVar : ∀ span v, n ≠ .var span v) :
    Splices X n.statements ends s := by
  rw [Node.statements_of_isStatement hStatement]
  refine ⟨by simp, by simpa using hStatement, ?_⟩
  intro _ span v hLast
  exact absurd (Option.some.inj hLast) (hNotVar span v)

namespace Pending

variable {C : Setting V} {held held' : Held V} {p : Pending} {c : Eval Symbol V V}

variable {E : Escape V} {S S' : Scope → Prop}

theorem MeansIn.extend (h : p.MeansIn E S C held c) (hExtends : held.Extends held') :
    p.MeansIn E S C held' c := fun _ h' => h _ (hExtends.trans h')

theorem MeansIn.simulates (h : p.Means C held c) : p.Simulates C held c fun _ => held :=
  fun st hReady => h held (.refl _) st hReady trivial

theorem SimulatesFrom.simulatesIn {after : V → Held V} {st : NormalState}
    (h : p.SimulatesFrom C held c after st) : p.SimulatesIn E C held c after st :=
  h.mono id fun _ _ ⟨hAdv, hSplices, hRun⟩ =>
    ⟨hAdv, hSplices, fun m w hAgree => (hRun m w hAgree).of_closed⟩

theorem MeansIn.anywhere (h : p.Means C held c) : p.MeansIn E S C held c :=
  fun held' hExtends st hReady _ =>
    SimulatesFrom.simulatesIn (h held' hExtends st hReady trivial)

theorem run_node {o : Outcome} {st st' : NormalState} (h : p.run.run st = .ok o st') :
    p.node.run st = .ok o.node st' := by
  rw [node, EStateM.run_bind, h]
  rfl

theorem leads_true : p.Leads C S fun _ => True := fun _ _ _ _ _ _ _ => trivial

theorem SimulatesIn.node {after : V → Held V} {st : NormalState}
    (h : p.SimulatesIn E C held c after st) :
    p.node.Ensures st (C.Unknown st.scope) fun n st' =>
      C.Advances st st' ∧ ∀ m w, C.Agree held st.scope m w →
        Alike E (fun v => C.Agree (after v) st'.scope) (c.on m) ((C.run n).on w) := by
  refine Norm.Ensures.bind h fun o st' ⟨hAdv, _, hRun⟩ => Norm.ensures_pure ⟨hAdv, ?_⟩
  exact fun m w hAgree => (hRun m w hAgree).mono fun _ _ _ h => h.2

theorem MeansIn.node (h : p.Means C held c) : p.node.Simulates C held c C.run :=
  fun st hReady => (h.simulates st hReady).node

/-- A construct that is one statement and goes on after it. -/
theorem means_of_action (act : Norm α) (d : α → Eval Cell V V) (make : α → Node)
    (h : ∀ held', held.Extends held' → act.Simulates C held' c d)
    (hRun : p.run = act >>= fun a => pure ⟨make a, false⟩) (hNode : ∀ a, C.run (make a) = d a)
    (hKind : ∀ a, (make a).isStatement = true ∧ ∀ span v, make a ≠ .var span v) :
    p.Means C held c := by
  intro held' hExtends st hReady _
  rw [SimulatesIn, hRun]
  refine (h held' hExtends st hReady).bind fun a st' ⟨hAdv, hRelated⟩ => Norm.ensures_pure ?_
  obtain ⟨hStatement, hNotVar⟩ := hKind a
  refine ⟨hAdv, splices_single _ _ _ hStatement hNotVar, fun m w hAgree => ?_⟩
  rw [hNode]
  exact (hRelated m w hAgree).mono fun _ _ _ h => ⟨rfl, h⟩

end Pending

end CoreTree

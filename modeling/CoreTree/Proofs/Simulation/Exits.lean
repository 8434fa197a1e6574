import CoreTree.Proofs.Frame.OfNode
import CoreTree.Proofs.Simulation.OfNode

/-! # Loops that are left early

A branch that ends is not bridged, so `next` and `break` carry each variable out in the version
that it has there. Where nothing ahead of the exit has assigned the variable, that is the version
from before the body. Inside a body that is all that is asked for, and a loop whose early exits
come ahead of every assignment means what it means as it is written.
-/
namespace CoreTree
set_option autoImplicit false

variable {V : Type} {F : Fragment} {X Y : Set Symbol}

/-! ## Trees with early exits -/

/-- Nothing in the tree assigns a variable that has to reach an exit behind it. -/
def Node.Clears (n : Node) (o : Option (Set Symbol)) : Prop :=
  ∀ Y ∈ o, ∀ y ∈ Y, n.Spares noRequire y

mutual
/-- If a set of variables is given, `next` and `break` may lead out of the tree, and nothing ahead
of them assigns one of these variables. Otherwise they stay within loops of the tree. -/
inductive Node.ExitsFirst (F : Fragment) (X : Set Symbol) : Option (Set Symbol) → Node → Prop where
  | within {n : Node} (h : n.Within F X) : Node.ExitsFirst F X none n
  | stays {Y : Set Symbol} {n : Node} (h : Node.ExitsFirst F X none n) :
    Node.ExitsFirst F X (some Y) n
  | jump {Y : Set Symbol} {s : Span} {kind : JumpKind} {value : Option Node}
    (hValue : optionWithin F X value) (hClear : ∀ n ∈ value, n.Clears (some Y)) :
    Node.ExitsFirst F X (some Y) (.jump s kind value)
  | seq {o : Option (Set Symbol)} {s : Span} {stmts : List Node}
    (h : ListExitsFirst F X o stmts) : Node.ExitsFirst F X o (.seq s stmts)
  | cond {o : Option (Set Symbol)} {s : Span} {form : CondForm} {test : Node}
    {body other : Option Node} (hTest : test.Within F X) (hClear : test.Clears o)
    (hBody : ∀ n ∈ body, Node.ExitsFirst F X o n) (hOther : ∀ n ∈ other, Node.ExitsFirst F X o n) :
    Node.ExitsFirst F X o (.cond s form test body other)
  | logic {o : Option (Set Symbol)} {s : Span} {op : LogicOp} {left right : Node}
    (hLeft : left.Within F X) (hClear : left.Clears o) (hRight : Node.ExitsFirst F X o right) :
    Node.ExitsFirst F X o (.logic s op left right)
  | choose {o : Option (Set Symbol)} {s : Span} {subject : Node} {whens : List (When Node)}
    {other : Option Node} (hSubject : subject.Within F X) (hClear : subject.Clears o)
    (hPatterns : ∀ w ∈ whens, listWithin F X w.patterns ∧ ∀ n ∈ w.patterns, n.Clears o)
    (hBodies : ∀ w ∈ whens, ∀ n ∈ w.body, Node.ExitsFirst F X o n)
    (hOther : ∀ n ∈ other, Node.ExitsFirst F X o n) :
    Node.ExitsFirst F X o (.choose s subject whens other)
  | loop {s : Span} {test : Node} {body : Option Node} (hLoops : F.loops = true)
    (hTest : test.Within F X) (hClear : test.Clears (some X))
    (hBody : ∀ n ∈ body, Node.ExitsFirst F X (some X) n) :
    Node.ExitsFirst F X none (.loop s test body)

inductive ListExitsFirst (F : Fragment) (X : Set Symbol) :
    Option (Set Symbol) → List Node → Prop where
  | last {o : Option (Set Symbol)} {n : Node} (h : Node.ExitsFirst F X o n) :
    ListExitsFirst F X o [n]
  | clear {o : Option (Set Symbol)} {n : Node} {ns : List Node} (h : Node.ExitsFirst F X o n)
    (hClear : n.Clears o) (hRest : ListExitsFirst F X o ns) : ListExitsFirst F X o (n :: ns)
  | stays {Y : Set Symbol} {n : Node} {ns : List Node} (h : Node.ExitsFirst F X (some Y) n)
    (hRest : ListExitsFirst F X none ns) : ListExitsFirst F X (some Y) (n :: ns)
end

/-! ## What the machines have in common at an exit -/

def Setting.only (C : Setting V) (Y : Set Symbol) : Setting V := { C with names := Y }

theorem Setting.Agree.only {C : Setting V} {held : Held V} {s : Scope} {m : Machine Symbol V}
    {w : Machine Cell V} (h : C.Agree held s m w) (hY : Y ⊆ C.names) :
    (C.only Y).Agree held s m w :=
  ⟨fun x hx => h.reads x (hY hx), fun x hx => h.unset x (hY hx), h.temps, h.world⟩

/-- At `next` and `break` the machines agree on the variables that are given, at a scope from
before the body. -/
def Setting.exits (C : Setting V) (held : Held V) (entry : Scope) :
    Option (Set Symbol) → Escape V
  | none => .closed
  | some Y =>
    { may := fun _ => True
      post := fun e m w => m.world = w.world ∧ (¬ e.Leaves → (C.only Y).Agree held entry m w)
      leaves := fun _ _ => trivial
      post_of_leaves := fun _ _ _ hLeaves hWorld => ⟨hWorld, fun hStays => absurd hLeaves hStays⟩
      world := fun _ _ _ h => h.1 }

/-- The scope reads these variables as the entry does. -/
def Scope.Reaches (entry : Scope) : Option (Set Symbol) → Scope → Prop
  | none, _ => True
  | some Y, s => ∀ y ∈ Y, s.reads y = entry.reads y

/-! ## Ahead of an exit -/

variable {C : Setting V} {answer : RequireHandler} {o : Option (Set Symbol)} {entry : Scope}

namespace Pending

def Clears (p : Pending) (o : Option (Set Symbol)) : Prop :=
  ∀ Y ∈ o, ∀ y ∈ Y, ∀ files, p.Spares files y

theorem Clears.reaches {p : Pending} (h : p.Clears o) {st st' : NormalState} {n : Node}
    (hStart : entry.Reaches o st.scope) (hRun : p.node.run st = .ok n st') :
    entry.Reaches o st'.scope := by
  cases o with
  | none => trivial
  | some Y =>
    intro y hy
    obtain ⟨-, hSame, -⟩ := ((h Y rfl y hy st.program.loader).node st rfl).of_ok hRun
    rw [Scope.reads, hSame, ← Scope.reads, hStart y hy]

theorem Clears.leads {p : Pending} (h : p.Clears o) (hNames : ∀ Y ∈ o, Y ⊆ C.names)
    (entry : Scope) : p.Leads C (entry.Reaches o) (entry.Reaches o) := by
  intro st n st' hStart hRun sc hReads
  have hReaches := h.reaches hStart hRun
  cases o with
  | none => trivial
  | some Y => exact fun y hy => (hReads y (hNames Y rfl hy)).trans (hReaches y hy)

theorem clears_clauseTest (s : Span) {scrutinee : Pending} {patterns : List Pending}
    (hScrutinee : scrutinee.Clears o) (hPatterns : ∀ p ∈ patterns, p.Clears o) :
    (clauseTest s scrutinee patterns).Clears o := fun Y hY y hy files =>
  spares_clauseTest s (hScrutinee Y hY y hy files) fun p hp => hPatterns p hp Y hY y hy files

end Pending

theorem Node.Clears.pending (hAnswer : ∀ s path, (answer s path).KeepsLoader) {n : Node}
    (h : n.Clears o) : (n.pending answer).Clears o :=
  fun Y hY y hy _ => Node.spares_pending ⟨hAnswer, nofun⟩ n (h Y hY y hy)

theorem clears_pendingList (hAnswer : ∀ s path, (answer s path).KeepsLoader) {ns : List Node}
    (h : ∀ n ∈ ns, n.Clears o) : ∀ p ∈ pendingList answer ns, p.Clears o :=
  forall_pendingList fun n hn => (h n hn).pending hAnswer

theorem testsLead_pendingWhens (hAnswer : ∀ s path, (answer s path).KeepsLoader)
    (hNames : ∀ Y ∈ o, Y ⊆ C.names) (s : Span) {scrutinee : Pending}
    (hScrutinee : scrutinee.Clears o) {whens : List (When Node)}
    (h : ∀ w ∈ whens, ∀ n ∈ w.patterns, n.Clears o) :
    Pending.TestsLead C (entry.Reaches o) s scrutinee (pendingWhens answer whens) := by
  induction whens with
  | nil =>
    rw [pendingWhens]
    exact nofun
  | cons w ws ih =>
    have hPatterns := clears_pendingList hAnswer (h w (.head _))
    rw [pendingWhens]
    exact List.forall_mem_cons.mpr
      ⟨(Pending.clears_clauseTest s hScrutinee hPatterns).leads hNames entry,
        ih fun w' hw' => h w' (.tail _ hw')⟩

/-! ## Loops -/

namespace Pending

variable {held : Held V} {test : Pending} {body : Option Pending} {c : Eval Symbol V V}
  {k : Option (Eval Symbol V V)} {st : NormalState}

/-- If every variable is brought out of the body by `next` and `break`, the loop goes round in both
machines alike. -/
theorem Rounds.related_of_clears {s : Span} {b : Eval Symbol V V} {n : Outcome} {st' : NormalState}
    (h : Rounds (fun entry => C.exits held entry (some C.names)) C held test c b st s n st')
    (hClear : test.Clears (some C.names)) {m : Machine Symbol V} {w : Machine Cell V}
    (hAgree : C.Agree held st.scope m w) :
    Related (fun _ => C.Agree held st'.scope) ((Eval.loop C.interp c b C.rounds).on m)
      ((C.run n.node).on w) := by
  refine h.related_loop (fun _ st₁ hOk _ m w _ hPost => ?_) (fun s₁ hBehind _ m w _ hPost => ?_)
    hAgree
  · have hAhead : st.scope.Reaches (some C.names) st₁.scope :=
      hClear.reaches (fun _ _ => rfl) hOk
    exact (hPost.2 nofun).congr_reads fun x hx => (hAhead x hx).symm
  · exact (hPost.2 nofun).congr_reads hBehind

theorem means_loop_of_exits (s : Span) (hAgain : C.again = true) (hTest : test.Means C held c)
    (hClear : test.Clears (some C.names))
    (hBody : ∀ held', held.Extends held' → ∀ entry : Scope,
      C.OptionMeansIn (C.exits held' entry (some C.names)) (entry.Reaches (some C.names)) held'
        body k) :
    (loop s test body).Means C held (.loop C.interp c (.branch C.interp k) C.rounds) := by
  intro held' hExtends st hReady _
  refine (ensures_loop (E := fun entry => C.exits held' entry (some C.names)) s hAgain
    (hTest.extend hExtends) hReady fun _ st₁ _ hReady₁ =>
      (hBody held' hExtends st₁.scope).simulatesIn hReady₁ fun _ _ => rfl).mono id fun n st' h => ?_
  obtain ⟨test', body', _, rfl, -⟩ := h.pass
  exact ⟨h.advances, splices_single _ _ _ rfl nofun, fun m w hAgree =>
    (h.related_of_clears hClear hAgree).mono fun _ _ _ h => ⟨rfl, h⟩⟩

end Pending

/-! ## Trees -/

theorem optionMeansIn_pendingOption {E : Escape V} {S : Scope → Prop} {held : Held V}
    {n : Option Node}
    (h : ∀ m ∈ n, (m.pending answer).MeansIn E S C held (m.named C.interp C.rounds)) :
    C.OptionMeansIn E S held (pendingOption answer n)
      (optionMeaning C.interp Var.name C.rounds n) := by
  cases n with
  | none =>
    rw [pendingOption, optionMeaning]
    exact .none
  | some n =>
    rw [pendingOption, optionMeaning]
    exact .some (h n rfl)

theorem whensMeanIn_pendingWhens (hAdmits : C.Admits F) {E : Escape V} {S : Scope → Prop}
    {held : Held V} {whens : List (When Node)}
    (hPatterns : ∀ w ∈ whens, listWithin F C.names w.patterns)
    (hBodies : ∀ w ∈ whens, ∀ m ∈ w.body,
      (m.pending answer).MeansIn E S C held (m.named C.interp C.rounds)) :
    List.Forall₂ (Pending.WhenMeansIn E S C held) (pendingWhens answer whens)
      (whensMeaning C.interp Var.name C.rounds whens) := by
  induction whens with
  | nil =>
    rw [pendingWhens, whensMeaning]
    exact .nil
  | cons w ws ih =>
    rw [pendingWhens, whensMeaning]
    exact .cons ⟨means_pendingList answer hAdmits w.patterns (hPatterns w (.head _)),
      optionMeansIn_pendingOption (hBodies w (.head _))⟩
      (ih (fun w' hw' => hPatterns w' (.tail _ hw')) fun w' hw' => hBodies w' (.tail _ hw'))

theorem ListExitsFirst.seq_cons {ns : List Node} (h : ListExitsFirst F X o ns) (I : Interp V)
    (rounds : Nat) (n : Node) :
    Eval.seq I (listMeaning I Var.name rounds (n :: ns)) =
      n.named I rounds >>= fun _ => Eval.seq I (listMeaning I Var.name rounds ns) := by
  cases h <;> rfl

/-- At a jump whose value assigns none of these variables they are read as at the entry. -/
theorem reaches_optionNode (hAnswer : ∀ s path, (answer s path).KeepsLoader)
    {value : Option Node} (hClear : ∀ n ∈ value, n.Clears (some Y))
    {st st' : NormalState} {n : Option Node} (hStart : entry.Reaches (some Y) st.scope)
    (hRun : (Pending.optionNode (pendingOption answer value)).run st = .ok n st') :
    entry.Reaches (some Y) st'.scope := by
  intro y hy
  have hSpares : Pending.OptionSpares (pendingOption answer value) st.program.loader y := by
    cases value with
    | none =>
      rw [pendingOption]
      exact Pending.optionSpares_none
    | some m =>
      rw [pendingOption]
      exact Pending.optionSpares_some ((hClear m rfl).pending hAnswer Y rfl y hy _)
  obtain ⟨-, hSame, -⟩ := (Pending.spares_optionNode hSpares st rfl).of_ok hRun
  rw [Scope.reads, hSame, ← Scope.reads, hStart y hy]

mutual
/-- Where early exits come first, normalization preserves what the tree means up to the exit. -/
theorem Node.meansIn_pending (hAnswer : ∀ s path, (answer s path).KeepsLoader)
    (hAdmits : C.Admits F) {o : Option (Set Symbol)} {n : Node} (h : n.ExitsFirst F C.names o)
    (hNames : ∀ Y ∈ o, Y ⊆ C.names) (entry : Scope) {held held' : Held V}
    (hHeld : held.Extends held') :
    (n.pending answer).MeansIn (C.exits held entry o) (entry.Reaches o) C held'
      (n.named C.interp C.rounds) := by
  match h with
  | .within h => exact Node.means_pending answer hAdmits n h
  | .stays h =>
    exact Pending.MeansIn.anywhere (Node.meansIn_pending hAnswer hAdmits h nofun entry hHeld)
  | .jump hValue hClear =>
    rw [Node.pending, Node.named, Node.meaning]
    refine Pending.meansIn_jump _ (means_pendingOption answer hAdmits _ hValue)
      (fun _ => trivial) fun st m st' hStart hRun _ m' w' hAgree => ⟨hAgree.world, fun _ => ?_⟩
    have hReads := reaches_optionNode hAnswer hClear hStart hRun
    exact ((hAgree.weaken hHeld).only (hNames _ rfl)).congr_reads fun y hy => (hReads y hy).symm
  | .seq h =>
    rw [Node.pending, Node.named, Node.meaning]
    exact fun held'' hExtends st hReady hStart => Pending.simulatesIn_seq
      (statementsIn_pendingList hAnswer hAdmits h hNames entry (hHeld.trans hExtends) hReady hStart)
  | .cond hTest hClear hBody hOther =>
    rw [Node.pending, Node.named, Node.meaning]
    refine Pending.meansIn_cond _ _ (Node.means_pending answer hAdmits _ hTest)
      ((hClear.pending hAnswer).leads hNames entry) (optionMeansIn_pendingOption fun m hm => ?_)
      (optionMeansIn_pendingOption fun m hm => ?_)
    · exact Node.meansIn_pending hAnswer hAdmits (hBody m hm) hNames entry hHeld
    · exact Node.meansIn_pending hAnswer hAdmits (hOther m hm) hNames entry hHeld
  | .logic hLeft hClear hRight =>
    rename_i s op left right
    have hMeans : (left.pending answer).Means C held' (left.named C.interp C.rounds) :=
      Node.means_pending answer hAdmits left hLeft
    have hLeads := (hClear.pending hAnswer).leads hNames entry
    have hEscapes := Node.meansIn_pending hAnswer hAdmits hRight hNames entry hHeld
    rw [Node.pending, Node.named, Node.meaning]
    cases op with
    | and => exact Pending.meansIn_and s (quiet_named answer) hMeans hLeads hEscapes
    | or => exact Pending.meansIn_or s (quiet_named answer) hMeans hLeads hEscapes
  | .choose hSubject hClear hPatterns hBodies hOther =>
    rename_i s subject whens other
    have hClearPatterns := fun w hw => (hPatterns w hw).2
    have hTemp : ∀ t, (Pending.temp (subject.pending answer).span t).Clears o :=
      fun t _ _ _ _ _ => Pending.spares_temp _ t
    rw [Node.pending, Node.named, Node.meaning, isVariable_eq_isScrutinee answer hSubject]
    refine Pending.meansIn_choose s (Node.means_pending answer hAdmits subject hSubject)
      ((hClear.pending hAnswer).leads hNames entry)
      (testsLead_pendingWhens hAnswer hNames s (hClear.pending hAnswer) hClearPatterns)
      (fun t => testsLead_pendingWhens hAnswer hNames s (hTemp t) hClearPatterns)
      (whensMeanIn_pendingWhens hAdmits (fun w hw => (hPatterns w hw).1) fun w hw m hm => ?_)
      (optionMeansIn_pendingOption fun m hm => ?_)
    · exact Node.meansIn_pending hAnswer hAdmits (hBodies w hw m hm) hNames entry hHeld
    · exact Node.meansIn_pending hAnswer hAdmits (hOther m hm) hNames entry hHeld
  | .loop hLoops hTest hClear hBody =>
    rw [Node.pending, Node.named, Node.meaning]
    -- the body's own exits lead no further than this loop
    refine Pending.means_loop_of_exits _ (hAdmits.1 hLoops)
      (Node.means_pending answer hAdmits _ hTest) (hClear.pending hAnswer)
      fun held'' _ entry' => optionMeansIn_pendingOption fun m hm => ?_
    exact Node.meansIn_pending hAnswer hAdmits (hBody m hm) (by simp) entry' (.refl _)
termination_by structural h

theorem statementsIn_pendingList (hAnswer : ∀ s path, (answer s path).KeepsLoader)
    (hAdmits : C.Admits F) {o : Option (Set Symbol)} {ns : List Node}
    (h : ListExitsFirst F C.names o ns) (hNames : ∀ Y ∈ o, Y ⊆ C.names) (entry : Scope)
    {held held' : Held V} (hHeld : held.Extends held') {st : NormalState}
    (hReady : C.Ready held' st) (hStart : entry.Reaches o st.scope) :
    Pending.StatementsIn (C.exits held entry o) C held' (pendingList answer ns)
      (.seq C.interp (listMeaning C.interp Var.name C.rounds ns)) (fun _ => held') st := by
  match h with
  | .last h =>
    exact Pending.statementsIn_single
      (Node.meansIn_pending hAnswer hAdmits h hNames entry hHeld held' (.refl _) st hReady hStart)
  | .clear h hClear hRest =>
    rw [hRest.seq_cons]
    refine Pending.statementsIn_cons
      (Node.meansIn_pending hAnswer hAdmits h hNames entry hHeld held' (.refl _) st hReady hStart)
      fun _ _ st' hOk hAdv => ?_
    have hStart' := (hClear.pending hAnswer).reaches hStart (Pending.run_node hOk)
    exact statementsIn_pendingList hAnswer hAdmits hRest hNames entry hHeld (hReady.advance hAdv)
      hStart'
  | .stays h hRest =>
    rw [hRest.seq_cons]
    refine Pending.statementsIn_cons
      (Node.meansIn_pending hAnswer hAdmits h hNames entry hHeld held' (.refl _) st hReady hStart)
      fun _ _ _ _ hAdv => ?_
    have hClosed := statementsIn_pendingList hAnswer hAdmits hRest nofun entry hHeld
      (hReady.advance hAdv) trivial
    exact hClosed.of_closed
termination_by structural h
end

end CoreTree

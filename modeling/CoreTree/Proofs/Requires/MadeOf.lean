import CoreTree.Normal.OfNode

/-! # What normalizing actions are made of

To normalize a tree is to take a few kinds of steps, one after another: look at the scope or
replace it, allocate in the program, give up because a variable is unknown, and answer a
require. Only the answers touch the files. What holds of all these steps, and of one step after
another, holds of whole trees.
-/
namespace CoreTree
set_option autoImplicit false

variable {α β : Type}

/-- What is allocated, temporaries, constants and types, has nothing to do with files. -/
structure Program.Allocates (p q : Program) : Prop where
  requires : q.requires = p.requires
  loader : q.loader = p.loader

inductive Norm.MadeOf (answer : RequireHandler) : {α : Type} → Norm α → Prop where
  | pure {α : Type} (a : α) : MadeOf answer (pure a : Norm α)
  | bind {α β : Type} {act : Norm α} {f : α → Norm β} (h : MadeOf answer act)
    (hNext : ∀ a, MadeOf answer (f a)) : MadeOf answer (act >>= f)
  | getScope : MadeOf answer getScope
  | setScope (scope : Scope) : MadeOf answer (setScope scope)
  | onProgram {α : Type} {f : Program → α × Program}
    (h : ∀ p : Program, p.Allocates (f p).2) : MadeOf answer (onProgram f)
  | unbound {α : Type} (x : Symbol) (s : Span) :
    MadeOf answer (do throw (.unbound ((← get).program.names.text x) s) : Norm α)
  | answer (s : Span) (path : Symbol) : MadeOf answer (answer s path)

/-! ## Effects -/

/-- What an action does to the program, if it succeeds and if it fails. -/
def Norm.Effects (act : Norm α) (settles : Program → Program → Prop)
    (breaks : NormalizeError → Program → Program → Prop) : Prop :=
  ∀ st, match act.run st with
    | .ok _ st' => settles st.program st'.program
    | .error e st' => breaks e st.program st'.program

section

variable {settles : Program → Program → Prop}
  {breaks : NormalizeError → Program → Program → Prop}

theorem Norm.effects_bind {act : Norm α} {f : α → Norm β}
    (hTrans : ∀ p q r, settles p q → settles q r → settles p r)
    (hAfter : ∀ e p q r, settles p q → breaks e q r → breaks e p r)
    (h : act.Effects settles breaks) (hNext : ∀ a, (f a).Effects settles breaks) :
    (act >>= f).Effects settles breaks := by
  intro st
  have hAct := h st
  rw [EStateM.run_bind]
  cases hRun : act.run st with
  | error e st' =>
    rw [hRun] at hAct
    exact hAct
  | ok a st' =>
    rw [hRun] at hAct
    have hRest := hNext a st'
    dsimp only at hAct ⊢
    cases hNextRun : (f a).run st' with
    | ok b st'' =>
      rw [hNextRun] at hRest
      exact hTrans _ _ _ hAct hRest
    | error e st'' =>
      rw [hNextRun] at hRest
      exact hAfter _ _ _ _ hAct hRest

/-- An effect that allocation has, that goes on from one step to the next, and that answers to
requires have, is the effect of every action that is made of such steps. -/
theorem Norm.MadeOf.effects {answer : RequireHandler} {act : Norm α} (h : act.MadeOf answer)
    (hAllocates : ∀ p q, p.Allocates q → settles p q)
    (hTrans : ∀ p q r, settles p q → settles q r → settles p r)
    (hAfter : ∀ e p q r, settles p q → breaks e q r → breaks e p r)
    (hUnbound : ∀ name s p, breaks (.unbound name s) p p)
    (hAnswer : ∀ s path, (answer s path).Effects settles breaks) :
    act.Effects settles breaks := by
  have hSame : ∀ p, settles p p := fun p => hAllocates p p ⟨rfl, rfl⟩
  induction h with
  | pure a => exact fun st => hSame _
  | bind _ _ ih ihNext => exact effects_bind hTrans hAfter ih ihNext
  | getScope => exact fun st => hSame _
  | setScope scope => exact fun st => hSame _
  | onProgram h => exact fun st => hAllocates _ _ (h _)
  | unbound x s => exact fun st => hUnbound _ _ _
  | answer s path => exact hAnswer s path

end

/-! ## Actions -/

namespace Program

theorem allocates_freshTemp (p : Program) : p.Allocates p.freshTemp.2 := ⟨rfl, rfl⟩

theorem allocates_regexConstant (p : Program) (text : Symbol) (s : Span) :
    p.Allocates (p.regexConstant text s).2 := by
  unfold regexConstant
  split <;> exact ⟨rfl, rfl⟩

theorem allocates_genericType (p : Program) (base : Symbol) (args : List TypeArg) :
    p.Allocates (p.genericType base args).2 := ⟨rfl, rfl⟩

end Program

variable {answer : RequireHandler}

namespace Norm

theorem madeOf_freshTemp : freshTemp.MadeOf answer := .onProgram Program.allocates_freshTemp

theorem madeOf_writeVar (v : Var) : (writeVar v).MadeOf answer :=
  .bind .getScope fun _ => .bind (.setScope _) fun _ => .pure _

theorem madeOf_useVar (s : Span) (v : Var) : (useVar s v).MadeOf answer := by
  unfold useVar
  split
  · exact madeOf_writeVar v
  · apply MadeOf.bind .getScope
    intro scope
    split
    · exact .pure _
    · exact .unbound _ _

theorem MadeOf.inScope {act : Norm α} (h : act.MadeOf answer) (scope : Scope) :
    (inScope scope act).MadeOf answer :=
  .bind .getScope fun outer => .bind (.setScope scope) fun _ => .bind h fun _ =>
    .bind (.setScope outer) fun _ => .pure _

theorem madeOf_appendBridges (s : Span) (branch : Option Node) (bridges : List Bridge) :
    (appendBridges s branch bridges).MadeOf answer := by
  unfold appendBridges
  split
  · exact .pure _
  · simp only
    split
    · exact .pure _
    · split
      · exact .pure _
      · exact .bind madeOf_freshTemp fun _ => .pure _

theorem madeOf_close (s : Span) (e : Option BranchEnd) (bridges : List Bridge) :
    (BranchEnd.close s e bridges).MadeOf answer := by
  unfold BranchEnd.close
  split
  · exact madeOf_appendBridges s _ _
  · split
    · exact .pure _
    · exact madeOf_appendBridges s _ _

end Norm

/-! ## Constructs -/

namespace Pending

def MadeOf (answer : RequireHandler) (p : Pending) : Prop := p.run.MadeOf answer

def OptionMadeOf (answer : RequireHandler) (p : Option Pending) : Prop := ∀ q ∈ p, q.MadeOf answer

def ListMadeOf (answer : RequireHandler) (ps : List Pending) : Prop := ∀ p ∈ ps, p.MadeOf answer

theorem optionMadeOf_none : OptionMadeOf answer none := by simp [OptionMadeOf]

theorem optionMadeOf_some {p : Pending} (h : p.MadeOf answer) : OptionMadeOf answer (some p) := by
  rintro _ ⟨⟩
  exact h

theorem MadeOf.node {p : Pending} (h : p.MadeOf answer) : p.node.MadeOf answer :=
  .bind h fun _ => .pure _

theorem madeOf_optionNode {p : Option Pending} (h : OptionMadeOf answer p) :
    (optionNode p).MadeOf answer := by
  cases p with
  | none => exact .pure _
  | some p => exact .bind (h p rfl).node fun _ => .pure _

theorem madeOf_nodes {ps : List Pending} (h : ListMadeOf answer ps) : (nodes ps).MadeOf answer := by
  induction ps with
  | nil => exact .pure _
  | cons p ps ih =>
    exact .bind (h p (.head _)).node fun _ => .bind (ih fun q hq => h q (.tail _ hq)) fun _ =>
      .pure _

theorem MadeOf.target {p : Pending} (h : p.MadeOf answer) : p.target.MadeOf answer := by
  unfold Pending.target
  split
  · exact .bind (Norm.madeOf_writeVar _) fun _ => .pure _
  · exact h.node

theorem madeOf_targets {ps : List Pending} (h : ListMadeOf answer ps) :
    (targets ps).MadeOf answer := by
  induction ps with
  | nil => exact .pure _
  | cons p ps ih =>
    exact .bind (h p (.head _)).target fun _ => .bind (ih fun q hq => h q (.tail _ hq)) fun _ =>
      .pure _

theorem madeOf_statements {ps : List Pending} (h : ListMadeOf answer ps) :
    (statements ps).MadeOf answer := by
  induction ps with
  | nil => exact .pure _
  | cons p ps ih =>
    refine .bind (h p (.head _)) fun o => ?_
    split
    · exact .pure _
    · exact .bind (ih fun q hq => h q (.tail _ hq)) fun _ => .pure _

theorem madeOf_runBranch (start : Scope) {p : Option Pending} (h : OptionMadeOf answer p) :
    (runBranch start p).MadeOf answer := by
  cases p with
  | none => exact .pure _
  | some p =>
    exact .bind (.setScope start) fun _ => .bind (h p rfl) fun _ => .bind .getScope fun _ => .pure _

theorem madeOf_runBlock (s : Span) {b : Block Pending} (h : OptionMadeOf answer b.body) :
    (runBlock s b).MadeOf answer :=
  .bind .getScope fun _ => .bind (.setScope _) fun _ => .bind (madeOf_runBranch _ h) fun _ =>
    .bind .getScope fun _ => .bind (.setScope _) fun _ => .bind (Norm.madeOf_close s _ _) fun _ =>
      .pure _

theorem madeOf_atom (s : Span) (a : Atom) : (atom s a).MadeOf answer := .pure _

theorem madeOf_temp (s : Span) (t : Symbol) : (temp s t).MadeOf answer := .pure _

theorem madeOf_var (s : Span) (v : Var) : (var s v).MadeOf answer :=
  .bind (Norm.madeOf_useVar s v) fun _ => .pure _

theorem madeOf_seq (s : Span) {ps : List Pending} (h : ListMadeOf answer ps) :
    (seq s ps).MadeOf answer :=
  .bind (madeOf_statements h) fun _ => .pure _

theorem madeOf_cond (s : Span) (form : CondForm) {test : Pending} {body other : Option Pending}
    (hTest : test.MadeOf answer) (hBody : OptionMadeOf answer body)
    (hOther : OptionMadeOf answer other) : (cond s form test body other).MadeOf answer := by
  have hMade : ∀ {onTrue onFalse : Option Pending}, OptionMadeOf answer onTrue →
      OptionMadeOf answer onFalse → (cond s .whenTrue test onTrue onFalse).MadeOf answer :=
    fun hTrue hFalse =>
      .bind hTest.node fun _ => .bind .getScope fun _ => .bind (madeOf_runBranch _ hTrue) fun _ =>
        .bind (madeOf_runBranch _ hFalse) fun _ => .bind (.setScope _) fun _ =>
          .bind (Norm.madeOf_close s _ _) fun _ => .bind (Norm.madeOf_close s _ _) fun _ => .pure _
  cases form with
  | whenTrue => exact hMade hBody hOther
  | whenFalse => exact hMade hOther hBody

theorem madeOf_loop (s : Span) {test : Pending} {body : Option Pending}
    (hTest : test.MadeOf answer) (hBody : OptionMadeOf answer body) :
    (loop s test body).MadeOf answer :=
  .bind .getScope fun _ => .bind hTest.node fun _ => .bind .getScope fun _ =>
    .bind (madeOf_runBranch _ hBody) fun _ => .bind .getScope fun _ => .bind (.setScope _) fun _ =>
      .pure _

theorem madeOf_jump (s : Span) (kind : JumpKind) {value : Option Pending}
    (h : OptionMadeOf answer value) : (jump s kind value).MadeOf answer :=
  .bind (madeOf_optionNode h) fun _ => .pure _

theorem madeOf_assign (s : Span) {target value : Pending} (hTarget : target.MadeOf answer)
    (hValue : value.MadeOf answer) : (assign s target value).MadeOf answer := by
  unfold MadeOf assign
  dsimp only
  split
  · exact .bind (hValue.node.inScope _) fun _ => .bind hTarget.target fun _ => .pure _
  · exact .bind hValue.node fun _ => .bind hTarget.target fun _ => .pure _

theorem madeOf_multi (s : Span) {lefts values : List Pending} (hLefts : ListMadeOf answer lefts)
    (hValues : ListMadeOf answer values) : (multi s lefts values).MadeOf answer :=
  .bind (madeOf_nodes hValues) fun _ => .bind (madeOf_targets hLefts) fun _ => .pure _

theorem madeOf_call (s : Span) {receiver : Option Pending} (name : Symbol) {args : List Pending}
    {block : Option (Block Pending)} (hReceiver : OptionMadeOf answer receiver)
    (hArgs : ListMadeOf answer args) (hBlock : ∀ b ∈ block, OptionMadeOf answer b.body) :
    (call s receiver name args block).MadeOf answer := by
  have hOption : (optionBlock s block).MadeOf answer := by
    cases block with
    | none => exact .pure _
    | some b => exact .bind (madeOf_runBlock s (hBlock b rfl)) fun _ => .pure _
  exact .bind (madeOf_optionNode hReceiver) fun _ => .bind (madeOf_nodes hArgs) fun _ =>
    .bind hOption fun _ => .pure _

theorem madeOf_isA (s : Span) {subject : Pending} (h : subject.MadeOf answer) (type : ConstPath) :
    (isA s subject type).MadeOf answer :=
  .bind h.node fun _ => .pure _

theorem madeOf_definePlain (s : Span) (kind : DefKind) (name : Symbol) (params : List Symbol)
    {body : Option Pending} (h : OptionMadeOf answer body) :
    (definePlain s kind name params body).MadeOf answer :=
  .bind ((madeOf_optionNode h).inScope _) fun _ => .pure _

/-! ## Sugar -/

theorem madeOf_save (t : Symbol) {p : Pending} (h : p.MadeOf answer) : (save t p).MadeOf answer :=
  madeOf_assign _ (madeOf_temp _ t) h

theorem madeOf_logic (s : Span) (op : LogicOp) {left right : Pending} (hLeft : left.MadeOf answer)
    (hRight : right.MadeOf answer) : (logic s op left right).MadeOf answer := by
  cases op with
  | and =>
    unfold MadeOf logic and
    dsimp only
    split
    · exact madeOf_cond s _ hLeft (optionMadeOf_some hRight) (optionMadeOf_some hLeft)
    · exact .bind Norm.madeOf_freshTemp fun t => madeOf_cond s _ (madeOf_save t hLeft)
        (optionMadeOf_some hRight) (optionMadeOf_some (madeOf_temp _ t))
  | or =>
    unfold MadeOf logic or
    dsimp only
    split
    · exact madeOf_cond s _ hLeft (optionMadeOf_some hLeft) (optionMadeOf_some hRight)
    · exact .bind Norm.madeOf_freshTemp fun t => madeOf_cond s _ (madeOf_save t hLeft)
        (optionMadeOf_some (madeOf_temp _ t)) (optionMadeOf_some hRight)

theorem madeOf_clauseTest (s : Span) {scrutinee : Pending} {patterns : List Pending}
    (hScrutinee : scrutinee.MadeOf answer) (hPatterns : ListMadeOf answer patterns) :
    (clauseTest s scrutinee patterns).MadeOf answer := by
  have hMatch : ∀ p ∈ patterns, (matchTest scrutinee p).MadeOf answer := fun p hp =>
    madeOf_call _ _ (optionMadeOf_some (hPatterns p hp)) (by simpa [ListMadeOf]) (by simp)
  cases patterns with
  | nil => exact madeOf_atom s _
  | cons pattern patterns =>
    refine List.foldlRecOn _ _ (hMatch pattern (.head _)) fun acc hAcc test hTest => ?_
    obtain ⟨p, hp, rfl⟩ := List.mem_map.mp hTest
    exact madeOf_logic _ .or hAcc (hMatch p (.tail _ hp))

def WhensMadeOf (answer : RequireHandler) (whens : List (When Pending)) : Prop :=
  ∀ w ∈ whens, ListMadeOf answer w.patterns ∧ OptionMadeOf answer w.body

theorem madeOf_clauseChain (s : Span) {scrutinee : Pending} {whens : List (When Pending)}
    {other : Option Pending} (hScrutinee : scrutinee.MadeOf answer)
    (hWhens : WhensMadeOf answer whens) (hOther : OptionMadeOf answer other) :
    (clauseChain s scrutinee whens other).MadeOf answer := by
  refine clauseChain_of_forall s (madeOf_atom s _) hOther fun w hw rest hRest => ?_
  obtain ⟨hPatterns, hBody⟩ := hWhens w hw
  exact madeOf_cond s _ (madeOf_clauseTest s hScrutinee hPatterns) hBody hRest

theorem madeOf_choose (s : Span) {subject : Pending} {whens : List (When Pending)}
    {other : Option Pending} (hSubject : subject.MadeOf answer) (hWhens : WhensMadeOf answer whens)
    (hOther : OptionMadeOf answer other) : (choose s subject whens other).MadeOf answer := by
  unfold MadeOf choose
  dsimp only
  split
  · exact madeOf_clauseChain s hSubject hWhens hOther
  · refine .bind Norm.madeOf_freshTemp fun t => madeOf_seq s ?_
    have hChain := madeOf_clauseChain s (madeOf_temp subject.span t) hWhens hOther
    simpa [ListMadeOf] using And.intro (madeOf_save t hSubject) hChain

def ParamsMadeOf (answer : RequireHandler) (params : List (Param Pending)) : Prop :=
  ∀ p ∈ params, OptionMadeOf answer p.default

theorem listMadeOf_forwarders (s : Span) (kind : DefKind) (name : Symbol) (given : List Symbol)
    {params : List (Param Pending)} (h : ParamsMadeOf answer params) :
    ListMadeOf answer (forwarders s kind name given params) := by
  refine forall_forwarders s kind name given fun given next hNext => ?_
  have hArgs := forall_forwarded s given (fun _ => madeOf_var s _) (madeOf_atom s _) (h next hNext)
  exact madeOf_definePlain s kind name given (optionMadeOf_some
    (madeOf_call s name optionMadeOf_none hArgs (by simp)))

theorem madeOf_define (s : Span) (kind : DefKind) (name : Symbol) {params : List (Param Pending)}
    {body : Option Pending} (hParams : ParamsMadeOf answer params)
    (hBody : OptionMadeOf answer body) : (define s kind name params body).MadeOf answer := by
  have hWhole := madeOf_definePlain s kind name (params.map (·.name)) hBody
  unfold MadeOf define
  dsimp only
  split
  · apply madeOf_seq s
    intro p hp
    rcases List.mem_append.mp hp with hp | hp
    · refine listMadeOf_forwarders s kind name _ (fun q hq => ?_) p hp
      exact hParams q (List.dropWhile_subset _ hq)
    · obtain rfl := List.mem_singleton.mp hp
      exact hWhole
  · exact hWhole

theorem madeOf_interp (s : Span) {pieces : List Pending} (h : ListMadeOf answer pieces) :
    (interp s pieces).MadeOf answer :=
  .bind (madeOf_nodes h) fun _ => .pure _

theorem madeOf_range (s : Span) {first last : Pending} (exclusive : Bool)
    (hFirst : first.MadeOf answer) (hLast : last.MadeOf answer) :
    (range s first last exclusive).MadeOf answer :=
  .bind hFirst.node fun _ => .bind hLast.node fun _ => .pure _

theorem madeOf_regex (s : Span) (text : Symbol) : (regex s text).MadeOf answer :=
  .bind (.onProgram fun p => p.allocates_regexConstant text s) fun _ => .pure _

theorem madeOf_array (s : Span) {elements : List Pending} (type : Option ConstPath)
    (h : ListMadeOf answer elements) : (array s elements type).MadeOf answer := by
  refine .bind (madeOf_nodes h) fun ns =>
    .bind (.onProgram fun p => p.allocates_genericType _ _) fun id => ?_
  split
  · exact .pure _
  · exact .bind Norm.madeOf_freshTemp fun _ => .pure _

def EntriesMadeOf (answer : RequireHandler) (entries : List (HashEntry Pending)) : Prop :=
  ∀ e ∈ entries, e.key.MadeOf answer ∧ e.value.MadeOf answer

theorem madeOf_entryNodes {entries : List (HashEntry Pending)} (h : EntriesMadeOf answer entries) :
    (entryNodes entries).MadeOf answer := by
  induction entries with
  | nil => exact .pure _
  | cons e entries ih =>
    obtain ⟨hKey, hValue⟩ := h e (.head _)
    exact .bind hKey.node fun _ => .bind hValue.node fun _ =>
      .bind (ih fun e' he' => h e' (.tail _ he')) fun _ => .pure _

theorem madeOf_hash (s : Span) {entries : List (HashEntry Pending)} (types : Option HashTypes)
    (h : EntriesMadeOf answer entries) : (hash s entries types).MadeOf answer := by
  refine .bind (madeOf_entryNodes h) fun es =>
    .bind (.onProgram fun p => p.allocates_genericType _ _) fun id => ?_
  split
  · exact .pure _
  · exact .bind Norm.madeOf_freshTemp fun _ => .pure _

/-! ## Trees -/

theorem inherited_madeOf (answer : RequireHandler) : Inherited answer (MadeOf answer) where
  atom := madeOf_atom
  var := madeOf_var
  seq := madeOf_seq
  cond := madeOf_cond
  loop := madeOf_loop
  choose := madeOf_choose
  logic := madeOf_logic
  jump := madeOf_jump
  assign := madeOf_assign
  multi := madeOf_multi
  call := madeOf_call
  isA := madeOf_isA
  define := madeOf_define
  interp := madeOf_interp
  range := madeOf_range
  regex := madeOf_regex
  array := madeOf_array
  hash := madeOf_hash
  require s path := .bind (.answer s path) fun _ => .pure _

end Pending

theorem Node.madeOf_pending (answer : RequireHandler) :
    ∀ n : Node, (n.pending answer).MadeOf answer :=
  Node.inherits_pending (Pending.inherited_madeOf answer)

end CoreTree

import CoreTree.Normal.Sugar

/-! # The pending tree of a tree

Constructor by constructor. What a `require` stands for is a parameter, because only whoever
runs the tree knows the files.
-/
namespace CoreTree
set_option autoImplicit false

/-- How a `require` with a given span and path is answered. -/
abbrev RequireHandler := Span → Symbol → Norm Node

namespace Pending

def require (answer : RequireHandler) (s : Span) (path : Symbol) : Pending where
  source := .require s path
  run := return ⟨← answer s path, false⟩

end Pending

mutual
def Node.pending (answer : RequireHandler) : Node → Pending
  | .atom s a => .atom s a
  | .var s v => .var s v
  | .seq s stmts => .seq s (pendingList answer stmts)
  | .cond s form test body other =>
    .cond s form (test.pending answer) (pendingOption answer body) (pendingOption answer other)
  | .loop s test body => .loop s (test.pending answer) (pendingOption answer body)
  | .choose s subject whens other =>
    .choose s (subject.pending answer) (pendingWhens answer whens) (pendingOption answer other)
  | .logic s op left right => .logic s op (left.pending answer) (right.pending answer)
  | .jump s kind value => .jump s kind (pendingOption answer value)
  | .assign s target value => .assign s (target.pending answer) (value.pending answer)
  | .multi s targets values => .multi s (pendingList answer targets) (pendingList answer values)
  | .call s receiver name args none =>
    .call s (pendingOption answer receiver) name (pendingList answer args) none
  | .call s receiver name args (some ⟨params, body⟩) =>
    .call s (pendingOption answer receiver) name (pendingList answer args)
      (some ⟨params, pendingOption answer body⟩)
  | .isA s subject type => .isA s (subject.pending answer) type
  | .define s kind name params body =>
    .define s kind name (pendingParams answer params) (pendingOption answer body)
  | .interp s pieces => .interp s (pendingList answer pieces)
  | .range s first last exclusive =>
    .range s (first.pending answer) (last.pending answer) exclusive
  | .regex s text => .regex s text
  | .array s elements type => .array s (pendingList answer elements) type
  | .hash s entries types => .hash s (pendingEntries answer entries) types
  | .require s path => .require answer s path
termination_by structural n => n

def pendingOption (answer : RequireHandler) : Option Node → Option Pending
  | none => none
  | some n => some (n.pending answer)
termination_by structural n => n

def pendingList (answer : RequireHandler) : List Node → List Pending
  | [] => []
  | n :: ns => n.pending answer :: pendingList answer ns
termination_by structural n => n

def pendingWhens (answer : RequireHandler) : List (When Node) → List (When Pending)
  | [] => []
  | ⟨patterns, body⟩ :: whens =>
    ⟨pendingList answer patterns, pendingOption answer body⟩ :: pendingWhens answer whens
termination_by structural n => n

def pendingParams (answer : RequireHandler) : List (Param Node) → List (Param Pending)
  | [] => []
  | ⟨name, default⟩ :: params =>
    ⟨name, pendingOption answer default⟩ :: pendingParams answer params
termination_by structural n => n

def pendingEntries (answer : RequireHandler) : List (HashEntry Node) → List (HashEntry Pending)
  | [] => []
  | ⟨key, value⟩ :: entries =>
    ⟨key.pending answer, value.pending answer⟩ :: pendingEntries answer entries
termination_by structural n => n
end

mutual
/-- A pending tree is pending for the tree it was made from. -/
theorem Node.source_pending (answer : RequireHandler) :
    ∀ n : Node, (n.pending answer).source = n
  | .atom .. | .var .. | .regex .. | .require .. => by rw [Node.pending]; rfl
  | .seq _ stmts => by
    rw [Node.pending]; exact congrArg (Node.seq _) (map_source_pendingList answer stmts)
  | .cond _ _ test body other => by
    simp [Node.pending, Pending.cond, Node.source_pending answer test,
      map_source_pendingOption answer body, map_source_pendingOption answer other]
  | .loop _ test body => by
    simp [Node.pending, Pending.loop, Node.source_pending answer test,
      map_source_pendingOption answer body]
  | .choose _ subject whens other => by
    simp only [Node.pending, Pending.choose, Node.source_pending answer subject,
      map_source_pendingOption answer other]
    exact congrArg (Node.choose _ _ · _) (map_source_pendingWhens answer whens)
  | .logic _ .and left right => by
    simp [Node.pending, Pending.logic, Pending.and, Node.source_pending answer left,
      Node.source_pending answer right]
  | .logic _ .or left right => by
    simp [Node.pending, Pending.logic, Pending.or, Node.source_pending answer left,
      Node.source_pending answer right]
  | .jump _ _ value => by
    simp [Node.pending, Pending.jump, map_source_pendingOption answer value]
  | .assign _ target value => by
    simp [Node.pending, Pending.assign, Node.source_pending answer target,
      Node.source_pending answer value]
  | .multi _ targets values => by
    simp [Node.pending, Pending.multi, map_source_pendingList answer targets,
      map_source_pendingList answer values]
  | .call _ receiver _ args none => by
    simp [Node.pending, Pending.call, map_source_pendingOption answer receiver,
      map_source_pendingList answer args]
  | .call _ receiver _ args (some ⟨_, body⟩) => by
    simp [Node.pending, Pending.call, map_source_pendingOption answer receiver,
      map_source_pendingList answer args, map_source_pendingOption answer body]
  | .isA _ subject _ => by simp [Node.pending, Pending.isA, Node.source_pending answer subject]
  | .define _ _ _ params body => by
    simp only [Node.pending, Pending.define, map_source_pendingOption answer body]
    exact congrArg (Node.define _ _ _ · _) (map_source_pendingParams answer params)
  | .interp _ pieces => by
    simp [Node.pending, Pending.interp, map_source_pendingList answer pieces]
  | .range _ first last _ => by
    simp [Node.pending, Pending.range, Node.source_pending answer first,
      Node.source_pending answer last]
  | .array _ elements _ => by
    simp [Node.pending, Pending.array, map_source_pendingList answer elements]
  | .hash _ entries _ => by
    simp only [Node.pending, Pending.hash]
    exact congrArg (Node.hash _ · _) (map_source_pendingEntries answer entries)

theorem map_source_pendingOption (answer : RequireHandler) :
    ∀ n : Option Node, (pendingOption answer n).map Pending.source = n
  | none => by simp [pendingOption]
  | some n => by simp [pendingOption, Node.source_pending answer n]

theorem map_source_pendingList (answer : RequireHandler) :
    ∀ ns : List Node, (pendingList answer ns).map Pending.source = ns
  | [] => by simp [pendingList]
  | n :: ns => by
    simp [pendingList, Node.source_pending answer n, map_source_pendingList answer ns]

theorem map_source_pendingWhens (answer : RequireHandler) : ∀ ws : List (When Node),
    (pendingWhens answer ws).map (fun w =>
      ⟨w.patterns.map Pending.source, w.body.map Pending.source⟩) = ws
  | [] => by simp [pendingWhens]
  | ⟨patterns, body⟩ :: ws => by
    simp [pendingWhens, map_source_pendingList answer patterns,
      map_source_pendingOption answer body, map_source_pendingWhens answer ws]

theorem map_source_pendingParams (answer : RequireHandler) : ∀ ps : List (Param Node),
    (pendingParams answer ps).map (fun p => ⟨p.name, p.default.map Pending.source⟩) = ps
  | [] => by simp [pendingParams]
  | ⟨_, default⟩ :: ps => by
    simp [pendingParams, map_source_pendingOption answer default,
      map_source_pendingParams answer ps]

theorem map_source_pendingEntries (answer : RequireHandler) : ∀ es : List (HashEntry Node),
    (pendingEntries answer es).map (fun e => ⟨e.key.source, e.value.source⟩) = es
  | [] => by simp [pendingEntries]
  | ⟨key, value⟩ :: es => by
    simp [pendingEntries, Node.source_pending answer key, Node.source_pending answer value,
      map_source_pendingEntries answer es]
end

/-! ## What all parts have -/

section

variable {P : Pending → Prop} {answer : RequireHandler}

theorem forall_pendingOption {o : Option Node} (h : ∀ n ∈ o, P (n.pending answer)) :
    ∀ p ∈ pendingOption answer o, P p := by
  cases o with
  | none => exact nofun
  | some n =>
    rintro _ ⟨⟩
    exact h n rfl

theorem forall_pendingList {ns : List Node} (h : ∀ n ∈ ns, P (n.pending answer)) :
    ∀ p ∈ pendingList answer ns, P p := by
  induction ns with
  | nil => exact nofun
  | cons n ns ih =>
    exact List.forall_mem_cons.mpr ⟨h n (.head _), ih fun m hm => h m (.tail _ hm)⟩

theorem forall_pendingWhens {whens : List (When Node)}
    (h : ∀ w ∈ whens, (∀ n ∈ w.patterns, P (n.pending answer)) ∧
      ∀ n ∈ w.body, P (n.pending answer)) :
    ∀ w ∈ pendingWhens answer whens, (∀ p ∈ w.patterns, P p) ∧ ∀ p ∈ w.body, P p := by
  induction whens with
  | nil => exact nofun
  | cons w whens ih =>
    obtain ⟨hPatterns, hBody⟩ := h w (.head _)
    exact List.forall_mem_cons.mpr ⟨⟨forall_pendingList hPatterns, forall_pendingOption hBody⟩,
      ih fun v hv => h v (.tail _ hv)⟩

theorem forall_pendingParams {params : List (Param Node)}
    (h : ∀ x ∈ params, ∀ n ∈ x.default, P (n.pending answer)) :
    ∀ x ∈ pendingParams answer params, ∀ p ∈ x.default, P p := by
  induction params with
  | nil => exact nofun
  | cons x params ih =>
    exact List.forall_mem_cons.mpr
      ⟨forall_pendingOption (h x (.head _)), ih fun y hy => h y (.tail _ hy)⟩

theorem forall_pendingEntries {entries : List (HashEntry Node)}
    (h : ∀ e ∈ entries, P (e.key.pending answer) ∧ P (e.value.pending answer)) :
    ∀ e ∈ pendingEntries answer entries, P e.key ∧ P e.value := by
  induction entries with
  | nil => exact nofun
  | cons e entries ih =>
    exact List.forall_mem_cons.mpr ⟨h e (.head _), ih fun e' he' => h e' (.tail _ he')⟩

end

/-! ## What every pending tree has -/

/-- Each construct has the property if its parts have it. -/
structure Pending.Inherited (answer : RequireHandler) (P : Pending → Prop) : Prop where
  atom (s : Span) (a : Atom) : P (.atom s a)
  var (s : Span) (v : Var) : P (.var s v)
  seq (s : Span) {stmts : List Pending} (h : ∀ p ∈ stmts, P p) : P (.seq s stmts)
  cond (s : Span) (form : CondForm) {test : Pending} {body other : Option Pending} (hTest : P test)
    (hBody : ∀ p ∈ body, P p) (hOther : ∀ p ∈ other, P p) : P (.cond s form test body other)
  loop (s : Span) {test : Pending} {body : Option Pending} (hTest : P test)
    (hBody : ∀ p ∈ body, P p) : P (.loop s test body)
  choose (s : Span) {subject : Pending} {whens : List (When Pending)} {other : Option Pending}
    (hSubject : P subject)
    (hWhens : ∀ w ∈ whens, (∀ p ∈ w.patterns, P p) ∧ ∀ p ∈ w.body, P p)
    (hOther : ∀ p ∈ other, P p) : P (.choose s subject whens other)
  logic (s : Span) (op : LogicOp) {left right : Pending} (hLeft : P left) (hRight : P right) :
    P (.logic s op left right)
  jump (s : Span) (kind : JumpKind) {value : Option Pending} (h : ∀ p ∈ value, P p) :
    P (.jump s kind value)
  assign (s : Span) {target value : Pending} (hTarget : P target) (hValue : P value) :
    P (.assign s target value)
  multi (s : Span) {lefts values : List Pending} (hLefts : ∀ p ∈ lefts, P p)
    (hValues : ∀ p ∈ values, P p) : P (.multi s lefts values)
  call (s : Span) {receiver : Option Pending} (name : Symbol) {args : List Pending}
    {block : Option (Block Pending)} (hReceiver : ∀ p ∈ receiver, P p) (hArgs : ∀ p ∈ args, P p)
    (hBlock : ∀ b ∈ block, ∀ p ∈ b.body, P p) : P (.call s receiver name args block)
  isA (s : Span) {subject : Pending} (h : P subject) (type : ConstPath) : P (.isA s subject type)
  define (s : Span) (kind : DefKind) (name : Symbol) {params : List (Param Pending)}
    {body : Option Pending} (hParams : ∀ x ∈ params, ∀ p ∈ x.default, P p)
    (hBody : ∀ p ∈ body, P p) : P (.define s kind name params body)
  interp (s : Span) {pieces : List Pending} (h : ∀ p ∈ pieces, P p) : P (.interp s pieces)
  range (s : Span) {first last : Pending} (exclusive : Bool) (hFirst : P first) (hLast : P last) :
    P (.range s first last exclusive)
  regex (s : Span) (text : Symbol) : P (.regex s text)
  array (s : Span) {elements : List Pending} (type : Option ConstPath)
    (h : ∀ p ∈ elements, P p) : P (.array s elements type)
  hash (s : Span) {entries : List (HashEntry Pending)} (types : Option HashTypes)
    (h : ∀ e ∈ entries, P e.key ∧ P e.value) : P (.hash s entries types)
  require (s : Span) (path : Symbol) : P (.require answer s path)

section

variable {P : Pending → Prop} {answer : RequireHandler}

mutual
theorem Node.inherits_pending (hP : Pending.Inherited answer P) : ∀ n : Node, P (n.pending answer)
  | .atom s a => hP.atom s a
  | .var s v => hP.var s v
  | .seq s stmts => hP.seq s (inherits_pendingList hP stmts)
  | .cond s form test body other => hP.cond s form (Node.inherits_pending hP test)
    (inherits_pendingOption hP body) (inherits_pendingOption hP other)
  | .loop s test body =>
    hP.loop s (Node.inherits_pending hP test) (inherits_pendingOption hP body)
  | .choose s subject whens other => hP.choose s (Node.inherits_pending hP subject)
    (inherits_pendingWhens hP whens) (inherits_pendingOption hP other)
  | .logic s op left right =>
    hP.logic s op (Node.inherits_pending hP left) (Node.inherits_pending hP right)
  | .jump s kind value => hP.jump s kind (inherits_pendingOption hP value)
  | .assign s target value =>
    hP.assign s (Node.inherits_pending hP target) (Node.inherits_pending hP value)
  | .multi s targets values =>
    hP.multi s (inherits_pendingList hP targets) (inherits_pendingList hP values)
  | .call s receiver name args none =>
    hP.call s name (inherits_pendingOption hP receiver) (inherits_pendingList hP args) nofun
  | .call s receiver name args (some ⟨params, body⟩) => by
    have hBody := inherits_pendingOption hP body
    refine hP.call s name (inherits_pendingOption hP receiver) (inherits_pendingList hP args) ?_
    rintro _ ⟨⟩
    exact hBody
  | .isA s subject type => hP.isA s (Node.inherits_pending hP subject) type
  | .define s kind name params body =>
    hP.define s kind name (inherits_pendingParams hP params) (inherits_pendingOption hP body)
  | .interp s pieces => hP.interp s (inherits_pendingList hP pieces)
  | .range s first last exclusive =>
    hP.range s exclusive (Node.inherits_pending hP first) (Node.inherits_pending hP last)
  | .regex s text => hP.regex s text
  | .array s elements type => hP.array s type (inherits_pendingList hP elements)
  | .hash s entries types => hP.hash s types (inherits_pendingEntries hP entries)
  | .require s path => hP.require s path

theorem inherits_pendingOption (hP : Pending.Inherited answer P) :
    ∀ n : Option Node, ∀ p ∈ pendingOption answer n, P p
  | none => nofun
  | some n => Pending.forall_some (Node.inherits_pending hP n)

theorem inherits_pendingList (hP : Pending.Inherited answer P) :
    ∀ ns : List Node, ∀ p ∈ pendingList answer ns, P p
  | [] => nofun
  | n :: ns => List.forall_mem_cons.mpr ⟨Node.inherits_pending hP n, inherits_pendingList hP ns⟩

theorem inherits_pendingWhens (hP : Pending.Inherited answer P) : ∀ ws : List (When Node),
    ∀ w ∈ pendingWhens answer ws, (∀ p ∈ w.patterns, P p) ∧ ∀ p ∈ w.body, P p
  | [] => nofun
  | ⟨patterns, body⟩ :: ws => List.forall_mem_cons.mpr
    ⟨⟨inherits_pendingList hP patterns, inherits_pendingOption hP body⟩,
      inherits_pendingWhens hP ws⟩

theorem inherits_pendingParams (hP : Pending.Inherited answer P) :
    ∀ ps : List (Param Node), ∀ x ∈ pendingParams answer ps, ∀ p ∈ x.default, P p
  | [] => nofun
  | ⟨_, default⟩ :: ps => List.forall_mem_cons.mpr
    ⟨inherits_pendingOption hP default, inherits_pendingParams hP ps⟩

theorem inherits_pendingEntries (hP : Pending.Inherited answer P) :
    ∀ es : List (HashEntry Node), ∀ e ∈ pendingEntries answer es, P e.key ∧ P e.value
  | [] => nofun
  | ⟨key, value⟩ :: es => List.forall_mem_cons.mpr
    ⟨⟨Node.inherits_pending hP key, Node.inherits_pending hP value⟩,
      inherits_pendingEntries hP es⟩
end

end

end CoreTree

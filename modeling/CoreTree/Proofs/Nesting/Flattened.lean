import CoreTree.Normal.Normalize
import CoreTree.Proofs.CoreForm.Everywhere
import CoreTree.Proofs.Flow.Truncation
import CoreTree.Proofs.Nesting.Peers
import CoreTree.Proofs.Runs.Unfold

/-! # Nested sequences

A sequence that stands in a sequence may as well be replaced by its statements, and an empty
statement left out: the normalizer gives the same tree, or fails with the same error, and leaves
the same state behind.
-/
namespace CoreTree
set_option autoImplicit false

mutual
/-- The tree without nesting: at every depth, the statements of a sequence that is a statement
itself stand in its place, and empty statements are left out. -/
def Node.flattened : Node → Node
  | .atom s a => .atom s a
  | .var s v => .var s v
  | .seq s stmts => .seq s (flattenedStatements stmts)
  | .cond s form test body other =>
    .cond s form test.flattened (flattenedOption body) (flattenedOption other)
  | .loop s test body => .loop s test.flattened (flattenedOption body)
  | .choose s subject whens other =>
    .choose s subject.flattened (flattenedWhens whens) (flattenedOption other)
  | .logic s op left right => .logic s op left.flattened right.flattened
  | .jump s kind value => .jump s kind (flattenedOption value)
  | .assign s target value => .assign s target.flattened value.flattened
  | .multi s targets values => .multi s (flattenedList targets) (flattenedList values)
  | .call s receiver name args none =>
    .call s (flattenedOption receiver) name (flattenedList args) none
  | .call s receiver name args (some ⟨params, body⟩) =>
    .call s (flattenedOption receiver) name (flattenedList args)
      (some ⟨params, flattenedOption body⟩)
  | .isA s subject type => .isA s subject.flattened type
  | .define s kind name params body =>
    .define s kind name (flattenedParams params) (flattenedOption body)
  | .interp s pieces => .interp s (flattenedList pieces)
  | .range s first last exclusive => .range s first.flattened last.flattened exclusive
  | .regex s text => .regex s text
  | .array s elements type => .array s (flattenedList elements) type
  | .hash s entries types => .hash s (flattenedEntries entries) types
  | .require s path => .require s path
termination_by structural n => n

def flattenedStatements : List Node → List Node
  | [] => []
  | n :: ns => n.flattened.statements ++ flattenedStatements ns
termination_by structural n => n

def flattenedOption : Option Node → Option Node
  | none => none
  | some n => some n.flattened
termination_by structural n => n

def flattenedList : List Node → List Node
  | [] => []
  | n :: ns => n.flattened :: flattenedList ns
termination_by structural n => n

def flattenedWhens : List (When Node) → List (When Node)
  | [] => []
  | ⟨patterns, body⟩ :: whens =>
    ⟨flattenedList patterns, flattenedOption body⟩ :: flattenedWhens whens
termination_by structural n => n

def flattenedParams : List (Param Node) → List (Param Node)
  | [] => []
  | ⟨name, default⟩ :: params => ⟨name, flattenedOption default⟩ :: flattenedParams params
termination_by structural n => n

def flattenedEntries : List (HashEntry Node) → List (HashEntry Node)
  | [] => []
  | ⟨key, value⟩ :: entries => ⟨key.flattened, value.flattened⟩ :: flattenedEntries entries
termination_by structural n => n
end

/-! ## No nesting is left -/

namespace Node

/-- No statement of a sequence is empty or a sequence, at any depth. -/
def Unnested (root : Node) : Prop :=
  ∀ s stmts, root.Has (.seq s stmts) → ∀ n ∈ stmts, n.isStatement = true

theorem unnested_of_parts {n : Node} (hRoot : ∀ s stmts, n = .seq s stmts →
    ∀ m ∈ stmts, m.isStatement = true) (hParts : ∀ part ∈ n.parts, part.Unnested) :
    n.Unnested := by
  intro s stmts h
  obtain h | ⟨part, hPart, h⟩ := h.cases_root
  · exact hRoot s stmts h.symm
  · exact hParts part hPart s stmts h

theorem Unnested.part {n part : Node} (h : n.Unnested) (hPart : part ∈ n.parts) :
    part.Unnested := fun s stmts hSeq => h s stmts (.of_part hPart hSeq)

/-- What a tree that is not a sequence stands for in a sequence. -/
theorem isStatement_of_not_seq {n : Node} (h : ∀ s stmts, n ≠ .seq s stmts) :
    ∀ m ∈ n.statements, m.isStatement = true := by
  cases hn : n.isStatement with
  | true =>
    rw [statements_of_isStatement hn]
    exact List.forall_mem_singleton.mpr hn
  | false =>
    unfold isStatement at hn
    split at hn
    · exact nofun
    · exact absurd rfl (h _ _)
    · cases hn

theorem Unnested.statements {n : Node} (h : n.Unnested) :
    ∀ m ∈ n.statements, m.isStatement = true ∧ m.Unnested := by
  cases hn : n.isStatement with
  | true =>
    rw [statements_of_isStatement hn]
    exact List.forall_mem_singleton.mpr ⟨hn, h⟩
  | false =>
    unfold isStatement at hn
    split at hn
    · exact nofun
    · exact fun m hm => ⟨h _ _ .root m hm, h.part hm⟩
    · cases hn

end Node

mutual
theorem Node.unnested_flattened : ∀ n : Node, n.flattened.Unnested
  | .atom .. | .var .. | .regex .. | .require .. =>
    Node.unnested_of_parts (fun _ _ h => nomatch h) fun _ h => nomatch h
  | .seq s stmts => by
    have hStmts := unnested_flattenedStatements stmts
    refine Node.unnested_of_parts ?_ fun part hPart => (hStmts part hPart).2
    rintro _ _ h m hm
    cases h
    exact (hStmts m hm).1
  | .cond s form test body other => by
    refine Node.unnested_of_parts (fun _ _ h => nomatch h) ?_
    simp only [Node.flattened, Node.parts, List.forall_mem_cons, List.forall_mem_append,
      Option.mem_toList]
    exact ⟨test.unnested_flattened, unnested_flattenedOption body, unnested_flattenedOption other⟩
  | .loop s test body => by
    refine Node.unnested_of_parts (fun _ _ h => nomatch h) ?_
    simp only [Node.flattened, Node.parts, List.forall_mem_cons, Option.mem_toList]
    exact ⟨test.unnested_flattened, unnested_flattenedOption body⟩
  | .choose s subject whens other => by
    refine Node.unnested_of_parts (fun _ _ h => nomatch h) ?_
    simp only [Node.flattened, Node.parts, List.forall_mem_cons, List.forall_mem_append,
      Option.mem_toList]
    exact ⟨subject.unnested_flattened, unnested_flattenedWhens whens,
      unnested_flattenedOption other⟩
  | .logic s op left right => by
    refine Node.unnested_of_parts (fun _ _ h => nomatch h) ?_
    simp [Node.flattened, left.unnested_flattened, right.unnested_flattened]
  | .jump s kind value => by
    refine Node.unnested_of_parts (fun _ _ h => nomatch h) ?_
    simpa [Node.flattened] using unnested_flattenedOption value
  | .assign s target value => by
    refine Node.unnested_of_parts (fun _ _ h => nomatch h) ?_
    simp [Node.flattened, target.unnested_flattened, value.unnested_flattened]
  | .multi s targets values => by
    refine Node.unnested_of_parts (fun _ _ h => nomatch h) ?_
    simp only [Node.flattened, Node.parts, List.forall_mem_append]
    exact ⟨unnested_flattenedList targets, unnested_flattenedList values⟩
  | .call s receiver name args none => by
    refine Node.unnested_of_parts (fun _ _ h => nomatch h) ?_
    simp only [Node.flattened, Node.parts, List.forall_mem_append, Option.mem_toList]
    exact ⟨unnested_flattenedOption receiver, unnested_flattenedList args, nofun⟩
  | .call s receiver name args (some ⟨params, body⟩) => by
    refine Node.unnested_of_parts (fun _ _ h => nomatch h) ?_
    simp only [Node.flattened, Node.parts, List.forall_mem_append, Option.mem_toList]
    exact ⟨unnested_flattenedOption receiver, unnested_flattenedList args,
      unnested_flattenedOption body⟩
  | .isA s subject type => by
    refine Node.unnested_of_parts (fun _ _ h => nomatch h) ?_
    simp [Node.flattened, subject.unnested_flattened]
  | .define s kind name params body => by
    refine Node.unnested_of_parts (fun _ _ h => nomatch h) ?_
    simp only [Node.flattened, Node.parts, List.forall_mem_append, Option.mem_toList]
    exact ⟨unnested_flattenedParams params, unnested_flattenedOption body⟩
  | .interp s pieces =>
    Node.unnested_of_parts (fun _ _ h => nomatch h) (unnested_flattenedList pieces)
  | .range s first last exclusive => by
    refine Node.unnested_of_parts (fun _ _ h => nomatch h) ?_
    simp [Node.flattened, first.unnested_flattened, last.unnested_flattened]
  | .array s elements type =>
    Node.unnested_of_parts (fun _ _ h => nomatch h) (unnested_flattenedList elements)
  | .hash s entries types =>
    Node.unnested_of_parts (fun _ _ h => nomatch h) (unnested_flattenedEntries entries)

theorem unnested_flattenedStatements : ∀ ns : List Node,
    ∀ m ∈ flattenedStatements ns, m.isStatement = true ∧ m.Unnested
  | [] => nofun
  | n :: ns => List.forall_mem_append.mpr
    ⟨n.unnested_flattened.statements, unnested_flattenedStatements ns⟩

theorem unnested_flattenedOption : ∀ n : Option Node, ∀ m ∈ flattenedOption n, m.Unnested
  | none => nofun
  | some n => by
    rintro _ ⟨⟩
    exact n.unnested_flattened

theorem unnested_flattenedList : ∀ ns : List Node, ∀ m ∈ flattenedList ns, m.Unnested
  | [] => nofun
  | n :: ns => List.forall_mem_cons.mpr ⟨n.unnested_flattened, unnested_flattenedList ns⟩

theorem unnested_flattenedWhens : ∀ ws : List (When Node),
    ∀ m ∈ (flattenedWhens ws).flatMap (fun w => w.patterns ++ w.body.toList), m.Unnested
  | [] => nofun
  | ⟨patterns, body⟩ :: ws => by
    rw [flattenedWhens, List.flatMap_cons, List.forall_mem_append, List.forall_mem_append]
    simp only [Option.mem_toList]
    exact ⟨⟨unnested_flattenedList patterns, unnested_flattenedOption body⟩,
      unnested_flattenedWhens ws⟩

theorem unnested_flattenedParams : ∀ ps : List (Param Node),
    ∀ m ∈ (flattenedParams ps).filterMap (·.default), m.Unnested
  | [] => nofun
  | ⟨_, none⟩ :: ps => unnested_flattenedParams ps
  | ⟨_, some default⟩ :: ps =>
    List.forall_mem_cons.mpr ⟨default.unnested_flattened, unnested_flattenedParams ps⟩

theorem unnested_flattenedEntries : ∀ es : List (HashEntry Node),
    ∀ m ∈ (flattenedEntries es).flatMap (fun e => [e.key, e.value]), m.Unnested
  | [] => nofun
  | ⟨key, value⟩ :: es => List.forall_mem_cons.mpr ⟨key.unnested_flattened,
    List.forall_mem_cons.mpr ⟨value.unnested_flattened, unnested_flattenedEntries es⟩⟩
end

/-! ## What is spliced -/

/-- What the tree is replaced by in a sequence are statements. -/
def Node.Splices (n : Node) : Prop := ∀ m ∈ n.statements, m.isStatement = true

theorem Node.splices_ofStatements (s : Span) {ns : List Node}
    (h : ∀ n ∈ ns, n.isStatement = true) : (Node.ofStatements s ns).Splices := by
  match ns with
  | [] => exact nofun
  | [n] =>
    refine Node.isStatement_of_not_seq ?_
    rintro s stmts rfl
    exact Bool.false_ne_true (h _ (.head _))
  | _ :: _ :: _ => exact h

theorem Node.statements_ofStatements (s : Span) {ns : List Node}
    (h : ∀ n ∈ ns, n.isStatement = true) : (Node.ofStatements s ns).statements = ns := by
  match ns with
  | [] => rfl
  | [n] => exact Node.statements_of_isStatement (h n (.head _))
  | _ :: _ :: _ => rfl

namespace Pending

open CoreTree.Norm

/-- What the tree normalizes to can be spliced. -/
def YieldsSplices (p : Pending) : Prop := p.run.Gives fun o => o.node.Splices

/-- What holds of the statements that each tree stands for holds of all that come of them. -/
theorem gives_statements_forall {P : Node → Prop} {ps : List Pending}
    (h : ∀ p ∈ ps, p.run.Gives fun o => ∀ n ∈ o.node.statements, P n) :
    (statements ps).Gives fun r => ∀ n ∈ r.1, P n := by
  induction ps with
  | nil => exact gives_pure nofun
  | cons p ps ih =>
    refine Gives.bind (h p (.head _)) fun o ho => ?_
    refine gives_ite (gives_pure ho) ?_
    refine (ih fun q hq => h q (.tail _ hq)).bind fun r hr => gives_pure ?_
    exact List.forall_mem_append.mpr ⟨ho, hr⟩

theorem yieldsSplices_seq (s : Span) {ps : List Pending} (h : ∀ p ∈ ps, p.YieldsSplices) :
    (seq s ps).YieldsSplices :=
  (gives_statements_forall h).bind fun _ hr => gives_pure (Node.splices_ofStatements s hr)

theorem yieldsSplices_of_not_seq {p : Pending}
    (h : p.run.Gives fun o => ∀ s stmts, o.node ≠ .seq s stmts) : p.YieldsSplices :=
  fun st o st' hRun => Node.isStatement_of_not_seq (h st o st' hRun)

theorem yieldsSplices_atom (s : Span) (a : Atom) : (atom s a).YieldsSplices :=
  yieldsSplices_of_not_seq (gives_pure nofun)

/-- A conditional stays one, and becomes an `if`. -/
theorem gives_cond (s : Span) (form : CondForm) (test : Pending) (body other : Option Pending) :
    (cond s form test body other).run.Gives
      fun o => ∃ t a b, o.node = .cond s .whenTrue t a b := by
  unfold cond
  dsimp only
  exact gives_bind fun _ => gives_bind fun _ => gives_bind fun _ => gives_bind fun _ =>
    gives_bind fun _ => gives_bind fun _ => gives_bind fun _ => gives_pure ⟨_, _, _, rfl⟩

theorem gives_logic (s : Span) (op : LogicOp) (left right : Pending) :
    (logic s op left right).run.Gives fun o => ∃ t a b, o.node = .cond s .whenTrue t a b := by
  cases op with
  | and | or => exact gives_ite (gives_cond _ _ _ _ _) (gives_bind fun _ => gives_cond _ _ _ _ _)

theorem yieldsSplices_of_cond {p : Pending} {s : Span}
    (h : p.run.Gives fun o => ∃ t a b, o.node = .cond s .whenTrue t a b) : p.YieldsSplices := by
  refine yieldsSplices_of_not_seq fun st o st' hRun => ?_
  obtain ⟨t, a, b, hNode⟩ := h st o st' hRun
  rw [hNode]
  exact nofun

theorem yieldsSplices_assign (s : Span) (target value : Pending) :
    (assign s target value).YieldsSplices := by
  refine yieldsSplices_of_not_seq ?_
  by_cases hConst : ∃ t path, target.source = .atom t (.const path)
  · obtain ⟨t, path, hTarget⟩ := hConst
    rw [run_assign_const s value hTarget]
    exact gives_bind fun _ => gives_bind fun _ => gives_pure nofun
  · rw [run_assign s value rfl fun t path hTarget => hConst ⟨t, path, hTarget⟩]
    exact gives_bind fun _ => gives_bind fun _ => gives_pure nofun

theorem yieldsSplices_definePlain (s : Span) (kind : DefKind) (name : Symbol)
    (params : List Symbol) (body : Option Pending) :
    (definePlain s kind name params body).YieldsSplices :=
  yieldsSplices_of_not_seq (gives_bind fun _ => gives_pure nofun)

/-- Without clauses it is the other branch that stands for a `case`. -/
theorem yieldsSplices_clauseChain (s : Span) (scrutinee : Pending) (whens : List (When Pending))
    {other : Option Pending} (hOther : ∀ p ∈ other, p.YieldsSplices) :
    (clauseChain s scrutinee whens other).YieldsSplices := by
  cases whens with
  | cons w whens => exact yieldsSplices_of_cond (gives_cond _ _ _ _ _)
  | nil =>
    cases other with
    | none => exact yieldsSplices_atom s .nil
    | some p => exact hOther p rfl

theorem yieldsSplices_choose (s : Span) (subject : Pending) (whens : List (When Pending))
    {other : Option Pending} (hOther : ∀ p ∈ other, p.YieldsSplices) :
    (choose s subject whens other).YieldsSplices := by
  refine gives_ite (yieldsSplices_clauseChain s subject whens hOther) (gives_bind fun t => ?_)
  refine yieldsSplices_seq s (List.forall_mem_cons.mpr ⟨yieldsSplices_assign _ _ _, ?_⟩)
  exact List.forall_mem_singleton.mpr (yieldsSplices_clauseChain s _ whens hOther)

theorem yieldsSplices_define (s : Span) (kind : DefKind) (name : Symbol)
    (params : List (Param Pending)) (body : Option Pending) :
    (define s kind name params body).YieldsSplices := by
  refine gives_ite (yieldsSplices_seq s ?_) (yieldsSplices_definePlain _ _ _ _ _)
  have hPlain := yieldsSplices_definePlain s kind name
  exact List.forall_mem_append.mpr ⟨forall_forwarders s kind name _ fun _ _ _ => hPlain _ _,
    List.forall_mem_singleton.mpr (hPlain _ _)⟩

theorem splices_arrayStatements (s : Span) (type : Node) (t : Symbol) (elements : List Node) :
    (Node.seq s (arrayStatements s type t elements)).Splices := by
  intro n hn
  simp only [Node.statements, arrayStatements, List.mem_append, List.mem_cons, List.mem_mapIdx,
    List.not_mem_nil, or_false] at hn
  obtain ((rfl | rfl) | ⟨_, _, rfl⟩) | rfl := hn <;> rfl

theorem splices_hashStatements (s : Span) (empty : Node) (t : Symbol)
    (entries : List (HashEntry Node)) :
    (Node.seq s (hashStatements s empty t entries)).Splices := by
  intro n hn
  simp only [Node.statements, hashStatements, List.mem_append, List.mem_cons, List.mem_map,
    List.not_mem_nil, or_false] at hn
  obtain (rfl | ⟨_, _, rfl⟩) | rfl := hn <;> rfl

end Pending

open CoreTree.Norm Pending

variable {answer : RequireHandler}

mutual
theorem Node.yieldsSplices_pending (hAnswer : ∀ s path, (answer s path).Gives Node.Splices) :
    ∀ n : Node, (n.pending answer).YieldsSplices
  | .atom s a => yieldsSplices_atom s a
  | .var .. => yieldsSplices_of_not_seq (gives_bind fun _ => gives_pure nofun)
  | .seq s stmts => yieldsSplices_seq s (yieldsSplices_pendingList hAnswer stmts)
  | .cond .. => yieldsSplices_of_cond (gives_cond _ _ _ _ _)
  | .loop .. => yieldsSplices_of_not_seq (gives_bind fun _ => gives_bind fun _ =>
    gives_bind fun _ => gives_bind fun _ => gives_bind fun _ => gives_bind fun _ =>
    gives_pure nofun)
  | .choose s subject whens other =>
    yieldsSplices_choose s (subject.pending answer) (pendingWhens answer whens)
      (yieldsSplices_pendingOption hAnswer other)
  | .logic .. => yieldsSplices_of_cond (gives_logic _ _ _ _)
  | .jump .. => yieldsSplices_of_not_seq (gives_bind fun _ => gives_pure nofun)
  | .assign .. => yieldsSplices_assign _ _ _
  | .multi .. => yieldsSplices_of_not_seq (gives_bind fun _ => gives_bind fun _ =>
    gives_pure nofun)
  | .call _ _ _ _ none | .call _ _ _ _ (some ⟨_, _⟩) =>
    yieldsSplices_of_not_seq (gives_bind fun _ => gives_bind fun _ => gives_bind fun _ =>
      gives_pure nofun)
  | .isA .. => yieldsSplices_of_not_seq (gives_bind fun _ => gives_pure nofun)
  | .define .. => yieldsSplices_define _ _ _ _ _
  | .interp .. => yieldsSplices_of_not_seq (gives_bind fun _ => gives_pure nofun)
  | .range .. => yieldsSplices_of_not_seq (gives_bind fun _ => gives_bind fun _ =>
    gives_pure nofun)
  | .regex .. => yieldsSplices_of_not_seq (gives_bind fun _ => gives_pure nofun)
  | .array .. => gives_bind fun _ => gives_bind fun _ =>
    gives_ite (gives_pure (Node.isStatement_of_not_seq nofun))
      (gives_bind fun _ => gives_pure (splices_arrayStatements _ _ _ _))
  | .hash .. => gives_bind fun _ => gives_bind fun _ =>
    gives_ite (gives_pure (Node.isStatement_of_not_seq nofun))
      (gives_bind fun _ => gives_pure (splices_hashStatements _ _ _ _))
  | .require s path => (hAnswer s path).bind fun _ hn => gives_pure hn

theorem yieldsSplices_pendingOption (hAnswer : ∀ s path, (answer s path).Gives Node.Splices) :
    ∀ n : Option Node, ∀ p ∈ pendingOption answer n, p.YieldsSplices
  | none => nofun
  | some n => by
    rintro _ ⟨⟩
    exact n.yieldsSplices_pending hAnswer

theorem yieldsSplices_pendingList (hAnswer : ∀ s path, (answer s path).Gives Node.Splices) :
    ∀ ns : List Node, ∀ p ∈ pendingList answer ns, p.YieldsSplices
  | [] => nofun
  | n :: ns => List.forall_mem_cons.mpr
    ⟨n.yieldsSplices_pending hAnswer, yieldsSplices_pendingList hAnswer ns⟩
end

theorem Norm.Gives.inScope {α : Type} {act : Norm α} {P : α → Prop} (scope : Scope)
    (h : act.Gives P) : (Norm.inScope scope act).Gives P :=
  gives_bind fun _ => gives_bind fun _ => h.bind fun _ ha => gives_bind fun _ => gives_pure ha

theorem splices_answerRequire (depth : Nat) (file : Option SourcePath) (s : Span) (path : Symbol) :
    (answerRequire depth file s path).Gives Node.Splices := by
  induction depth generalizing file s path with
  | zero => exact gives_bind fun _ => gives_pure nofun
  | succ depth ih =>
    refine gives_bind fun found => ?_
    cases found with
    | none => exact gives_pure nofun
    | some found =>
      have hRoot := found.root.yieldsSplices_pending (ih (some (.ofLocation found.file)))
      have hNode := Gives.inScope .empty (hRoot.bind fun _ ho => gives_pure ho)
      exact hNode.bind fun n hn => gives_bind fun _ => gives_pure hn

/-! ## The same normal form -/

theorem statements_append (ps qs : List Pending) :
    statements (ps ++ qs) = do
      let (nodes, ends) ← statements ps
      if ends then return (nodes, true)
      let (rest, ends) ← statements qs
      return (nodes ++ rest, ends) := by
  induction ps with
  | nil => simp [statements]
  | cons p ps ih =>
    rw [List.cons_append, statements, statements, ih]
    simp only [bind_assoc]
    congr
    funext o
    split
    · rfl
    · simp only [bind_assoc, pure_bind]
      congr
      funext r
      split
      · rfl
      · simp only [bind_assoc, pure_bind, List.append_assoc]

/-- The statements that a tree stands for come to what the tree comes to. -/
theorem statements_spliced (hAnswer : ∀ s path, (answer s path).Gives Node.Splices) (n : Node) :
    statements (pendingList answer n.statements) =
      (n.pending answer).run >>= fun o => pure (o.node.statements, o.ends) := by
  cases hn : n.isStatement with
  | true =>
    rw [Node.statements_of_isStatement hn, pendingList, pendingList, statements]
    refine congrArg _ (funext fun o => ?_)
    split
    · rename_i hEnds
      rw [hEnds]
    · rename_i hEnds
      rw [Bool.eq_false_of_not_eq_true hEnds, statements, pure_bind]
      exact congrArg (fun nodes => pure (nodes, false)) (List.append_nil _)
  | false =>
    unfold Node.isStatement at hn
    split at hn
    · rfl
    · rename_i s stmts
      show _ = (statements (pendingList answer stmts) >>= _) >>= _
      rw [bind_assoc]
      refine (bind_pure _).symm.trans ?_
      refine (gives_statements_forall (yieldsSplices_pendingList hAnswer stmts)).bind_congr ?_
      intro r hr
      exact congrArg (fun nodes => pure (nodes, r.2)) (Node.statements_ofStatements s hr).symm
    · cases hn

theorem statements_append_spliced {ns : List Node} {n m : Node}
    (hAnswer : ∀ s path, (answer s path).Gives Node.Splices)
    (h : Peers (n.pending answer) (m.pending answer)) {ps : List Pending}
    (hRest : statements (pendingList answer ns) = statements ps) :
    statements (pendingList answer (n.statements ++ ns)) = statements (m.pending answer :: ps) := by
  rw [Node.pendingList_append, statements_append, statements_spliced hAnswer, h.run, hRest,
    statements]
  simp only [bind_assoc, pure_bind]

mutual
theorem Node.peers_flattened (hAnswer : ∀ s path, (answer s path).Gives Node.Splices) :
    ∀ n : Node, Peers (n.flattened.pending answer) (n.pending answer)
  | .atom .. | .var .. | .regex .. | .require .. => .refl _
  | .seq s stmts => peers_seq s (statements_flattened hAnswer stmts)
  | .cond s form test body other => peers_cond s form (test.peers_flattened hAnswer)
    (peers_flattenedOption hAnswer body) (peers_flattenedOption hAnswer other)
  | .loop s test body =>
    peers_loop s (test.peers_flattened hAnswer) (peers_flattenedOption hAnswer body)
  | .choose s subject whens other => peers_choose s (subject.peers_flattened hAnswer)
    (peers_flattenedWhens hAnswer whens) (peers_flattenedOption hAnswer other)
  | .logic s op left right =>
    peers_logic s op (left.peers_flattened hAnswer) (right.peers_flattened hAnswer)
  | .jump s kind value => peers_jump s kind (peers_flattenedOption hAnswer value)
  | .assign s target value =>
    peers_assign s (target.peers_flattened hAnswer) (value.peers_flattened hAnswer)
  | .multi s targets values =>
    peers_multi s (peers_flattenedList hAnswer targets) (peers_flattenedList hAnswer values)
  | .call s receiver name args none => peers_call s name (peers_flattenedOption hAnswer receiver)
    (peers_flattenedList hAnswer args) .none
  | .call s receiver name args (some ⟨_, body⟩) =>
    peers_call s name (peers_flattenedOption hAnswer receiver) (peers_flattenedList hAnswer args)
      (.some ⟨rfl, peers_flattenedOption hAnswer body⟩)
  | .isA s subject type => peers_isA s type (subject.peers_flattened hAnswer)
  | .define s kind name params body => peers_define s kind name
    (peers_flattenedParams hAnswer params) (peers_flattenedOption hAnswer body)
  | .interp s pieces => peers_interp s (peers_flattenedList hAnswer pieces)
  | .range s first last exclusive =>
    peers_range s (first.peers_flattened hAnswer) (last.peers_flattened hAnswer) exclusive
  | .array s elements type => peers_array s (peers_flattenedList hAnswer elements) type
  | .hash s entries types => peers_hash s (peers_flattenedEntries hAnswer entries) types

theorem statements_flattened (hAnswer : ∀ s path, (answer s path).Gives Node.Splices) :
    ∀ ns : List Node, statements (pendingList answer (flattenedStatements ns)) =
      statements (pendingList answer ns)
  | [] => rfl
  | n :: ns => statements_append_spliced hAnswer (n.peers_flattened hAnswer)
    (statements_flattened hAnswer ns)

theorem peers_flattenedOption (hAnswer : ∀ s path, (answer s path).Gives Node.Splices) :
    ∀ n : Option Node, PeerOptions (pendingOption answer (flattenedOption n))
      (pendingOption answer n)
  | none => .none
  | some n => .some (n.peers_flattened hAnswer)

theorem peers_flattenedList (hAnswer : ∀ s path, (answer s path).Gives Node.Splices) :
    ∀ ns : List Node, PeerLists (pendingList answer (flattenedList ns)) (pendingList answer ns)
  | [] => .nil
  | n :: ns => .cons (n.peers_flattened hAnswer) (peers_flattenedList hAnswer ns)

theorem peers_flattenedWhens (hAnswer : ∀ s path, (answer s path).Gives Node.Splices) :
    ∀ ws : List (When Node), List.Forall₂ PeerWhen (pendingWhens answer (flattenedWhens ws))
      (pendingWhens answer ws)
  | [] => .nil
  | ⟨patterns, body⟩ :: ws =>
    .cons ⟨peers_flattenedList hAnswer patterns, peers_flattenedOption hAnswer body⟩
      (peers_flattenedWhens hAnswer ws)

theorem peers_flattenedParams (hAnswer : ∀ s path, (answer s path).Gives Node.Splices) :
    ∀ ps : List (Param Node), List.Forall₂ PeerParam (pendingParams answer (flattenedParams ps))
      (pendingParams answer ps)
  | [] => .nil
  | ⟨_, default⟩ :: ps =>
    .cons ⟨rfl, peers_flattenedOption hAnswer default⟩ (peers_flattenedParams hAnswer ps)

theorem peers_flattenedEntries (hAnswer : ∀ s path, (answer s path).Gives Node.Splices) :
    ∀ es : List (HashEntry Node), List.Forall₂ PeerEntry
      (pendingEntries answer (flattenedEntries es)) (pendingEntries answer es)
  | [] => .nil
  | ⟨key, value⟩ :: es =>
    .cons ⟨key.peers_flattened hAnswer, value.peers_flattened hAnswer⟩
      (peers_flattenedEntries hAnswer es)
end

/-- Nesting of sequences makes no difference. The tree without it has no sequence or empty statement
in a sequence at any depth, and from every state it normalizes to the same tree, and ends alike, or
fails with the same error, and it leaves the same state behind; so it is with whole files. -/
theorem nesting_invisible (root : Node) :
    (∀ s stmts, root.flattened.Has (.seq s stmts) → ∀ n ∈ stmts, n.isStatement = true) ∧
    (∀ depth file st, (root.flattened.pending (answerRequire depth file)).run.run st =
      (root.pending (answerRequire depth file)).run.run st) ∧
    ∀ p : Program, (∀ file, p.normalize file root.flattened = p.normalize file root) ∧
      ∀ file, p.normalizeFile file root.flattened = p.normalizeFile file root := by
  have hPeers : ∀ depth file, Peers (root.flattened.pending (answerRequire depth file))
      (root.pending (answerRequire depth file)) := fun depth file =>
    root.peers_flattened (splices_answerRequire depth file)
  have hNormalize : ∀ (p : Program) file,
      p.normalize file root.flattened = p.normalize file root := by
    intro p file
    unfold Program.normalize
    rw [(hPeers _ file).node]
  refine ⟨root.unnested_flattened, fun depth file st => by rw [(hPeers depth file).run],
    fun p => ⟨hNormalize p, fun file => ?_⟩⟩
  unfold Program.normalizeFile
  cases p.beginFile file.location with
  | error e => rfl
  | ok p =>
    dsimp only
    rw [hNormalize]

example (s : Span) (a : Node) : (Node.seq s [.seq s [.nop s, .jump s .ret (some (.seq s []))],
    .seq s [], .isA s a ⟨true, []⟩]).flattened =
    .seq s [.jump s .ret (some (.seq s [])), .isA s a.flattened ⟨true, []⟩] := rfl

end CoreTree

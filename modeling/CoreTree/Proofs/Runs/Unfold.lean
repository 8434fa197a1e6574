import CoreTree.Proofs.Requires.Answers
import CoreTree.Proofs.Runs.Code

/-! # The recursion unfolds to the code

If every call in the code is answered by the action that normalizes the tree, the code of a tree
is the action that normalizes it. For sugar this says that the action is the one of the simpler
tree that the sugar stands for.
-/
namespace CoreTree
set_option autoImplicit false

namespace Code

/-- The code as an action, with each call answered by the pending tree of its tree. -/
def denote (answer : RequireHandler) : {α : Type} → Code α → Norm α
  | _, .pure a => Pure.pure a
  | _, .bind c f => c.denote answer >>= fun a => (f a).denote answer
  | _, .act a => a.run
  | _, .transform n => (n.pending answer).run
  | _, .apart params n => Norm.inScope (Scope.ofParams params) (n.pending answer).node
  | _, .require s path => answer s path

variable {α β : Type} (answer : RequireHandler)

@[simp]
theorem denote_bind (c : Code α) (f : α → Code β) :
    (c >>= f).denote answer = c.denote answer >>= fun a => (f a).denote answer := rfl

end Code

open Code

variable (answer : RequireHandler)

theorem Norm.ext {α : Type} {act act' : Norm α} (h : ∀ st, act.run st = act'.run st) : act = act' :=
  funext h

theorem denote_useVar (s : Span) (v : Var) : (useVar s v).denote answer = Norm.useVar s v := by
  unfold useVar Norm.useVar
  split <;> rfl

theorem denote_optionNode (n : Option Node) :
    (Code.optionNode n).denote answer = Pending.optionNode (pendingOption answer n) := by
  cases n with
  | none => rw [pendingOption]; rfl
  | some n => rw [pendingOption]; rfl

theorem denote_nodes (ns : List Node) :
    (Code.nodes ns).denote answer = Pending.nodes (pendingList answer ns) := by
  induction ns with
  | nil => rw [pendingList]; rfl
  | cons n ns ih => rw [pendingList, Pending.nodes, ← ih]; rfl

theorem denote_target (n : Node) :
    (Code.target n).denote answer = (n.pending answer).target := by
  unfold Pending.target
  rw [Node.source_pending]
  cases n <;> rfl

theorem denote_targets (ns : List Node) :
    (Code.targets ns).denote answer = Pending.targets (pendingList answer ns) := by
  induction ns with
  | nil => rw [pendingList]; rfl
  | cons n ns ih => rw [pendingList, Pending.targets, ← ih, ← denote_target]; rfl

theorem denote_statements (ns : List Node) :
    (Code.statements ns).denote answer = Pending.statements (pendingList answer ns) := by
  induction ns with
  | nil => rw [pendingList]; rfl
  | cons n ns ih =>
    rw [pendingList, Pending.statements, ← ih, Code.statements, denote_bind]
    refine congrArg _ (funext fun o => ?_)
    split <;> rfl

theorem denote_runBranch (start : Scope) (n : Option Node) :
    (Code.runBranch start n).denote answer = Pending.runBranch start (pendingOption answer n) := by
  cases n with
  | none => rw [pendingOption]; rfl
  | some n => rw [pendingOption]; rfl

theorem denote_runBlock (s : Span) (params : List Symbol) (body : Option Node) :
    (Code.runBlock s ⟨params, body⟩).denote answer =
      Pending.runBlock s ⟨params, pendingOption answer body⟩ := by
  simp only [Pending.runBlock, ← denote_runBranch]
  rfl

theorem denote_ifElse (s : Span) (test : Node) (onTrue onFalse : Option Node) :
    (Code.ifElse s test onTrue onFalse).denote answer =
      (Pending.cond s .whenTrue (test.pending answer) (pendingOption answer onTrue)
        (pendingOption answer onFalse)).run := by
  simp only [Pending.cond, ← denote_runBranch]
  rfl

theorem denote_loop (s : Span) (test : Node) (body : Option Node) :
    (Code.loop s test body).denote answer =
      (Pending.loop s (test.pending answer) (pendingOption answer body)).run := by
  simp only [Pending.loop, ← denote_runBranch]
  rfl

theorem denote_optionApart (params : List Symbol) (n : Option Node) :
    (Code.optionApart params n).denote answer =
      Norm.inScope (Scope.ofParams params) (Pending.optionNode (pendingOption answer n)) := by
  cases n with
  | none => rw [pendingOption]; rfl
  | some n =>
    refine Norm.ext fun st => ?_
    rw [pendingOption, Norm.run_inScope]
    show ((Norm.inScope (Scope.ofParams params) (n.pending answer).node) >>= fun m =>
      pure (some m)).run st = _
    rw [EStateM.run_bind, Norm.run_inScope, Pending.optionNode, EStateM.run_bind]
    cases (n.pending answer).node.run ⟨st.program, Scope.ofParams params⟩ <;> rfl

theorem denote_entryNodes (es : List (HashEntry Node)) :
    (Code.entryNodes es).denote answer = Pending.entryNodes (pendingEntries answer es) := by
  induction es with
  | nil => rw [pendingEntries]; rfl
  | cons e es ih =>
    obtain ⟨key, value⟩ := e
    rw [pendingEntries, Pending.entryNodes, ← ih]
    rfl

/-! ## Sugar

The simpler tree that sugar stands for is pending for what the sugar does. -/

namespace Node

theorem span_pending (n : Node) : (n.pending answer).span = n.span :=
  congrArg Node.span (source_pending answer n)

theorem pending_save (t : Symbol) (n : Node) :
    (n.save t).pending answer = Pending.save t (n.pending answer) := by
  rw [save, pending, Pending.save, span_pending]
  rfl

theorem run_logic (s : Span) (op : LogicOp) (left right : Node) :
    (Pending.logic s op (left.pending answer) (right.pending answer)).run =
      (Code.unfolded (Code.savesLeft op left) fun t =>
        logicAsCond s t op left right).denote answer := by
  unfold Code.unfolded
  cases op with
  | and =>
    rw [Pending.logic, Pending.and, source_pending, Code.savesLeft]
    cases hRepeatable : Pending.isRepeatable left with
    | true =>
      show _ = ((logicAsCond s .empty .and left right).pending answer).run
      simp only [logicAsCond, hRepeatable, reduceIte, pending, pendingOption]
    | false =>
      show _ = Norm.freshTemp >>= fun t => ((logicAsCond s t .and left right).pending answer).run
      simp only [logicAsCond, hRepeatable, Bool.false_eq_true, reduceIte, pending, pendingOption,
        pending_save, span_pending, temp, Pending.temp]
  | or =>
    rw [Pending.logic, Pending.or, source_pending, Code.savesLeft]
    cases hPlain : left.plainVar?.isSome with
    | true =>
      show _ = ((logicAsCond s .empty .or left right).pending answer).run
      simp only [logicAsCond, hPlain, reduceIte, pending, pendingOption]
    | false =>
      show _ = Norm.freshTemp >>= fun t => ((logicAsCond s t .or left right).pending answer).run
      simp only [logicAsCond, hPlain, Bool.false_eq_true, reduceIte, pending, pendingOption,
        pending_save, span_pending, temp, Pending.temp]

theorem pending_matchTest (scrutinee pattern : Node) :
    (matchTest scrutinee pattern).pending answer =
      Pending.matchTest (scrutinee.pending answer) (pattern.pending answer) := by
  rw [matchTest, send, pending, Pending.matchTest, span_pending]
  simp only [pendingOption, pendingList]

theorem pending_clauseTest (s : Span) (scrutinee : Node) (patterns : List Node) :
    (clauseTest s scrutinee patterns).pending answer =
      Pending.clauseTest s (scrutinee.pending answer) (pendingList answer patterns) := by
  cases patterns with
  | nil => simp only [clauseTest, bool, pending, pendingList, Pending.clauseTest]
  | cons pattern patterns =>
    rw [clauseTest, pendingList, Pending.clauseTest, ← pending_matchTest]
    generalize matchTest scrutinee pattern = acc
    induction patterns generalizing acc with
    | nil => rw [pendingList]; rfl
    | cons next patterns ih =>
      rw [List.map_cons, List.foldl_cons, ih, pendingList, List.map_cons, List.foldl_cons,
        ← pending_matchTest, span_pending, span_pending, pending]
      rfl

theorem pending_clauseChain (s : Span) (scrutinee : Node) (whens : List (When Node))
    (other : Option Node) : (clauseChain s scrutinee whens other).pending answer =
      Pending.clauseChain s (scrutinee.pending answer) (pendingWhens answer whens)
        (pendingOption answer other) := by
  have hClauses : pendingOption answer (clauses s scrutinee whens other) =
      (pendingWhens answer whens).foldr (fun w rest => some (Pending.cond s .whenTrue
        (Pending.clauseTest s (scrutinee.pending answer) w.patterns) w.body rest))
        (pendingOption answer other) := by
    induction whens with
    | nil => rw [pendingWhens]; rfl
    | cons w ws ih =>
      obtain ⟨patterns, body⟩ := w
      rw [pendingWhens, List.foldr_cons, ← ih, ← pending_clauseTest, clauses, List.foldr_cons,
        pendingOption, pending]
      rfl
  rw [Pending.clauseChain, ← hClauses, clauseChain]
  cases clauses s scrutinee whens other with
  | none =>
    rw [pendingOption, Option.getD_none, nil, pending]
    rfl
  | some n => rw [pendingOption]; rfl

theorem run_choose (s : Span) (subject : Node) (whens : List (When Node)) (other : Option Node) :
    (Pending.choose s (subject.pending answer) (pendingWhens answer whens)
      (pendingOption answer other)).run =
      (Code.unfolded (!Pending.isScrutinee subject) fun t =>
        chooseAsChain s t subject whens other).denote answer := by
  rw [Pending.choose, source_pending, Code.unfolded]
  cases hScrutinee : Pending.isScrutinee subject with
  | true =>
    show _ = ((chooseAsChain s .empty subject whens other).pending answer).run
    rw [chooseAsChain, if_pos hScrutinee, pending_clauseChain]
    rfl
  | false =>
    show _ = Norm.freshTemp >>= fun t =>
      ((chooseAsChain s t subject whens other).pending answer).run
    simp only [chooseAsChain, hScrutinee, Bool.false_eq_true, reduceIte, pending, pendingList,
      pending_save, pending_clauseChain, span_pending, temp, Pending.temp]

theorem pending_definePlain (s : Span) (kind : DefKind) (name : Symbol) (params : List Symbol)
    (body : Option Node) : (define s kind name (plainParams params) body).pending answer =
      Pending.definePlain s kind name params (pendingOption answer body) := by
  have hParams : pendingParams answer (plainParams params) = params.map (⟨·, none⟩) := by
    unfold plainParams
    induction params with
    | nil => rw [List.map_nil, pendingParams]; rfl
    | cons x params ih => rw [List.map_cons, pendingParams, ih, pendingOption]; rfl
  have hNames : (params.map fun x => (⟨x, none⟩ : Param Pending)).map (·.name) = params := by
    rw [List.map_map]
    exact List.map_id params
  have hPlain : (params.map fun x => (⟨x, none⟩ : Param Pending)).any (·.default.isSome) =
      false := by
    simp
  rw [pending, hParams, Pending.define, Pending.definePlain]
  simp only [hNames, hPlain, Bool.false_eq_true, reduceIte, List.map_map]
  rfl

theorem pending_forwarders (s : Span) (kind : DefKind) (name : Symbol) (given : List Symbol)
    (params : List (Param Node)) : pendingList answer (forwarders s kind name given params) =
      Pending.forwarders s kind name given (pendingParams answer params) := by
  induction params generalizing given with
  | nil => rw [pendingParams, forwarders, pendingList]; rfl
  | cons next params ih =>
    obtain ⟨x, default⟩ := next
    have hArgs : ∀ n : Node, pendingList answer
        (given.map (fun param => .var s ⟨param, 0, false⟩) ++ [n]) =
          given.map (fun param => Pending.var s ⟨param, 0, false⟩) ++ [n.pending answer] := by
      intro n
      clear ih
      induction given with
      | nil => simp only [List.map_nil, List.nil_append, pendingList]
      | cons y given ih => simp only [List.map_cons, List.cons_append, pendingList, ih, pending]
    have hDefault : (pendingOption answer default).getD (Pending.nil s) =
        (default.getD (nil s)).pending answer := by
      cases default with
      | none => simp only [pendingOption, Option.getD_none, nil, pending, Pending.nil]
      | some n => simp only [pendingOption, Option.getD_some]
    rw [forwarders, pendingList, pendingParams, Pending.forwarders, ih, pending_definePlain,
      hDefault, ← hArgs, pendingOption, pending, pendingOption]

theorem pendingParams_eq_map (params : List (Param Node)) : pendingParams answer params =
    params.map fun p => ⟨p.name, pendingOption answer p.default⟩ := by
  induction params with
  | nil => rw [pendingParams]; rfl
  | cons p params ih => obtain ⟨x, default⟩ := p; rw [pendingParams, ih]; rfl

theorem isSome_pendingOption (n : Option Node) :
    (pendingOption answer n).isSome = n.isSome := by
  cases n <;> rw [pendingOption] <;> rfl

theorem isNone_pendingOption (n : Option Node) :
    (pendingOption answer n).isNone = n.isNone := by
  cases n <;> rw [pendingOption] <;> rfl

theorem pendingList_append (ns ms : List Node) :
    pendingList answer (ns ++ ms) = pendingList answer ns ++ pendingList answer ms := by
  induction ns with
  | nil => rw [pendingList]; rfl
  | cons n ns ih => simp only [List.cons_append, pendingList, ih]

theorem pending_expandedDefine (s : Span) (kind : DefKind) (name : Symbol)
    (params : List (Param Node)) (body : Option Node)
    (h : params.any (·.default.isSome) = true) :
    ((expandedDefine s kind name params body).pending answer).run = (Pending.define s kind name
      (pendingParams answer params) (pendingOption answer body)).run := by
  have hAny : (pendingParams answer params).any (·.default.isSome) = true := by
    simpa only [pendingParams_eq_map, List.any_map, Function.comp_def, isSome_pendingOption]
  have hRequired : ((pendingParams answer params).takeWhile (·.default.isNone)).map (·.name) =
      (params.takeWhile (·.default.isNone)).map (·.name) := by
    simp only [pendingParams_eq_map, List.takeWhile_map, List.map_map, Function.comp_def,
      isNone_pendingOption]
  have hRest : (pendingParams answer params).dropWhile (·.default.isNone) =
      pendingParams answer (params.dropWhile (·.default.isNone)) := by
    simp only [pendingParams_eq_map, List.dropWhile_map, Function.comp_def, isNone_pendingOption]
  have hNames : (pendingParams answer params).map (·.name) = params.map (·.name) := by
    simp only [pendingParams_eq_map, List.map_map, Function.comp_def]
  simp only [Pending.define, hAny, reduceIte, hRequired, hRest, hNames]
  rw [expandedDefine, pending, pendingList_append, pending_forwarders, pendingList, pendingList,
    pending_definePlain]

end Node

/-- One call of the normalizer is its code, with the normalizer for each call in it. -/
theorem Node.denote_code : ∀ n : Node, n.code.denote answer = (n.pending answer).run
  | .atom s a => by rw [pending]; rfl
  | .var s v => by
    rw [pending, Pending.var, ← denote_useVar answer]
    rfl
  | .seq s stmts => by
    rw [pending, Pending.seq, ← denote_statements]
    rfl
  | .cond s .whenTrue test body other => by
    rw [pending]
    exact denote_ifElse answer s test body other
  | .cond s .whenFalse test body other => by
    rw [pending]
    exact denote_ifElse answer s test other body
  | .loop s test body => by
    rw [pending]
    exact denote_loop answer s test body
  | .choose s subject whens other => by
    rw [pending]
    exact (run_choose answer s subject whens other).symm
  | .logic s op left right => by
    rw [pending]
    exact (run_logic answer s op left right).symm
  | .jump s kind value => by
    rw [pending, Pending.jump, ← denote_optionNode]
    rfl
  | .assign s target value => by
    rw [pending, Pending.assign, ← denote_target, source_pending]
    show (Code.assign s target value).denote answer = _
    cases target with
    | atom _ a => cases a <;> rfl
    | _ => rfl
  | .multi s targets values => by
    rw [pending, Pending.multi, ← denote_nodes, ← denote_targets]
    rfl
  | .call s receiver name args none => by
    rw [pending, Pending.call, ← denote_nodes, ← denote_optionNode]
    rfl
  | .call s receiver name args (some ⟨params, body⟩) => by
    rw [pending, Pending.call, ← denote_nodes, ← denote_optionNode, Pending.optionBlock,
      ← denote_runBlock]
    rfl
  | .isA s subject type => by rw [pending]; rfl
  | .define s kind name params body => by
    rw [pending, code, Code.define]
    split
    · rename_i hDefault
      rw [← pending_expandedDefine answer s kind name params body hDefault]
      rfl
    · rename_i hPlain
      have hAny : (pendingParams answer params).any (·.default.isSome) = false := by
        simpa only [pendingParams_eq_map, List.any_map, Function.comp_def, isSome_pendingOption,
          Bool.not_eq_true] using hPlain
      have hNames : (pendingParams answer params).map (·.name) = params.map (·.name) := by
        simp only [pendingParams_eq_map, List.map_map, Function.comp_def]
      simp only [Pending.define, hAny, Bool.false_eq_true, reduceIte, hNames, Pending.definePlain,
        ← denote_optionApart]
      rfl
  | .interp s pieces => by
    rw [pending, Pending.interp, ← denote_nodes]
    rfl
  | .range s first last exclusive => by rw [pending]; rfl
  | .regex s text => by rw [pending]; rfl
  | .array s elements type => by
    rw [pending, Pending.array, ← denote_nodes]
    show (Code.array s elements type).denote answer = _
    unfold Code.array
    rw [denote_bind]
    refine congrArg _ (funext fun ns => ?_)
    rw [denote_bind]
    refine congrArg _ (funext fun id => ?_)
    split <;> rfl
  | .hash s entries types => by
    rw [pending, Pending.hash, ← denote_entryNodes]
    show (Code.hash s entries types).denote answer = _
    unfold Code.hash
    rw [denote_bind]
    refine congrArg _ (funext fun es => ?_)
    rw [denote_bind]
    refine congrArg _ (funext fun id => ?_)
    split <;> rfl
  | .require s path => by rw [pending]; rfl

end CoreTree

import CoreTree.Proofs.CoreForm.Everywhere
import CoreTree.Proofs.Runs.Code

/-! # Which trees a call hands on

The trees that the code of a tree hands back to the normalizer are parts of the tree, or the
simpler tree that it stands for if it is sugar. The simpler tree may be larger, it repeats parts
and holds new sugar, but by a weight that charges sugar for what it turns into it is lighter.
-/
namespace CoreTree
set_option autoImplicit false

namespace Code

variable {α β : Type}

/-- The code may hand the tree back to the normalizer. -/
def Calls : {α : Type} → Code α → Node → Prop
  | _, .pure _, _ | _, .act _, _ | _, .require .., _ => False
  | _, .bind c f, m => c.Calls m ∨ ∃ a, (f a).Calls m
  | _, .transform n, m | _, .apart _ n, m => m = n

@[simp]
theorem calls_pure (a : α) (m : Node) : ¬ (Pure.pure a : Code α).Calls m := id

@[simp]
theorem calls_act (a : Act α) (m : Node) : ¬ (act a).Calls m := id

@[simp]
theorem calls_require (s : Span) (path : Symbol) (m : Node) : ¬ (require s path).Calls m := id

@[simp]
theorem calls_bind (c : Code α) (f : α → Code β) (m : Node) :
    (c >>= f).Calls m ↔ c.Calls m ∨ ∃ a, (f a).Calls m := Iff.rfl

@[simp]
theorem calls_ite (p : Prop) [Decidable p] (c d : Code α) (m : Node) :
    (if p then c else d).Calls m ↔ if p then c.Calls m else d.Calls m := by
  split <;> rfl

@[simp]
theorem calls_transform (n m : Node) : (transform n).Calls m ↔ m = n := Iff.rfl

@[simp]
theorem calls_apart (params : List Symbol) (n m : Node) : (apart params n).Calls m ↔ m = n :=
  Iff.rfl

@[simp]
theorem calls_node (n m : Node) : (node n).Calls m ↔ m = n := by simp [node]

@[simp]
theorem not_calls_getScope (m : Node) : ¬ getScope.Calls m := id

@[simp]
theorem not_calls_setScope (scope : Scope) (m : Node) : ¬ (setScope scope).Calls m := id

@[simp]
theorem not_calls_noteBridges (bridges : List Bridge) (m : Node) :
    ¬ (noteBridges bridges).Calls m := id

@[simp]
theorem not_calls_noteParams (params : List Symbol) (m : Node) : ¬ (noteParams params).Calls m := id

@[simp]
theorem not_calls_freshTemp (m : Node) : ¬ freshTemp.Calls m := id

@[simp]
theorem not_calls_genericType (base : Symbol) (args : List TypeArg) (m : Node) :
    ¬ (genericType base args).Calls m := id

@[simp]
theorem not_calls_close (s : Span) (e : Option BranchEnd) (bridges : List Bridge) (m : Node) :
    ¬ (close s e bridges).Calls m := id

@[simp]
theorem not_calls_useVar (s : Span) (v : Var) (m : Node) : ¬ (useVar s v).Calls m := by
  unfold useVar
  split <;> exact id

variable {m : Node}

theorem mem_of_calls_optionNode {n : Option Node} (h : (optionNode n).Calls m) : n = some m := by
  cases n with
  | none => simp [optionNode] at h
  | some n => exact congrArg some (by simpa [optionNode, eq_comm] using h)

theorem mem_of_calls_nodes {ns : List Node} (h : (nodes ns).Calls m) : m ∈ ns := by
  induction ns with
  | nil => simp [nodes] at h
  | cons n ns ih =>
    obtain rfl | h : m = n ∨ (nodes ns).Calls m := by simpa [nodes] using h
    · exact .head _
    · exact .tail _ (ih h)

theorem eq_of_calls_target {n : Node} (h : (target n).Calls m) : m = n := by
  cases n with
  | var => simp [target] at h
  | _ => exact (calls_node _ m).mp h

theorem mem_of_calls_targets {ns : List Node} (h : (targets ns).Calls m) : m ∈ ns := by
  induction ns with
  | nil => simp [targets] at h
  | cons n ns ih =>
    obtain h | h : (target n).Calls m ∨ (targets ns).Calls m := by simpa [targets] using h
    · exact eq_of_calls_target h ▸ .head _
    · exact .tail _ (ih h)

theorem mem_of_calls_statements {ns : List Node} (h : (statements ns).Calls m) : m ∈ ns := by
  induction ns with
  | nil => simp [statements] at h
  | cons n ns ih =>
    simp only [statements, calls_bind, calls_transform] at h
    obtain rfl | ⟨o, h⟩ := h
    · exact .head _
    · split at h
      · simp at h
      · exact .tail _ (ih (by simpa using h))

theorem mem_of_calls_runBranch {start : Scope} {n : Option Node}
    (h : (runBranch start n).Calls m) : n = some m := by
  cases n with
  | none => simp [runBranch] at h
  | some n => exact congrArg some (by simpa [runBranch, eq_comm] using h)

theorem mem_of_calls_optionBlock {s : Span} {b : Option (Block Node)}
    (h : (optionBlock s b).Calls m) : b.bind (·.body) = some m := by
  cases b with
  | none => simp [optionBlock] at h
  | some b =>
    obtain ⟨_, h⟩ : ∃ before : Scope, (runBranch (Scope.bindParams before b.params).2 b.body).Calls
        m := by simpa [optionBlock, runBlock] using h
    exact mem_of_calls_runBranch h

theorem mem_of_calls_entryNodes {es : List (HashEntry Node)} (h : (entryNodes es).Calls m) :
    ∃ e ∈ es, m = e.key ∨ m = e.value := by
  induction es with
  | nil => simp [entryNodes] at h
  | cons e es ih =>
    obtain rfl | rfl | h : m = e.key ∨ m = e.value ∨ (entryNodes es).Calls m := by
      simpa [entryNodes] using h
    · exact ⟨e, .head _, .inl rfl⟩
    · exact ⟨e, .head _, .inr rfl⟩
    · obtain ⟨e', hMem, hEq⟩ := ih h
      exact ⟨e', .tail _ hMem, hEq⟩

theorem mem_of_calls_optionApart {params : List Symbol} {n : Option Node}
    (h : (optionApart params n).Calls m) : n = some m := by
  cases n with
  | none => simp [optionApart] at h
  | some n => exact congrArg some (by simpa [optionApart, eq_comm] using h)

theorem eq_of_calls_unfolded {saves : Bool} {meaning : Symbol → Node}
    (h : (unfolded saves meaning).Calls m) : ∃ t, m = meaning t := by
  cases saves with
  | true =>
    simpa [unfolded] using h
  | false => exact ⟨_, h⟩

end Code

/-! ## Requires -/

namespace Code

variable {α β : Type}

/-- The code may ask for the file of this request. -/
def Asks : {α : Type} → Code α → Symbol → Prop
  | _, .pure _, _ | _, .act _, _ | _, .transform _, _ | _, .apart .., _ => False
  | _, .bind c f, path => c.Asks path ∨ ∃ a, (f a).Asks path
  | _, .require _ asked, path => path = asked

variable {path : Symbol}

@[simp]
theorem asks_pure (a : α) : ¬ (Pure.pure a : Code α).Asks path := id

@[simp]
theorem asks_act (a : Act α) : ¬ (act a).Asks path := id

@[simp]
theorem asks_transform (n : Node) : ¬ (transform n).Asks path := id

@[simp]
theorem asks_apart (params : List Symbol) (n : Node) : ¬ (apart params n).Asks path := id

@[simp]
theorem asks_bind (c : Code α) (f : α → Code β) :
    (c >>= f).Asks path ↔ c.Asks path ∨ ∃ a, (f a).Asks path := Iff.rfl

@[simp]
theorem asks_require (s : Span) (asked : Symbol) :
    (require s asked).Asks path ↔ path = asked := Iff.rfl

@[simp]
theorem asks_ite (p : Prop) [Decidable p] (c d : Code α) :
    (if p then c else d).Asks path ↔ if p then c.Asks path else d.Asks path := by
  split <;> rfl

@[simp]
theorem not_asks_getScope : ¬ getScope.Asks path := id

@[simp]
theorem not_asks_setScope (scope : Scope) : ¬ (setScope scope).Asks path := id

@[simp]
theorem not_asks_noteBridges (bridges : List Bridge) : ¬ (noteBridges bridges).Asks path := id

@[simp]
theorem not_asks_noteParams (params : List Symbol) : ¬ (noteParams params).Asks path := id

@[simp]
theorem not_asks_freshTemp : ¬ freshTemp.Asks path := id

@[simp]
theorem not_asks_genericType (base : Symbol) (args : List TypeArg) :
    ¬ (genericType base args).Asks path := id

@[simp]
theorem not_asks_close (s : Span) (e : Option BranchEnd) (bridges : List Bridge) :
    ¬ (close s e bridges).Asks path := id

@[simp]
theorem not_asks_useVar (s : Span) (v : Var) : ¬ (useVar s v).Asks path := by
  unfold useVar
  split <;> exact id

@[simp]
theorem not_asks_node (n : Node) : ¬ (node n).Asks path := by simp [node]

@[simp]
theorem not_asks_optionNode (n : Option Node) : ¬ (optionNode n).Asks path := by
  cases n <;> simp [optionNode]

@[simp]
theorem not_asks_nodes (ns : List Node) : ¬ (nodes ns).Asks path := by
  induction ns <;> simp_all [nodes]

@[simp]
theorem not_asks_target (n : Node) : ¬ (target n).Asks path := by
  cases n <;> simp [target]

@[simp]
theorem not_asks_targets (ns : List Node) : ¬ (targets ns).Asks path := by
  induction ns <;> simp_all [targets]

@[simp]
theorem not_asks_statements (ns : List Node) : ¬ (statements ns).Asks path := by
  induction ns <;> simp_all [statements]

@[simp]
theorem not_asks_runBranch (start : Scope) (n : Option Node) :
    ¬ (runBranch start n).Asks path := by
  cases n <;> simp [runBranch]

@[simp]
theorem not_asks_optionBlock (s : Span) (b : Option (Block Node)) :
    ¬ (optionBlock s b).Asks path := by
  cases b <;> simp [optionBlock, runBlock]

@[simp]
theorem not_asks_entryNodes (es : List (HashEntry Node)) : ¬ (entryNodes es).Asks path := by
  induction es <;> simp_all [entryNodes]

@[simp]
theorem not_asks_optionApart (params : List Symbol) (n : Option Node) :
    ¬ (optionApart params n).Asks path := by
  cases n <;> simp [optionApart]

@[simp]
theorem not_asks_unfolded (saves : Bool) (meaning : Symbol → Node) :
    ¬ (unfolded saves meaning).Asks path := by
  simp [unfolded]

@[simp]
theorem not_asks_ifElse (s : Span) (test : Node) (onTrue onFalse : Option Node) :
    ¬ (ifElse s test onTrue onFalse).Asks path := by
  simp [ifElse]

end Code

/-- Nothing but a `require` asks for a file. -/
theorem Node.eq_require_of_asks {n : Node} {path : Symbol} (h : n.code.Asks path) :
    ∃ s, n = .require s path := by
  cases n with
  | require s asked =>
    obtain rfl : path = asked := by simpa [code] using h
    exact ⟨s, rfl⟩
  | cond s form => cases form <;> exact absurd h (Code.not_asks_ifElse _ _ _ _)
  | choose | logic => exact absurd h (Code.not_asks_unfolded _ _)
  | define => simp [code, Code.define, Code.definePlain] at h
  | atom => cases h
  | var => simp [code, Code.var] at h
  | seq => simp [code, Code.seq] at h
  | loop => simp [code, Code.loop] at h
  | jump => simp [code, Code.jump] at h
  | assign =>
    simp only [code, Code.assign] at h
    split at h <;> simp at h
  | multi => simp [code, Code.multi] at h
  | call => simp [code, Code.call] at h
  | isA => simp [code, Code.isA] at h
  | interp => simp [code, Code.interp] at h
  | range => simp [code, Code.range] at h
  | regex => simp [code, Code.regex] at h
  | array => simp [code, Code.array] at h
  | hash => simp [code, Code.hash] at h

/-! ## Sugar -/

/-- Sugar and the simpler tree that it stands for, with a fresh name in it. -/
inductive Node.Means : Node → Node → Prop where
  | choose {s : Span} {subject : Node} {whens : List (When Node)} {other : Option Node}
    (t : Symbol) : Means (.choose s subject whens other) (.chooseAsChain s t subject whens other)
  | logic {s : Span} {op : LogicOp} {left right : Node} (t : Symbol) :
    Means (.logic s op left right) (.logicAsCond s t op left right)
  | define {s : Span} {kind : DefKind} {name : Symbol} {params : List (Param Node)}
    {body : Option Node} (hDefault : params.any (·.default.isSome) = true) :
    Means (.define s kind name params body) (.expandedDefine s kind name params body)

theorem Node.mem_parts_of_calls {n m : Node} (h : n.code.Calls m) : m ∈ n.parts ∨ n.Means m := by
  have hIfElse : ∀ {s : Span} {test : Node} {onTrue onFalse : Option Node},
      (Code.ifElse s test onTrue onFalse).Calls m →
        m = test ∨ onTrue = some m ∨ onFalse = some m := by
    intro s test onTrue onFalse h
    obtain h | ⟨_, h | ⟨_, h⟩⟩ : m = test ∨ ∃ before, (Code.runBranch before onTrue).Calls m ∨
        ∃ thenEnd : Option BranchEnd, (Code.runBranch (thenEnd.elim before fun e =>
          Scope.elseStart before e.scope) onFalse).Calls m := by
      simpa [Code.ifElse] using h
    · exact .inl h
    · exact .inr (.inl (Code.mem_of_calls_runBranch h))
    · exact .inr (.inr (Code.mem_of_calls_runBranch h))
  cases n with
  | atom s a => cases h
  | regex s text => simp [code, Code.regex] at h
  | var s v => simp [code, Code.var] at h
  | require s path => simp [code] at h
  | seq s stmts =>
    exact .inl (Code.mem_of_calls_statements (by simpa [code, Code.seq] using h))
  | cond s form test body other =>
    left
    cases form with
    | whenTrue =>
      obtain rfl | rfl | rfl := hIfElse h <;> simp
    | whenFalse =>
      obtain rfl | rfl | rfl := hIfElse h <;> simp
  | loop s test body =>
    left
    obtain rfl | ⟨_, h⟩ : m = test ∨ ∃ entry, (Code.runBranch entry body).Calls m := by
      simpa [code, Code.loop] using h
    · simp
    · simp [Code.mem_of_calls_runBranch h]
  | choose s subject whens other =>
    obtain ⟨t, rfl⟩ := Code.eq_of_calls_unfolded h
    exact .inr (.choose t)
  | logic s op left right =>
    obtain ⟨t, rfl⟩ := Code.eq_of_calls_unfolded h
    exact .inr (.logic t)
  | jump s kind value =>
    left
    have hCalls : (Code.optionNode value).Calls m := by simpa [code, Code.jump] using h
    simp [Code.mem_of_calls_optionNode hCalls]
  | assign s target value =>
    left
    have h : m = value ∨ (Code.target target).Calls m := by
      simp only [code, Code.assign] at h
      split at h <;> simpa using h
    obtain rfl | h := h
    · simp
    · simp [Code.eq_of_calls_target h]
  | multi s lefts values =>
    left
    obtain h | h : (Code.nodes values).Calls m ∨ (Code.targets lefts).Calls m := by
      simpa [code, Code.multi] using h
    · simp [Code.mem_of_calls_nodes h]
    · simp [Code.mem_of_calls_targets h]
  | call s receiver name args block =>
    left
    obtain h | h | h : (Code.optionNode receiver).Calls m ∨ (Code.nodes args).Calls m ∨
        (Code.optionBlock s block).Calls m := by simpa [code, Code.call] using h
    · simp [Code.mem_of_calls_optionNode h]
    · simp [Code.mem_of_calls_nodes h]
    · simp [Code.mem_of_calls_optionBlock h]
  | isA s subject type =>
    left
    obtain rfl : m = subject := by simpa [code, Code.isA] using h
    simp
  | define s kind name params body =>
    change (Code.define s kind name params body).Calls m at h
    unfold Code.define at h
    split at h
    · rename_i hDefault
      obtain rfl := h
      exact .inr (.define hDefault)
    · have hCalls : (Code.optionApart (params.map (·.name)) body).Calls m := by
        simpa [Code.definePlain] using h
      simp [Code.mem_of_calls_optionApart hCalls]
  | interp s pieces =>
    exact .inl (Code.mem_of_calls_nodes (by simpa [code, Code.interp] using h))
  | range s first last exclusive =>
    obtain rfl | rfl : m = first ∨ m = last := by simpa [code, Code.range] using h
    · simp
    · simp
  | array s elements type =>
    exact .inl (Code.mem_of_calls_nodes (by simpa [code, Code.array] using h))
  | hash s entries types =>
    left
    have hCalls : (Code.entryNodes entries).Calls m := by simpa [code, Code.hash] using h
    simpa using Code.mem_of_calls_entryNodes hCalls

end CoreTree

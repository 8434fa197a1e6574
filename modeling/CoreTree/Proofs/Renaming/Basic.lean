import CoreTree.Tree.Generics

/-! # Renaming

Two programs know the same tree under different symbols, and the types it mentions under different
numbers. A renaming takes what one of them knows to what the other does: names by one map, the texts
of literals by another, types by a third.
-/
namespace CoreTree
set_option autoImplicit false

structure Renaming where
  name : Symbol → Symbol
  text : Symbol → Symbol
  type : TypeId → TypeId

section

variable {α β : Type}

def When.map (f : α → β) (w : When α) : When β := ⟨w.patterns.map f, w.body.map f⟩

def Block.map (name : Symbol → Symbol) (f : α → β) (b : Block α) : Block β :=
  ⟨b.params.map name, b.body.map f⟩

def Param.map (name : Symbol → Symbol) (f : α → β) (p : Param α) : Param β :=
  ⟨name p.name, p.default.map f⟩

def HashEntry.map (f : α → β) (e : HashEntry α) : HashEntry β := ⟨f e.key, f e.value⟩

end

variable (g : Renaming)

def ConstPath.rename (path : ConstPath) : ConstPath := { path with names := path.names.map g.name }

def Var.rename (v : Var) : Var := { v with name := g.name v.name }

def HashTypes.rename (types : HashTypes) : HashTypes :=
  ⟨types.key.rename g, types.value.rename g⟩

def Atom.rename : Atom → Atom
  | .str text => .str (g.text text)
  | .temp x => .temp (g.name x)
  | .field x => .field (g.name x)
  | .const path => .const (path.rename g)
  | .generic type => .generic (g.type type)
  | a => a

mutual
def Node.rename : Node → Node
  | .atom s a => .atom s (a.rename g)
  | .var s v => .var s (v.rename g)
  | .seq s stmts => .seq s (renameList stmts)
  | .cond s form test body other =>
    .cond s form test.rename (renameOption body) (renameOption other)
  | .loop s test body => .loop s test.rename (renameOption body)
  | .choose s subject whens other =>
    .choose s subject.rename (renameWhens whens) (renameOption other)
  | .logic s op left right => .logic s op left.rename right.rename
  | .jump s kind value => .jump s kind (renameOption value)
  | .assign s target value => .assign s target.rename value.rename
  | .multi s targets values => .multi s (renameList targets) (renameList values)
  | .call s receiver name args none =>
    .call s (renameOption receiver) (g.name name) (renameList args) none
  | .call s receiver name args (some ⟨params, body⟩) =>
    .call s (renameOption receiver) (g.name name) (renameList args)
      (some ⟨params.map g.name, renameOption body⟩)
  | .isA s subject type => .isA s subject.rename (type.rename g)
  | .define s kind name params body =>
    .define s kind (g.name name) (renameParams params) (renameOption body)
  | .interp s pieces => .interp s (renameList pieces)
  | .range s first last exclusive => .range s first.rename last.rename exclusive
  | .regex s text => .regex s (g.text text)
  | .array s elements type => .array s (renameList elements) (type.map (·.rename g))
  | .hash s entries types => .hash s (renameEntries entries) (types.map (·.rename g))
  | .require s path => .require s (g.text path)
termination_by structural n => n

def renameOption : Option Node → Option Node
  | none => none
  | some n => some n.rename
termination_by structural n => n

def renameList : List Node → List Node
  | [] => []
  | n :: ns => n.rename :: renameList ns
termination_by structural n => n

def renameWhens : List (When Node) → List (When Node)
  | [] => []
  | ⟨patterns, body⟩ :: whens => ⟨renameList patterns, renameOption body⟩ :: renameWhens whens
termination_by structural n => n

def renameParams : List (Param Node) → List (Param Node)
  | [] => []
  | ⟨name, default⟩ :: params => ⟨g.name name, renameOption default⟩ :: renameParams params
termination_by structural n => n

def renameEntries : List (HashEntry Node) → List (HashEntry Node)
  | [] => []
  | ⟨key, value⟩ :: entries => ⟨key.rename, value.rename⟩ :: renameEntries entries
termination_by structural n => n
end

section

variable {g}

theorem renameOption_eq_map (n : Option Node) : renameOption g n = n.map (·.rename g) := by
  cases n <;> rfl

theorem renameList_eq_map (ns : List Node) : renameList g ns = ns.map (·.rename g) := by
  induction ns with
  | nil => rfl
  | cons n ns ih => rw [renameList, ih, List.map_cons]

theorem renameWhens_eq_map (ws : List (When Node)) :
    renameWhens g ws = ws.map (When.map (·.rename g)) := by
  induction ws with
  | nil => rfl
  | cons w ws ih =>
    obtain ⟨patterns, body⟩ := w
    rw [renameWhens, ih, List.map_cons, When.map, renameList_eq_map, renameOption_eq_map]

theorem renameParams_eq_map (ps : List (Param Node)) :
    renameParams g ps = ps.map (Param.map g.name (·.rename g)) := by
  induction ps with
  | nil => rfl
  | cons p ps ih =>
    obtain ⟨name, default⟩ := p
    rw [renameParams, ih, List.map_cons, Param.map, renameOption_eq_map]

theorem renameEntries_eq_map (es : List (HashEntry Node)) :
    renameEntries g es = es.map (HashEntry.map (·.rename g)) := by
  induction es with
  | nil => rfl
  | cons e es ih =>
    obtain ⟨key, value⟩ := e
    rw [renameEntries, ih, List.map_cons, HashEntry.map]

end

namespace Node

variable {g} {s : Span} {n test left right target value : Node} {body other : Option Node}
  {ns ms : List Node}

@[simp]
theorem rename_atom (a : Atom) : (atom s a).rename g = .atom s (a.rename g) := rfl

@[simp]
theorem rename_var (v : Var) : (var s v).rename g = .var s (v.rename g) := rfl

@[simp]
theorem rename_seq : (seq s ns).rename g = .seq s (ns.map (·.rename g)) := by
  rw [← renameList_eq_map]
  rfl

@[simp]
theorem rename_cond (form : CondForm) : (cond s form test body other).rename g =
    .cond s form (test.rename g) (body.map (·.rename g)) (other.map (·.rename g)) := by
  rw [← renameOption_eq_map, ← renameOption_eq_map]
  rfl

@[simp]
theorem rename_loop : (loop s test body).rename g =
    .loop s (test.rename g) (body.map (·.rename g)) := by
  rw [← renameOption_eq_map]
  rfl

@[simp]
theorem rename_choose (whens : List (When Node)) : (choose s n whens other).rename g =
    .choose s (n.rename g) (whens.map (When.map (·.rename g))) (other.map (·.rename g)) := by
  rw [← renameWhens_eq_map, ← renameOption_eq_map]
  rfl

@[simp]
theorem rename_logic (op : LogicOp) :
    (logic s op left right).rename g = .logic s op (left.rename g) (right.rename g) := rfl

@[simp]
theorem rename_jump (kind : JumpKind) :
    (jump s kind body).rename g = .jump s kind (body.map (·.rename g)) := by
  rw [← renameOption_eq_map]
  rfl

@[simp]
theorem rename_assign :
    (assign s target value).rename g = .assign s (target.rename g) (value.rename g) := rfl

@[simp]
theorem rename_multi : (multi s ns ms).rename g =
    .multi s (ns.map (·.rename g)) (ms.map (·.rename g)) := by
  rw [← renameList_eq_map, ← renameList_eq_map]
  rfl

@[simp]
theorem rename_call (name : Symbol) (block : Option (Block Node)) :
    (call s body name ns block).rename g = .call s (body.map (·.rename g)) (g.name name)
      (ns.map (·.rename g)) (block.map (Block.map g.name (·.rename g))) := by
  cases block with
  | none =>
    rw [← renameOption_eq_map, ← renameList_eq_map]
    rfl
  | some b =>
    rw [← renameOption_eq_map, ← renameList_eq_map, Option.map_some, Block.map,
      ← renameOption_eq_map]
    rfl

@[simp]
theorem rename_isA (type : ConstPath) :
    (isA s n type).rename g = .isA s (n.rename g) (type.rename g) := rfl

@[simp]
theorem rename_define (kind : DefKind) (name : Symbol) (params : List (Param Node)) :
    (define s kind name params body).rename g = .define s kind (g.name name)
      (params.map (Param.map g.name (·.rename g))) (body.map (·.rename g)) := by
  rw [← renameParams_eq_map, ← renameOption_eq_map]
  rfl

@[simp]
theorem rename_interp : (interp s ns).rename g = .interp s (ns.map (·.rename g)) := by
  rw [← renameList_eq_map]
  rfl

@[simp]
theorem rename_range (exclusive : Bool) : (range s left right exclusive).rename g =
    .range s (left.rename g) (right.rename g) exclusive := rfl

@[simp]
theorem rename_regex (text : Symbol) : (regex s text).rename g = .regex s (g.text text) := rfl

@[simp]
theorem rename_array (type : Option ConstPath) : (array s ns type).rename g =
    .array s (ns.map (·.rename g)) (type.map (·.rename g)) := by
  rw [← renameList_eq_map]
  rfl

@[simp]
theorem rename_hash (entries : List (HashEntry Node)) (types : Option HashTypes) :
    (hash s entries types).rename g =
      .hash s (entries.map (HashEntry.map (·.rename g))) (types.map (·.rename g)) := by
  rw [← renameEntries_eq_map]
  rfl

@[simp]
theorem rename_require (path : Symbol) :
    (require s path).rename g = .require s (g.text path) := rfl

@[simp]
theorem span_rename (n : Node) : (n.rename g).span = n.span := by
  cases n <;> simp [span]

end Node

/-! ## Types -/

def TypeArg.rename : TypeArg → TypeArg
  | .named path => .named (path.rename g)
  | .merged nodes => .merged (nodes.map (·.rename g))

def GenericType.rename (t : GenericType) : GenericType := ⟨g.name t.base, t.args.map (·.rename g)⟩

section

variable {g} {type : TypeId → TypeId}

mutual
/-- Of the map of types it matters what it does to the types that the tree mentions. -/
theorem Node.rename_eq_iff : ∀ n : Node,
    n.rename { g with type } = n.rename g ↔ ∀ k ∈ n.generics, type k = g.type k
  | .atom s a => by cases a <;> simp [Node.generics, Atom.rename, ConstPath.rename]
  | .var s v => by simp [Node.generics, Var.rename]
  | .seq s stmts => by
    rw [Node.generics, ← renameList_eq_iff stmts, Node.rename, Node.rename]
    simp only [Node.seq.injEq, true_and]
  | .cond s form test body other => by
    simp only [Node.generics, List.forall_mem_append, ← Node.rename_eq_iff test,
      ← renameOption_eq_iff body, ← renameOption_eq_iff other]
    rw [Node.rename, Node.rename]
    simp only [Node.cond.injEq, true_and, and_assoc]
  | .loop s test body => by
    simp only [Node.generics, List.forall_mem_append, ← Node.rename_eq_iff test,
      ← renameOption_eq_iff body]
    rw [Node.rename, Node.rename]
    simp only [Node.loop.injEq, true_and]
  | .choose s subject whens other => by
    simp only [Node.generics, List.forall_mem_append, ← Node.rename_eq_iff subject,
      ← renameWhens_eq_iff whens, ← renameOption_eq_iff other]
    rw [Node.rename, Node.rename]
    simp only [Node.choose.injEq, true_and, and_assoc]
  | .logic s op left right => by
    simp only [Node.generics, List.forall_mem_append, ← Node.rename_eq_iff left,
      ← Node.rename_eq_iff right]
    rw [Node.rename, Node.rename]
    simp only [Node.logic.injEq, true_and]
  | .jump s kind value => by
    rw [Node.generics, ← renameOption_eq_iff value, Node.rename, Node.rename]
    simp only [Node.jump.injEq, true_and]
  | .assign s target value => by
    simp only [Node.generics, List.forall_mem_append, ← Node.rename_eq_iff target,
      ← Node.rename_eq_iff value]
    rw [Node.rename, Node.rename]
    simp only [Node.assign.injEq, true_and]
  | .multi s targets values => by
    simp only [Node.generics, List.forall_mem_append, ← renameList_eq_iff targets,
      ← renameList_eq_iff values]
    rw [Node.rename, Node.rename]
    simp only [Node.multi.injEq, true_and]
  | .call s receiver name args none => by
    simp only [Node.generics, List.forall_mem_append, ← renameOption_eq_iff receiver,
      ← renameList_eq_iff args]
    rw [Node.rename, Node.rename]
    simp only [Node.call.injEq, true_and, and_true]
  | .call s receiver name args (some ⟨params, body⟩) => by
    simp only [Node.generics, List.forall_mem_append, ← renameOption_eq_iff receiver,
      ← renameList_eq_iff args, ← renameOption_eq_iff body]
    rw [Node.rename, Node.rename]
    simp only [Node.call.injEq, true_and, Option.some.injEq, Block.mk.injEq, and_assoc]
  | .isA s subject type => by
    rw [Node.generics, ← Node.rename_eq_iff subject, Node.rename, Node.rename]
    simp only [Node.isA.injEq, ConstPath.rename, true_and, and_true]
  | .define s kind name params body => by
    simp only [Node.generics, List.forall_mem_append, ← renameParams_eq_iff params,
      ← renameOption_eq_iff body]
    rw [Node.rename, Node.rename]
    simp only [Node.define.injEq, true_and]
  | .interp s pieces => by
    rw [Node.generics, ← renameList_eq_iff pieces, Node.rename, Node.rename]
    simp only [Node.interp.injEq, true_and]
  | .range s first last exclusive => by
    simp only [Node.generics, List.forall_mem_append, ← Node.rename_eq_iff first,
      ← Node.rename_eq_iff last]
    rw [Node.rename, Node.rename]
    simp only [Node.range.injEq, true_and, and_true]
  | .regex s text | .require s text => by simp [Node.generics]
  | .array s elements type => by
    rw [Node.generics, ← renameList_eq_iff elements, Node.rename, Node.rename]
    simp only [Node.array.injEq, true_and, ConstPath.rename, and_true]
  | .hash s entries types => by
    rw [Node.generics, ← renameEntries_eq_iff entries, Node.rename, Node.rename]
    simp only [Node.hash.injEq, true_and, HashTypes.rename, ConstPath.rename, and_true]

theorem renameOption_eq_iff : ∀ n : Option Node,
    renameOption { g with type } n = renameOption g n ↔ ∀ k ∈ optionGenerics n, type k = g.type k
  | none => by simp [renameOption, optionGenerics]
  | some n => by simp [renameOption, optionGenerics, Node.rename_eq_iff n]

theorem renameList_eq_iff : ∀ ns : List Node,
    renameList { g with type } ns = renameList g ns ↔ ∀ k ∈ listGenerics ns, type k = g.type k
  | [] => by simp [renameList, listGenerics]
  | n :: ns => by
    simp only [renameList, listGenerics, List.cons.injEq, List.forall_mem_append,
      Node.rename_eq_iff n, renameList_eq_iff ns]

theorem renameWhens_eq_iff : ∀ ws : List (When Node),
    renameWhens { g with type } ws = renameWhens g ws ↔ ∀ k ∈ whenGenerics ws, type k = g.type k
  | [] => by simp [renameWhens, whenGenerics]
  | ⟨patterns, body⟩ :: ws => by
    simp only [renameWhens, whenGenerics, List.cons.injEq, When.mk.injEq, List.forall_mem_append,
      renameList_eq_iff patterns, renameOption_eq_iff body, renameWhens_eq_iff ws]

theorem renameParams_eq_iff : ∀ ps : List (Param Node),
    renameParams { g with type } ps = renameParams g ps ↔ ∀ k ∈ paramGenerics ps, type k = g.type k
  | [] => by simp [renameParams, paramGenerics]
  | ⟨name, default⟩ :: ps => by
    simp only [renameParams, paramGenerics, List.cons.injEq, Param.mk.injEq, true_and,
      List.forall_mem_append, renameOption_eq_iff default, renameParams_eq_iff ps]

theorem renameEntries_eq_iff : ∀ es : List (HashEntry Node),
    renameEntries { g with type } es = renameEntries g es ↔
      ∀ k ∈ entryGenerics es, type k = g.type k
  | [] => by simp [renameEntries, entryGenerics]
  | ⟨key, value⟩ :: es => by
    simp only [renameEntries, entryGenerics, List.cons.injEq, HashEntry.mk.injEq,
      List.forall_mem_append, Node.rename_eq_iff key, Node.rename_eq_iff value,
      renameEntries_eq_iff es]
end

theorem GenericType.rename_eq_iff (t : GenericType) : t.rename { g with type } = t.rename g ↔
    ∀ e ∈ t.exprs, ∀ k ∈ e.generics, type k = g.type k := by
  have hArg : ∀ arg : TypeArg, arg.rename { g with type } = arg.rename g ↔
      ∀ e ∈ (GenericType.mk t.base [arg]).exprs, ∀ k ∈ e.generics, type k = g.type k := by
    rintro (path | nodes)
    · simp [TypeArg.rename, ConstPath.rename, exprs]
    · simp [TypeArg.rename, exprs, Node.rename_eq_iff]
  obtain ⟨base, args⟩ := t
  simp only [rename, GenericType.mk.injEq, true_and, List.map_inj_left, hArg, exprs,
    List.mem_flatMap, List.mem_singleton, exists_eq_left]
  constructor
  · rintro h e ⟨arg, hMem, he⟩
    exact h arg hMem e he
  · exact fun h arg hMem e he => h e ⟨arg, hMem, he⟩

end

end CoreTree

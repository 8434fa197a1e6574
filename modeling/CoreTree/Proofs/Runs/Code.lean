import CoreTree.Proofs.Requires.MadeOf

/-! # One call of the normalizer

What the normalizer does with one tree, as code in which its calls of itself are left open: on
parts of the tree, on the simpler tree that sugar stands for, and on the tree of a required file.
Whoever runs the code decides what to make of a call, and what to keep of a run.
-/
namespace CoreTree
set_option autoImplicit false

/-- The program has more names, temporaries, constants or types, and the files are untouched. -/
structure Program.Extends (p q : Program) : Prop where
  requires : q.requires = p.requires
  loader : q.loader = p.loader
  searchPaths : q.searchPaths = p.searchPaths
  names : ∀ x text, p.names.text? x = some text → q.names.text? x = some text

/-- An action that only allocates always succeeds, and it neither sees nor changes the scope. -/
def Norm.Allocating {α : Type} (act : Norm α) : Prop :=
  ∀ p : Program, ∃ a q, p.Extends q ∧ ∀ scope, act.run ⟨p, scope⟩ = .ok a ⟨q, scope⟩

/-- What is kept of a run. -/
inductive Move where
  /-- A source write of a variable, with the version that it makes. -/
  | wrote (name : Symbol) (version : Nat)
  | bridged (bridges : List Bridge)
  | reached (scope : Scope)
  | boundParams (params : List Symbol)
  /-- A tree was normalized in a scope of its own, and this is its result unless it failed. -/
  | apart (source : Node) (moves : List Move) (result : Option Node)
  | load (file : Location)
  | splice (file : Location)

/-- A step that calls nothing. -/
inductive Act : Type → Type 1 where
  | getScope : Act Scope
  | setScope (scope : Scope) : Act Unit
  | write (v : Var) : Act Var
  | read (s : Span) (v : Var) : Act Var
  | noteBridges (bridges : List Bridge) : Act Unit
  | noteParams (params : List Symbol) : Act Unit
  | allocate {α : Type} (act : Norm α) (h : act.Allocating) : Act α

namespace Act

def run : {α : Type} → Act α → Norm α
  | _, .getScope => Norm.getScope
  | _, .setScope scope => Norm.setScope scope
  | _, .write v => Norm.writeVar v
  | _, .read s v => do
    match (← Norm.getScope).readVersion? v.name with
    | some version => return { v with version }
    | none => throw (.unbound ((← get).program.names.text v.name) s)
  | _, .noteBridges _ | _, .noteParams _ => return ()
  | _, .allocate act _ => act

def moves {α : Type} (a : Act α) (st : NormalState) : List Move :=
  match a with
  | .setScope scope => [.reached scope]
  | .write v => [.wrote v.name (st.scope.write v.name).1, .reached (st.scope.write v.name).2]
  | .noteBridges bridges => [.bridged bridges]
  | .noteParams params => [.boundParams params]
  | .getScope | .read .. | .allocate .. => []

theorem run_read (s : Span) (v : Var) (st : NormalState) :
    (read s v).run.run st = (st.scope.readVersion? v.name).elim
      (.error (.unbound (st.program.names.text v.name) s) st)
      (fun version => .ok { v with version } st) := by
  have hScope : Norm.getScope.run st = .ok st.scope st := rfl
  rw [run, EStateM.run_bind, hScope]
  dsimp only
  cases st.scope.readVersion? v.name <;> rfl

end Act

inductive Code : Type → Type 1 where
  | pure {α : Type} (a : α) : Code α
  | bind {α β : Type} (c : Code α) (f : α → Code β) : Code β
  | act {α : Type} (a : Act α) : Code α
  | transform (n : Node) : Code Outcome
  /-- The tree sees the parameters and nothing else. -/
  | apart (params : List Symbol) (n : Node) : Code Node
  | require (s : Span) (path : Symbol) : Code Node

/-! ## Allocation -/

namespace Program

variable {p q r : Program}

theorem Extends.refl (p : Program) : p.Extends p := ⟨rfl, rfl, rfl, fun _ _ h => h⟩

theorem Extends.trans (h : p.Extends q) (h' : q.Extends r) : p.Extends r where
  requires := h'.requires.trans h.requires
  loader := h'.loader.trans h.loader
  searchPaths := h'.searchPaths.trans h.searchPaths
  names x text hText := h'.names x text (h.names x text hText)

theorem extends_freshTemp (p : Program) : p.Extends p.freshTemp.2 :=
  ⟨rfl, rfl, rfl, fun _ _ h => SymbolTable.text?_intern_of_some h _⟩

theorem extends_regexConstant (p : Program) (text : Symbol) (s : Span) :
    p.Extends (p.regexConstant text s).2 := by
  unfold regexConstant
  split
  · exact .refl p
  · exact ⟨rfl, rfl, rfl, fun _ _ h => SymbolTable.text?_intern_of_some h _⟩

theorem extends_genericType (p : Program) (base : Symbol) (args : List TypeArg) :
    p.Extends (p.genericType base args).2 := ⟨rfl, rfl, rfl, fun _ _ h => h⟩

end Program

namespace Norm

theorem allocating_pure {α : Type} (a : α) : (pure a : Norm α).Allocating := fun p =>
  ⟨a, p, .refl p, fun _ => rfl⟩

theorem Allocating.bind {α β : Type} {act : Norm α} {f : α → Norm β} (h : act.Allocating)
    (hNext : ∀ a, (f a).Allocating) : (act >>= f).Allocating := by
  intro p
  obtain ⟨a, q, hFirst, hRun⟩ := h p
  obtain ⟨b, r, hSecond, hRest⟩ := hNext a q
  refine ⟨b, r, hFirst.trans hSecond, fun scope => ?_⟩
  rw [EStateM.run_bind, hRun scope]
  exact hRest scope

theorem allocating_onProgram {α : Type} {f : Program → α × Program}
    (h : ∀ p : Program, p.Extends (f p).2) : (onProgram f).Allocating := fun p =>
  ⟨(f p).1, (f p).2, h p, fun _ => rfl⟩

theorem allocating_freshTemp : freshTemp.Allocating :=
  allocating_onProgram Program.extends_freshTemp

theorem allocating_appendBridges (s : Span) (branch : Option Node) (bridges : List Bridge) :
    (appendBridges s branch bridges).Allocating := by
  unfold appendBridges
  split
  · exact allocating_pure _
  · simp only
    split
    · exact allocating_pure _
    · split
      · exact allocating_pure _
      · exact allocating_freshTemp.bind fun _ => allocating_pure _

theorem allocating_close (s : Span) (e : Option BranchEnd) (bridges : List Bridge) :
    (BranchEnd.close s e bridges).Allocating := by
  unfold BranchEnd.close
  split
  · exact allocating_appendBridges s _ _
  · split
    · exact allocating_pure _
    · exact allocating_appendBridges s _ _

end Norm

/-! ## What sugar stands for -/

namespace Node

def save (t : Symbol) (value : Node) : Node := .assign value.span (.temp value.span t) value

/-- `and` and `or` as a conditional, with the left side saved in `t` unless it may be evaluated
twice. -/
def logicAsCond (s : Span) (t : Symbol) : LogicOp → Node → Node → Node
  | .and, left, right =>
    if Pending.isRepeatable left then .cond s .whenTrue left (some right) (some left)
    else .cond s .whenTrue (left.save t) (some right) (some (.temp left.span t))
  | .or, left, right =>
    if left.plainVar?.isSome then .cond s .whenTrue left (some left) (some right)
    else .cond s .whenTrue (left.save t) (some (.temp left.span t)) (some right)

def matchTest (scrutinee pattern : Node) : Node := .send pattern.span pattern .caseEq [scrutinee]

def clauseTest (s : Span) (scrutinee : Node) : List Node → Node
  | [] => .bool s false
  | pattern :: patterns =>
    (patterns.map (matchTest scrutinee)).foldl
      (fun acc test => .logic (acc.span.merge test.span) .or acc test)
      (matchTest scrutinee pattern)

def clauses (s : Span) (scrutinee : Node) (whens : List (When Node)) (other : Option Node) :
    Option Node :=
  whens.foldr (fun w rest =>
    some (.cond s .whenTrue (clauseTest s scrutinee w.patterns) w.body rest)) other

def clauseChain (s : Span) (scrutinee : Node) (whens : List (When Node)) (other : Option Node) :
    Node :=
  (clauses s scrutinee whens other).getD (.nil s)

/-- `case` as a chain of conditionals, with the subject saved in `t` unless it is read without
effect. -/
def chooseAsChain (s : Span) (t : Symbol) (subject : Node) (whens : List (When Node))
    (other : Option Node) : Node :=
  if Pending.isScrutinee subject then clauseChain s subject whens other
  else .seq s [subject.save t, clauseChain s (.temp subject.span t) whens other]

def plainParams (params : List Symbol) : List (Param Node) := params.map (⟨·, none⟩)

def forwarders (s : Span) (kind : DefKind) (name : Symbol) (given : List Symbol) :
    List (Param Node) → List Node
  | [] => []
  | next :: params =>
    let args := given.map (fun param => .var s ⟨param, 0, false⟩) ++ [next.default.getD (.nil s)]
    .define s kind name (plainParams given) (some (.call s none name args none)) ::
      forwarders s kind name (given ++ [next.name]) params

/-- A definition with default values as one plain definition for each number of arguments. -/
def expandedDefine (s : Span) (kind : DefKind) (name : Symbol) (params : List (Param Node))
    (body : Option Node) : Node :=
  let required := params.takeWhile (·.default.isNone)
  .seq s (forwarders s kind name (required.map (·.name))
    (params.dropWhile (·.default.isNone)) ++
    [.define s kind name (plainParams (params.map (·.name))) body])

end Node

/-! ## Constructs -/

namespace Code

instance : Monad Code where
  pure := Code.pure
  bind := Code.bind

def getScope : Code Scope := .act .getScope

def setScope (scope : Scope) : Code Unit := .act (.setScope scope)

def noteBridges (bridges : List Bridge) : Code Unit := .act (.noteBridges bridges)

def noteParams (params : List Symbol) : Code Unit := .act (.noteParams params)

def freshTemp : Code Symbol := .act (.allocate Norm.freshTemp Norm.allocating_freshTemp)

def close (s : Span) (e : Option BranchEnd) (bridges : List Bridge) : Code (Option Node) :=
  .act (.allocate (BranchEnd.close s e bridges) (Norm.allocating_close s e bridges))

def useVar (s : Span) (v : Var) : Code Var :=
  if v.out then .act (.write v) else .act (.read s v)

def node (n : Node) : Code Node := return (← transform n).node

def optionNode : Option Node → Code (Option Node)
  | none => return none
  | some n => return some (← node n)

def nodes : List Node → Code (List Node)
  | [] => return []
  | n :: ns => do
    let m ← node n
    return m :: (← nodes ns)

def target : Node → Code Node
  | .var s v => return .var s (← .act (.write v))
  | n => node n

def targets : List Node → Code (List Node)
  | [] => return []
  | n :: ns => do
    let m ← target n
    return m :: (← targets ns)

def statements : List Node → Code (List Node × Bool)
  | [] => return ([], false)
  | n :: ns => do
    let o ← transform n
    if o.ends then return (o.node.statements, true)
    let (rest, ends) ← statements ns
    return (o.node.statements ++ rest, ends)

def runBranch (start : Scope) : Option Node → Code (Option BranchEnd)
  | none => return none
  | some n => do
    setScope start
    let o ← transform n
    return some ⟨o.node.toOption, ← getScope, o.ends⟩

def runBlock (s : Span) (b : Block Node) : Code (Block Node) := do
  let before ← getScope
  let (hidden, bound) := Scope.bindParams before b.params
  noteParams b.params
  setScope bound
  let bodyEnd ← runBranch bound b.body
  let now := Scope.unbindParams (← getScope) hidden
  let bridges := Scope.loopBridges before now
  noteBridges bridges
  setScope (Scope.rewindBlock now bridges)
  return ⟨b.params, ← close s bodyEnd bridges⟩

def optionBlock (s : Span) : Option (Block Node) → Code (Option (Block Node))
  | none => return none
  | some b => return some (← runBlock s b)

def entryNodes : List (HashEntry Node) → Code (List (HashEntry Node))
  | [] => return []
  | e :: entries => do
    let key ← node e.key
    let value ← node e.value
    return ⟨key, value⟩ :: (← entryNodes entries)

def optionApart (params : List Symbol) : Option Node → Code (Option Node)
  | none => return none
  | some n => return some (← apart params n)

def atom (s : Span) (a : Atom) : Code Outcome := return ⟨.atom s a, false⟩

def var (s : Span) (v : Var) : Code Outcome := return ⟨.var s (← useVar s v), false⟩

def seq (s : Span) (stmts : List Node) : Code Outcome := do
  let (nodes, ends) ← statements stmts
  return ⟨.ofStatements s nodes, ends⟩

def ifElse (s : Span) (test : Node) (onTrue onFalse : Option Node) : Code Outcome := do
  let test ← node test
  let before ← getScope
  let thenEnd ← runBranch before onTrue
  let elseStart := thenEnd.elim before fun e => Scope.elseStart before e.scope
  let elseEnd ← runBranch elseStart onFalse
  let join := Scope.joinBranches before (thenEnd.map (·.scope)) elseStart
    (elseEnd.map (·.scope))
  noteBridges (join.thenBridges ++ join.elseBridges)
  setScope join.scope
  let thenNode ← close s thenEnd join.thenBridges
  let elseNode ← close s elseEnd join.elseBridges
  let ends := thenEnd.any (·.ends) && elseEnd.any (·.ends)
  return ⟨.cond s .whenTrue test thenNode elseNode, ends⟩

def loop (s : Span) (test : Node) (body : Option Node) : Code Outcome := do
  let beforeTest ← getScope
  let test ← node test
  let entry ← getScope
  let bodyEnd ← runBranch entry body
  let now ← getScope
  let bodyBridges := Scope.loopBridges entry now
  let testBridges := (Scope.loopBridges beforeTest now).filter (!bodyBridges.contains ·)
  noteBridges (bodyBridges ++ testBridges)
  setScope (Scope.rewindLoop entry now)
  return ⟨.loop s test (BranchEnd.closeLoop s bodyEnd (bodyBridges ++ testBridges)), false⟩

def jump (s : Span) (kind : JumpKind) (value : Option Node) : Code Outcome :=
  return ⟨.jump s kind (← optionNode value), true⟩

def assign (s : Span) (target value : Node) : Code Outcome := do
  let value ← match target with
    | .atom _ (.const _) => apart [] value
    | _ => node value
  return ⟨.assign s (← Code.target target) value, false⟩

def multi (s : Span) (lefts values : List Node) : Code Outcome := do
  let values ← nodes values
  return ⟨.multi s (← targets lefts) values, false⟩

def call (s : Span) (receiver : Option Node) (name : Symbol) (args : List Node)
    (block : Option (Block Node)) : Code Outcome := do
  let receiver ← optionNode receiver
  let args ← nodes args
  let block ← optionBlock s block
  return ⟨.call s receiver name args block, false⟩

def isA (s : Span) (subject : Node) (type : ConstPath) : Code Outcome :=
  return ⟨.isA s (← node subject) type, false⟩

def definePlain (s : Span) (kind : DefKind) (name : Symbol) (params : List Symbol)
    (body : Option Node) : Code Outcome := do
  let body ← optionApart params body
  return ⟨.define s kind name (Node.plainParams params) (body.bind Node.toOption), false⟩

/-- A temporary is taken only if something has to be saved in it. -/
def unfolded (saves : Bool) (meaning : Symbol → Node) : Code Outcome :=
  if saves then do
    let t ← freshTemp
    transform (meaning t)
  else transform (meaning .empty)

def savesLeft : LogicOp → Node → Bool
  | .and, left => !Pending.isRepeatable left
  | .or, left => !left.plainVar?.isSome

def define (s : Span) (kind : DefKind) (name : Symbol) (params : List (Param Node))
    (body : Option Node) : Code Outcome :=
  if params.any (·.default.isSome) then transform (.expandedDefine s kind name params body)
  else definePlain s kind name (params.map (·.name)) body

def interp (s : Span) (pieces : List Node) : Code Outcome := do
  let builder := Node.send s (.globalConst s .stringBuilder) .newName []
  let filled := (← nodes pieces).foldl (fun acc piece => .send s acc .append [piece]) builder
  return ⟨.send s filled .toS [], false⟩

def range (s : Span) (first last : Node) (exclusive : Bool) : Code Outcome := do
  let first ← node first
  let last ← node last
  return ⟨.send s (.globalConst s .range) .newName [first, last, .bool s exclusive], false⟩

def genericType (base : Symbol) (args : List TypeArg) : Code TypeId :=
  .act (.allocate (Norm.onProgram (·.genericType base args))
    (Norm.allocating_onProgram fun p => p.extends_genericType base args))

def regex (s : Span) (text : Symbol) : Code Outcome := do
  let name ← .act (.allocate (Norm.onProgram (·.regexConstant text s))
    (Norm.allocating_onProgram fun p => p.extends_regexConstant text s))
  return ⟨.globalConst s name, false⟩

def array (s : Span) (elements : List Node) (type : Option ConstPath) : Code Outcome := do
  let elements ← nodes elements
  let id ← genericType .array [type.elim (.merged elements) .named]
  let generic := Node.atom s (.generic id)
  if type.isSome && elements.isEmpty then
    return ⟨.send s generic .newName [.int s 0], false⟩
  let t ← freshTemp
  return ⟨.seq s (Pending.arrayStatements s generic t elements), false⟩

def hash (s : Span) (entries : List (HashEntry Node)) (types : Option HashTypes) :
    Code Outcome := do
  let entries ← entryNodes entries
  let id ← genericType .hash (types.elim [.merged (entries.map (·.key)),
    .merged (entries.map (·.value))] fun t => [.named t.key, .named t.value])
  let empty := Node.send s (.atom s (.generic id)) .newName []
  if entries.isEmpty then return ⟨empty, false⟩
  let t ← freshTemp
  return ⟨.seq s (Pending.hashStatements s empty t entries), false⟩

end Code

def Node.code : Node → Code Outcome
  | .atom s a => .atom s a
  | .var s v => .var s v
  | .seq s stmts => .seq s stmts
  | .cond s .whenTrue test body other => .ifElse s test body other
  | .cond s .whenFalse test body other => .ifElse s test other body
  | .loop s test body => .loop s test body
  | .choose s subject whens other => .unfolded (!Pending.isScrutinee subject) fun t =>
    .chooseAsChain s t subject whens other
  | .logic s op left right => .unfolded (Code.savesLeft op left) fun t =>
    .logicAsCond s t op left right
  | .jump s kind value => .jump s kind value
  | .assign s target value => .assign s target value
  | .multi s targets values => .multi s targets values
  | .call s receiver name args block => .call s receiver name args block
  | .isA s subject type => .isA s subject type
  | .define s kind name params body => .define s kind name params body
  | .interp s pieces => .interp s pieces
  | .range s first last exclusive => .range s first last exclusive
  | .regex s text => .regex s text
  | .array s elements type => .array s elements type
  | .hash s entries types => .hash s entries types
  | .require s path => do return ⟨← .require s path, false⟩

end CoreTree

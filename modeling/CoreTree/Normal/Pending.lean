import CoreTree.Normal.Statements

/-! # Pending trees

A tree together with the action that normalizes it. A pending tree is built from pending
parts, constructor by constructor, so what a construct does is told in terms of its parts
alone, and sugar is a pending tree of simpler constructs. An action may be run more than
once or not at all: that is how a duplicated or dropped part behaves.
-/
namespace CoreTree
set_option autoImplicit false

structure Pending where
  source : Node
  run : Norm Outcome

namespace Pending

def span (p : Pending) : Span := p.source.span

def node (p : Pending) : Norm Node := return (← p.run).node

def optionNode : Option Pending → Norm (Option Node)
  | none => return none
  | some p => return some (← p.node)

def nodes : List Pending → Norm (List Node)
  | [] => return []
  | p :: ps => do
    let n ← p.node
    return n :: (← nodes ps)

/-- The tree as the target of a write. Anything but a variable is read as usual. -/
def target (p : Pending) : Norm Node :=
  match p.source with
  | .var s v => return .var s (← Norm.writeVar v)
  | _ => p.node

def targets : List Pending → Norm (List Node)
  | [] => return []
  | p :: ps => do
    let n ← p.target
    return n :: (← targets ps)

/-- Statements in order, up to the first one that ends, and whether there is one. -/
def statements : List Pending → Norm (List Node × Bool)
  | [] => return ([], false)
  | p :: ps => do
    let o ← p.run
    if o.ends then return (o.node.statements, true)
    let (rest, ends) ← statements ps
    return (o.node.statements ++ rest, ends)

def runBranch (start : Scope) : Option Pending → Norm (Option BranchEnd)
  | none => return none
  | some p => do
    Norm.setScope start
    let o ← p.run
    return some ⟨o.node.toOption, ← Norm.getScope, o.ends⟩

/-- A block body may run any number of times, so it starts and ends with the same versions.
Its parameters hide variables of the same name. -/
def runBlock (s : Span) (b : Block Pending) : Norm (Block Node) := do
  let before ← Norm.getScope
  let (hidden, bound) := Scope.bindParams before b.params
  Norm.setScope bound
  let bodyEnd ← runBranch bound b.body
  let now := Scope.unbindParams (← Norm.getScope) hidden
  let bridges := Scope.loopBridges before now
  Norm.setScope (Scope.rewindBlock now bridges)
  return ⟨b.params, ← BranchEnd.close s bodyEnd bridges⟩

def optionBlock (s : Span) : Option (Block Pending) → Norm (Option (Block Node))
  | none => return none
  | some b => return some (← runBlock s b)

def atom (s : Span) (a : Atom) : Pending where
  source := .atom s a
  run := return ⟨.atom s a, false⟩

def nil (s : Span) : Pending := atom s .nil

def temp (s : Span) (name : Symbol) : Pending := atom s (.temp name)

def var (s : Span) (v : Var) : Pending where
  source := .var s v
  run := return ⟨.var s (← Norm.useVar s v), false⟩

def seq (s : Span) (stmts : List Pending) : Pending where
  source := .seq s (stmts.map source)
  run := do
    let (nodes, ends) ← statements stmts
    return ⟨.ofStatements s nodes, ends⟩

/-- `unless` is `if` with its parts swapped. -/
def cond (s : Span) (form : CondForm) (test : Pending) (body other : Option Pending) :
    Pending where
  source := .cond s form test.source (body.map source) (other.map source)
  run := do
    let (onTrue, onFalse) := match form with
      | .whenTrue => (body, other)
      | .whenFalse => (other, body)
    let test ← test.node
    let before ← Norm.getScope
    let thenEnd ← runBranch before onTrue
    let elseStart := thenEnd.elim before fun e => Scope.elseStart before e.scope
    let elseEnd ← runBranch elseStart onFalse
    let join := Scope.joinBranches before (thenEnd.map (·.scope)) elseStart
      (elseEnd.map (·.scope))
    Norm.setScope join.scope
    let thenNode ← BranchEnd.close s thenEnd join.thenBridges
    let elseNode ← BranchEnd.close s elseEnd join.elseBridges
    let ends := thenEnd.any (·.ends) && elseEnd.any (·.ends)
    return ⟨.cond s .whenTrue test thenNode elseNode, ends⟩

/-- The versions that a loop's test reads are those that its body leaves behind, and what
stands after the loop reads those that the test leaves behind. -/
def loop (s : Span) (test : Pending) (body : Option Pending) : Pending where
  source := .loop s test.source (body.map source)
  run := do
    let beforeTest ← Norm.getScope
    let test ← test.node
    let entry ← Norm.getScope
    let bodyEnd ← runBranch entry body
    let now ← Norm.getScope
    let bodyBridges := Scope.loopBridges entry now
    let testBridges := (Scope.loopBridges beforeTest now).filter (!bodyBridges.contains ·)
    Norm.setScope (Scope.rewindLoop entry now)
    return ⟨.loop s test (BranchEnd.closeLoop s bodyEnd (bodyBridges ++ testBridges)), false⟩

def jump (s : Span) (kind : JumpKind) (value : Option Pending) : Pending where
  source := .jump s kind (value.map source)
  run := return ⟨.jump s kind (← optionNode value), true⟩

/-- The value comes before the target is written, so `x = x + 1` reads the old `x`. The
initializer of a constant sees no variables. -/
def assign (s : Span) (target value : Pending) : Pending where
  source := .assign s target.source value.source
  run := do
    let value ← match target.source with
      | .atom _ (.const _) => Norm.inScope .empty value.node
      | _ => value.node
    return ⟨.assign s (← target.target) value, false⟩

def multi (s : Span) (lefts values : List Pending) : Pending where
  source := .multi s (lefts.map source) (values.map source)
  run := do
    let values ← nodes values
    return ⟨.multi s (← targets lefts) values, false⟩

def call (s : Span) (receiver : Option Pending) (name : Symbol) (args : List Pending)
    (block : Option (Block Pending)) : Pending where
  source := .call s (receiver.map source) name (args.map source)
    (block.map fun b => ⟨b.params, b.body.map source⟩)
  run := do
    let receiver ← optionNode receiver
    let args ← nodes args
    let block ← optionBlock s block
    return ⟨.call s receiver name args block, false⟩

def isA (s : Span) (subject : Pending) (type : ConstPath) : Pending where
  source := .isA s subject.source type
  run := return ⟨.isA s (← subject.node) type, false⟩

/-- A definition without default values. Its body sees its parameters only. -/
def definePlain (s : Span) (kind : DefKind) (name : Symbol) (params : List Symbol)
    (body : Option Pending) : Pending where
  source := .define s kind name (params.map (⟨·, none⟩)) (body.map source)
  run := do
    let body ← Norm.inScope (Scope.ofParams params) (optionNode body)
    return ⟨.define s kind name (params.map (⟨·, none⟩)) (body.bind Node.toOption), false⟩

end Pending

end CoreTree

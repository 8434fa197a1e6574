import CoreTree.Normal.Monad
import CoreTree.Scope.Join

/-! # Statements

Sequences of normalized trees: flattened, without empty parts, and never of one statement.
Bridges go to the end of a branch or body. Where the value of a branch is used, it is kept
behind the bridges: directly if no bridge can change it, and else through a temporary.
-/
namespace CoreTree
set_option autoImplicit false

namespace Node

def statements : Node → List Node
  | .atom _ .nop => []
  | .seq _ stmts => stmts
  | n => [n]

def ofStatements (s : Span) : List Node → Node
  | [] => .nop s
  | [n] => n
  | stmts => .seq s stmts

end Node

def branchStatements (branch : Option Node) : List Node := branch.elim [] Node.statements

/-- Appends bridges to a branch whose value is used; an absent branch has the value `nil`. -/
def appendBridges (s : Span) (branch : Option Node) (bridges : List Bridge) :
    Norm (Option Node) := do
  if bridges.isEmpty then return branch
  let stmts := branchStatements branch
  let assigns := bridges.map (·.node s)
  match stmts.getLast? with
  | none => return some (.seq s (assigns ++ [.nil s]))
  | some last =>
    if last.isPure then return some (.seq s (stmts.dropLast ++ assigns ++ [last]))
    let t ← Norm.freshTemp
    let saved := Node.assign last.span (.temp last.span t) last
    return some (.seq s (stmts.dropLast ++ [saved] ++ assigns ++ [.temp last.span t]))

/-- Appends bridges to a body whose value is not used. -/
def appendLoopBridges (s : Span) (body : Option Node) (bridges : List Bridge) : Option Node :=
  if bridges.isEmpty then body
  else some (.ofStatements s (branchStatements body ++ bridges.map (·.node s)))

/-- A branch that ran: what is left of it, the scope at its end, and whether it ends. -/
structure BranchEnd where
  node : Option Node
  scope : Scope
  ends : Bool

namespace BranchEnd

/-- Bridges a branch whose value is used. Nothing follows a branch that ends. -/
def close (s : Span) (branch : Option BranchEnd) (bridges : List Bridge) : Norm (Option Node) :=
  match branch with
  | none => appendBridges s none bridges
  | some b => if b.ends then return b.node else appendBridges s b.node bridges

def closeLoop (s : Span) (branch : Option BranchEnd) (bridges : List Bridge) : Option Node :=
  match branch with
  | none => appendLoopBridges s none bridges
  | some b => if b.ends then b.node else appendLoopBridges s b.node bridges

end BranchEnd

end CoreTree

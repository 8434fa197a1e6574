import CoreTree.Program
import CoreTree.Scope.Basic
import CoreTree.Tree.Query

/-! # Normalizing actions

An action works on the program and on the scope of the code it stands in, and may fail. What
it did to the program before it failed stays done.
-/
namespace CoreTree
set_option autoImplicit false

/-- A read of an unknown variable is a fault of an earlier stage; a require that cannot be
answered is the user's. -/
inductive NormalizeError where
  | unbound (name : String) (span : Span)
  | require (e : RequireError)
deriving DecidableEq

namespace NormalizeError

def message : NormalizeError → String
  | .unbound name span =>
    "internal compiler error: read of '" ++ name ++ "' at " ++ span.text ++
      " has no visible version"
  | .require e => e.message

def isInternal : NormalizeError → Bool
  | .unbound .. => true
  | .require _ => false

end NormalizeError

structure NormalState where
  program : Program
  scope : Scope

abbrev Norm := EStateM NormalizeError NormalState

/-- A normalized tree. `ends` tells that control never reaches what stands after it. -/
structure Outcome where
  node : Node
  ends : Bool

namespace Norm

def onProgram {α : Type} (f : Program → α × Program) : Norm α :=
  modifyGet fun s =>
    let (a, program) := f s.program
    (a, { s with program })

def freshTemp : Norm Symbol := onProgram Program.freshTemp

def getScope : Norm Scope := return (← get).scope

def setScope (scope : Scope) : Norm Unit := modify fun s => { s with scope }

def inScope {α : Type} (scope : Scope) (act : Norm α) : Norm α := do
  let outer ← getScope
  setScope scope
  let a ← act
  setScope outer
  return a

/-- The variable as a write makes it: with the version after its last one. -/
def writeVar (v : Var) : Norm Var := do
  let (version, scope) := (← getScope).write v.name
  setScope scope
  return { v with version }

/-- The variable with the version that reaches this point. An `out` variable counts as
written. -/
def useVar (span : Span) (v : Var) : Norm Var := do
  if v.out then writeVar v
  else match (← getScope).readVersion? v.name with
    | some version => return { v with version }
    | none => throw (.unbound ((← get).program.names.text v.name) span)

end Norm

end CoreTree

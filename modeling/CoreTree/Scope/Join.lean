import CoreTree.Scope.Basic
import CoreTree.Tree.Basic

/-! # Joins

Where two paths meet again, every variable has to go by one version, whichever path was
taken. A path that ends with another version copies it over by a bridge, an assignment at
its end. The end of a loop body or block body likewise meets the beginning of the next run.
-/
namespace CoreTree
set_option autoImplicit false

/-- The assignment of one version of a variable to another, or of `nil` where no version
reaches the path. -/
structure Bridge where
  name : Symbol
  target : Nat
  source : Option Nat
deriving DecidableEq

namespace Bridge

/-- No bridge is needed from a version to itself. -/
def between? (name : Symbol) (target : Nat) (source : Option Nat) : Option Bridge :=
  if source = some target then none else some ⟨name, target, source⟩

theorem between?_eq_some_iff {name : Symbol} {target : Nat} {source : Option Nat} {b : Bridge} :
    between? name target source = some b ↔ source ≠ some target ∧ b = ⟨name, target, source⟩ := by
  unfold between?
  split <;> simp_all [eq_comm]

def node (b : Bridge) (s : Span) : Node :=
  .assign s (.var s ⟨b.name, b.target, false⟩) (match b.source with
    | some version => .var s ⟨b.name, version, false⟩
    | none => .nil s)

end Bridge

/-- How one variable fares where the branches of a conditional meet. It has no `versions` if
it keeps those of the branch that was listed. -/
structure VariableJoin where
  versions : Option Versions := none
  thenBridge : Option Bridge := none
  elseBridge : Option Bridge := none

namespace VariableJoin

/-- One branch wrote the variable and the other did not: the version of the first wins, and
the second copies its own to it. -/
def oneSided (name : Symbol) (written : Versions) (other : Option Versions)
    (otherRead : Option Nat) : Option Versions × Option Bridge :=
  match written.read with
  | none => (some written, none)
  | some version =>
    (some ⟨some version, other.elim written.write fun v => max written.write v.write⟩,
      Bridge.between? name version otherRead)

/-- Both branches wrote the variable: both copy their own version to a new one. -/
def twoSided (name : Symbol) (thenEnd elseEnd : Versions) : VariableJoin :=
  let version := max thenEnd.write elseEnd.write
  { versions := some ⟨some version, version + 1⟩
    thenBridge := Bridge.between? name version thenEnd.read
    elseBridge := Bridge.between? name version elseEnd.read }

/-- Each branch is given by a variable's entry at its start and at its end, and wrote the
variable if the two differ. -/
def of (name : Symbol) (thenStart thenEnd elseStart elseEnd : Option Versions) : VariableJoin :=
  if thenEnd = thenStart then
    match elseEnd with
    | some written =>
      if elseEnd = elseStart then {} else
        let (versions, thenBridge) := oneSided name written thenEnd (thenEnd.bind (·.read))
        { versions, thenBridge }
    | none => {}
  else
    match thenEnd with
    | some written =>
      if elseEnd = elseStart then
        let (versions, elseBridge) := oneSided name written elseEnd (elseStart.bind (·.read))
        { versions, elseBridge }
      else elseEnd.elim {} (twoSided name written)
    | none => {}

/-- All that a join can be, by what the branches did. Nothing is decided if a branch has lost the
variable. -/
inductive Arises (name : Symbol) (thenStart thenEnd elseStart elseEnd : Option Versions) :
    VariableJoin → Prop where
  | neither (hThen : thenEnd = thenStart) (hElse : elseEnd = elseStart) :
    Arises name thenStart thenEnd elseStart elseEnd {}
  | lostThen (hThen : thenEnd ≠ thenStart) (hEnd : thenEnd = none) :
    Arises name thenStart thenEnd elseStart elseEnd {}
  | lostElse (hElse : elseEnd ≠ elseStart) (hEnd : elseEnd = none) :
    Arises name thenStart thenEnd elseStart elseEnd {}
  | onlyElse {written : Versions} (hThen : thenEnd = thenStart) (hElse : elseEnd ≠ elseStart)
    (hEnd : elseEnd = some written) : Arises name thenStart thenEnd elseStart elseEnd
      { versions := (oneSided name written thenEnd (thenEnd.bind (·.read))).1
        thenBridge := (oneSided name written thenEnd (thenEnd.bind (·.read))).2 }
  | onlyThen {written : Versions} (hThen : thenEnd ≠ thenStart) (hElse : elseEnd = elseStart)
    (hEnd : thenEnd = some written) : Arises name thenStart thenEnd elseStart elseEnd
      { versions := (oneSided name written elseEnd (elseStart.bind (·.read))).1
        elseBridge := (oneSided name written elseEnd (elseStart.bind (·.read))).2 }
  | both {written written' : Versions} (hThen : thenEnd ≠ thenStart) (hElse : elseEnd ≠ elseStart)
    (hThenEnd : thenEnd = some written) (hElseEnd : elseEnd = some written') :
    Arises name thenStart thenEnd elseStart elseEnd (twoSided name written written')

theorem arises_of (name : Symbol) (thenStart thenEnd elseStart elseEnd : Option Versions) :
    Arises name thenStart thenEnd elseStart elseEnd
      (of name thenStart thenEnd elseStart elseEnd) := by
  unfold of
  split
  · rename_i hThen
    cases elseEnd with
    | none =>
      by_cases hElse : none = elseStart
      · exact .neither hThen hElse
      · exact .lostElse hElse rfl
    | some written =>
      dsimp only
      split
      · rename_i hElse
        exact .neither hThen hElse
      · rename_i hElse
        exact .onlyElse hThen hElse rfl
  · rename_i hThen
    cases thenEnd with
    | none => exact .lostThen hThen rfl
    | some written =>
      dsimp only
      split
      · rename_i hElse
        exact .onlyThen hThen hElse rfl
      · rename_i hElse
        cases elseEnd with
        | none => exact .lostElse hElse rfl
        | some written' => exact .both hThen hElse rfl rfl

end VariableJoin

structure BranchJoin where
  thenBridges : List Bridge
  elseBridges : List Bridge
  scope : Scope

namespace Scope

/-- Joins the branches of a conditional. A branch that is absent has no scope at its end. -/
def joinBranches (before : Scope) (thenEnd : Option Scope) (elseStart : Scope)
    (elseEnd : Option Scope) : BranchJoin :=
  let known := (before.overlay (thenEnd.getD .empty)).overlay (elseEnd.getD .empty)
  let joins := known.keys.map fun name =>
    let thenStart := before.get? name
    let otherStart := if elseEnd.isSome then elseStart.get? name else thenStart
    (name, VariableJoin.of name thenStart (thenEnd.elim thenStart (·.get? name)) otherStart
      (elseEnd.elim otherStart (·.get? name)))
  { thenBridges := joins.filterMap (·.2.thenBridge)
    elseBridges := joins.filterMap (·.2.elseBridge)
    scope := joins.foldl
      (fun scope (name, join) => join.versions.elim scope (scope.insert name))
      ((thenEnd <|> elseEnd).getD before) }

/-- The bridges from the end of a body that may run again back to the versions it started
with: those of the variables that now read a later version. -/
def loopBridges (entry now : Scope) : List Bridge :=
  now.entries.filterMap fun (name, current) =>
    match (entry.get? name).bind (·.read), current.read with
    | some target, some source =>
      if target < source then some ⟨name, target, some source⟩ else none
    | _, _ => none

/-- After a loop a variable reads as it did on entry, and writes past all of the loop. -/
def rewindLoop (entry now : Scope) : Scope :=
  now.map fun name current => (entry.get? name).elim current fun v => ⟨v.read, current.write⟩

/-- After a block, the variables that were bridged read as they did on entry. -/
def rewindBlock (now : Scope) (bridges : List Bridge) : Scope :=
  now.map fun name current =>
    (bridges.find? (·.name == name)).elim current fun b => ⟨some b.target, current.write⟩

end Scope

end CoreTree

import CoreTree.Tree.Basic

/-! # Questions about one node

Each looks at the outermost construct only, and at its direct part where the answer needs it.
-/
namespace CoreTree
set_option autoImplicit false

namespace Node

def isNop : Node → Bool
  | .atom _ .nop => true
  | _ => false

def isJump : Node → Bool
  | .jump .. => true
  | _ => false

/-- The variable that this node reads, if it is nothing but a read. -/
def plainVar? : Node → Option Var
  | .var _ v => if v.out then none else some v
  | _ => none

/-- Evaluating the node does nothing and reads nothing that an assignment to another version
could change, so it may be moved past such assignments. -/
def isPure : Node → Bool
  | .var .. => true
  | .atom _ (.field _) | .atom _ .nop => false
  | .atom .. => true
  | _ => false

/-- An empty result counts as no tree at all. -/
def toOption (n : Node) : Option Node := if n.isNop then none else some n

/-- Whether a definition has a parameter with a default value; `none` for anything else. -/
def hasDefaults? : Node → Option Bool
  | .define _ _ _ params _ => some (params.any (·.default.isSome))
  | _ => none

theorem isNop_iff (n : Node) : n.isNop = true ↔ ∃ s, n = .nop s := by
  constructor
  · intro h
    unfold isNop at h
    split at h
    · exact ⟨_, rfl⟩
    · cases h
  · rintro ⟨s, rfl⟩
    rfl

theorem toOption_eq_some_iff (n m : Node) : n.toOption = some m ↔ n = m ∧ n.isNop = false := by
  cases h : n.isNop <;> simp [toOption, h]

theorem plainVar?_eq_some_iff (n : Node) (v : Var) :
    n.plainVar? = some v ↔ (∃ s, n = .var s v) ∧ v.out = false := by
  cases n <;> simp only [plainVar?, reduceCtorEq, exists_const, false_and, Node.var.injEq]
  rename_i w
  constructor
  · intro h
    split at h
    · cases h
    · cases h
      simp_all
  · rintro ⟨⟨_, _, rfl⟩, h⟩
    simp [h]

end Node

end CoreTree

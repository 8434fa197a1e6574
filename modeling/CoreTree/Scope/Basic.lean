import CoreTree.SymbolMap

/-! # Scopes

A scope knows each local variable by two versions: the one that the next read sees, and the
one that the next write makes. A variable may be known although no version of it reaches the
current path; a read then names version 0.
-/
namespace CoreTree
set_option autoImplicit false

structure Versions where
  read : Option Nat
  write : Nat
deriving DecidableEq

namespace Versions

/-- After the first write of a variable, or for a parameter. -/
def fresh : Versions := ⟨some 0, 1⟩

def advanced (v : Versions) : Versions := ⟨some v.write, v.write + 1⟩

end Versions

abbrev Scope := SymbolMap Versions

namespace Scope

def ofParams (params : List Symbol) : Scope :=
  params.foldl (fun s param => s.insert param .fresh) .empty

/-- The versions after a write of a variable, and the version written. -/
def write (s : Scope) (name : Symbol) : Nat × Scope :=
  match s.get? name with
  | some v => (v.write, s.insert name v.advanced)
  | none => (0, s.insert name .fresh)

/-- The version a read of a variable names, if the scope knows the variable. -/
def readVersion? (s : Scope) (name : Symbol) : Option Nat :=
  (s.get? name).map fun v => v.read.getD 0

/-- Where an else branch starts: every variable reads as it did before the conditional, and
writes past what the then branch wrote, so the two branches share no version. -/
def elseStart (before afterThen : Scope) : Scope :=
  afterThen.map fun name v => ⟨(before.get? name).bind (·.read), v.write⟩

/-- Makes each parameter fresh, and returns with it what it hides. -/
def bindParams (s : Scope) : List Symbol → List (Symbol × Option Versions) × Scope
  | [] => ([], s)
  | param :: params =>
    let (hidden, bound) := bindParams (s.insert param .fresh) params
    ((param, s.get? param) :: hidden, bound)

/-- Puts back what parameters hid, the last one first. -/
def unbindParams (s : Scope) (hidden : List (Symbol × Option Versions)) : Scope :=
  hidden.foldr (fun h s => match h.2 with
    | some v => s.insert h.1 v
    | none => s.erase h.1) s

theorem readVersion?_eq_none_iff (s : Scope) (name : Symbol) :
    s.readVersion? name = none ↔ s.get? name = none := by
  simp [readVersion?]

theorem get?_elseStart (before afterThen : Scope) (name : Symbol) :
    (elseStart before afterThen).get? name = (afterThen.get? name).map fun v =>
      ⟨(before.get? name).bind (·.read), v.write⟩ :=
  SymbolMap.get?_map afterThen _ name

theorem get?_write (s : Scope) (name other : Symbol) :
    (s.write name).2.get? other =
      if other = name then some (((s.get? name).map Versions.advanced).getD .fresh)
      else s.get? other := by
  unfold write
  split <;> rename_i h <;> simp [h]

end Scope

end CoreTree

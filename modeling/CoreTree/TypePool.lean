import CoreTree.Tree.Equality

/-! # Generic types

The collection types that literals build: a base name and arguments, each either a path or
the common type of some expressions. A pool keeps each type once and numbers the types in
the order in which they first came. Two types are one only if they are equal as trees,
spans included.
-/
namespace CoreTree
set_option autoImplicit false

/-- The expressions of `merged` stand for their common type and are never evaluated. -/
inductive TypeArg where
  | named (path : ConstPath)
  | merged (nodes : List Node)
deriving DecidableEq

structure GenericType where
  base : Symbol
  args : List TypeArg
deriving DecidableEq

namespace GenericType

def exprs (t : GenericType) : List Node :=
  t.args.flatMap fun
    | .named _ => []
    | .merged nodes => nodes

section

variable {P : Node → Prop}

theorem forall_exprs_array {ns : List Node} (type : Option ConstPath) (h : ∀ n ∈ ns, P n) :
    ∀ e ∈ (mk .array [type.elim (.merged ns) .named]).exprs, P e := by
  cases type with
  | none => simpa [exprs] using h
  | some path => simp [exprs]

theorem forall_exprs_hash {entries : List (HashEntry Node)} (types : Option HashTypes)
    (h : ∀ e ∈ entries, P e.key ∧ P e.value) :
    ∀ e ∈ (mk .hash (types.elim [.merged (entries.map (·.key)), .merged (entries.map (·.value))]
      fun t => [.named t.key, .named t.value])).exprs, P e := by
  cases types with
  | none =>
    intro e he
    have hMem : (∃ a ∈ entries, a.key = e) ∨ ∃ a ∈ entries, a.value = e := by
      simpa [exprs] using he
    obtain ⟨a, ha, rfl⟩ | ⟨a, ha, rfl⟩ := hMem
    · exact (h a ha).1
    · exact (h a ha).2
  | some t => simp [exprs]

end

end GenericType

structure TypePool where
  types : List GenericType

namespace TypePool

def empty : TypePool := ⟨[]⟩

def size (p : TypePool) : Nat := p.types.length

def isEmpty (p : TypePool) : Bool := p.types.isEmpty

def get? (p : TypePool) (id : TypeId) : Option GenericType := p.types[id.index]?

def idOf? (p : TypePool) (t : GenericType) : Option TypeId := (p.types.idxOf? t).map TypeId.mk

/-- The number of a type, which is added at the end if it is new. -/
def intern (p : TypePool) (t : GenericType) : TypeId × TypePool :=
  match p.idOf? t with
  | some id => (id, p)
  | none => (⟨p.size⟩, ⟨p.types ++ [t]⟩)

theorem get?_of_idOf? {p : TypePool} {t : GenericType} {id : TypeId} (h : p.idOf? t = some id) :
    p.get? id = some t := by
  obtain ⟨i, hIndex, rfl⟩ := Option.map_eq_some_iff.mp h
  obtain ⟨hLt, hEq, _⟩ := List.idxOf?_eq_some_iff.mp hIndex
  simp [get?, List.getElem?_eq_getElem hLt, hEq]

theorem get?_intern (p : TypePool) (t : GenericType) :
    (p.intern t).2.get? (p.intern t).1 = some t := by
  unfold intern
  split
  · rename_i h
    exact get?_of_idOf? h
  · simp [get?, size]

end TypePool

end CoreTree

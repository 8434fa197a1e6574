import CoreTree.Tree.Basic
import Mathlib.Data.Set.Basic

/-! # Trees whose meaning is preserved

Every construct that has a meaning is in, under three conditions: the variables that a tree
mentions are known, `return` is the only jump, and no sequence is empty. Whether loops and
blocks are in as well is left open.
-/
namespace CoreTree
set_option autoImplicit false

/-- What a tree may use beside branches. -/
structure Fragment where
  loops : Bool
  blocks : Bool

/-- Not for the normalizer to make. -/
def Atom.IsSource : Atom → Prop
  | .nop | .temp _ => False
  | _ => True

/-- A local variable that is known, or an instance variable. -/
def Node.IsPlace (X : Set Symbol) : Node → Prop
  | .var _ v => v.out = false ∧ v.name ∈ X
  | .atom _ (.field _) => True
  | _ => False

mutual
/-- A tree of the fragment whose local variables are in `X`, or are parameters of a block that
they stand in. No parameter hides another variable. -/
def Node.Within (F : Fragment) (X : Set Symbol) : Node → Prop
  | .atom _ a => a.IsSource
  | .var _ v => v.out = false ∧ v.name ∈ X
  | .seq _ stmts => stmts ≠ [] ∧ listWithin F X stmts
  | .cond _ _ test body other => test.Within F X ∧ optionWithin F X body ∧ optionWithin F X other
  | .loop _ test body => F.loops = true ∧ test.Within F X ∧ optionWithin F X body
  | .choose _ subject whens other =>
    subject.Within F X ∧ whensWithin F X whens ∧ optionWithin F X other
  | .logic _ _ left right => left.Within F X ∧ right.Within F X
  | .jump _ kind value => kind = .ret ∧ optionWithin F X value
  | .assign _ target value => target.IsPlace X ∧ value.Within F X
  | .multi _ targets values =>
    (∀ t ∈ targets, t.IsPlace X) ∧ targets.length = values.length ∧ listWithin F X values
  | .call _ receiver _ args none => optionWithin F X receiver ∧ listWithin F X args
  | .call _ receiver _ args (some ⟨params, body⟩) =>
    optionWithin F X receiver ∧ listWithin F X args ∧ F.blocks = true ∧ (∀ p ∈ params, p ∉ X) ∧
      optionWithin F {x | x ∈ params ∨ x ∈ X} body
  | .isA _ subject _ => subject.Within F X
  | .define .. | .interp .. | .range .. | .regex .. | .array .. | .hash .. | .require .. => False
termination_by structural n => n

def optionWithin (F : Fragment) (X : Set Symbol) : Option Node → Prop
  | none => True
  | some n => n.Within F X
termination_by structural n => n

def listWithin (F : Fragment) (X : Set Symbol) : List Node → Prop
  | [] => True
  | n :: ns => n.Within F X ∧ listWithin F X ns
termination_by structural n => n

def whensWithin (F : Fragment) (X : Set Symbol) : List (When Node) → Prop
  | [] => True
  | ⟨patterns, body⟩ :: whens =>
    listWithin F X patterns ∧ optionWithin F X body ∧ whensWithin F X whens
termination_by structural n => n
end

namespace Fragment

def branches : Fragment := ⟨false, false⟩

def withLoops : Fragment := ⟨true, false⟩

def withBlocks : Fragment := ⟨true, true⟩

end Fragment

end CoreTree

import CoreTree.TypePool

/-! # Types that a tree mentions

The generic types of a tree in the order in which they are read. A pool can spell a tree out
if it holds these types, the types that they mention in turn, and so on.
-/
namespace CoreTree
set_option autoImplicit false

mutual
/-- The generic types of a tree in reading order, with repetitions. -/
def Node.generics : Node → List TypeId
  | .atom _ (.generic type) => [type]
  | .atom .. | .var .. | .regex .. | .require .. => []
  | .seq _ stmts => listGenerics stmts
  | .cond _ _ test body other => test.generics ++ optionGenerics body ++ optionGenerics other
  | .loop _ test body => test.generics ++ optionGenerics body
  | .choose _ subject whens other =>
    subject.generics ++ whenGenerics whens ++ optionGenerics other
  | .logic _ _ left right => left.generics ++ right.generics
  | .jump _ _ value => optionGenerics value
  | .assign _ target value => target.generics ++ value.generics
  | .multi _ targets values => listGenerics targets ++ listGenerics values
  | .call _ receiver _ args none => optionGenerics receiver ++ listGenerics args
  | .call _ receiver _ args (some ⟨_, body⟩) =>
    optionGenerics receiver ++ listGenerics args ++ optionGenerics body
  | .isA _ subject _ => subject.generics
  | .define _ _ _ params body => paramGenerics params ++ optionGenerics body
  | .interp _ pieces => listGenerics pieces
  | .range _ first last _ => first.generics ++ last.generics
  | .array _ elements _ => listGenerics elements
  | .hash _ entries _ => entryGenerics entries
termination_by structural n => n

def optionGenerics : Option Node → List TypeId
  | none => []
  | some n => n.generics
termination_by structural n => n

def listGenerics : List Node → List TypeId
  | [] => []
  | n :: ns => n.generics ++ listGenerics ns
termination_by structural n => n

def whenGenerics : List (When Node) → List TypeId
  | [] => []
  | ⟨patterns, body⟩ :: whens =>
    listGenerics patterns ++ optionGenerics body ++ whenGenerics whens
termination_by structural n => n

def paramGenerics : List (Param Node) → List TypeId
  | [] => []
  | ⟨_, default⟩ :: params => optionGenerics default ++ paramGenerics params
termination_by structural n => n

def entryGenerics : List (HashEntry Node) → List TypeId
  | [] => []
  | ⟨key, value⟩ :: entries => key.generics ++ value.generics ++ entryGenerics entries
termination_by structural n => n
end

namespace TypePool

/-- The first type that is missing when types are spelled out, looking `depth` types deep. -/
def missing? (p : TypePool) : Nat → List TypeId → Option TypeId
  | 0, _ => none
  | depth + 1, ids => ids.findSome? fun id =>
    match p.get? id with
    | none => some id
    | some t => p.missing? depth (listGenerics t.exprs)

end TypePool

end CoreTree

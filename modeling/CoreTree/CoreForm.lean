import CoreTree.TypePool

/-! # Core form

A tree is in core form if it holds no sugar and no default value, and if every sequence in
it has two statements or more, none of which is empty or itself a sequence. The check
reports the first fault it meets: a node before its parts, parts in reading order.
-/
namespace CoreTree
set_option autoImplicit false

inductive CoreFault where
  | sugar (span : Span)
  | shortSequence (span : Span) (count : Nat)
  | nestedSequence (span : Span)
  | defaults (span : Span)
deriving DecidableEq

def CoreFault.message : CoreFault → String
  | .sugar s => s!"sugar survived normalization at {s.text}"
  | .shortSequence s n => s!"sequence at {s.text} has {n} statements"
  | .nestedSequence s => s!"nested sequence or nop at {s.text}"
  | .defaults s => s!"definition at {s.text} kept default parameters"

namespace Node

/-- Empty trees and sequences do not stand directly in a sequence. -/
def isStatement : Node → Bool
  | .atom _ .nop | .seq .. => false
  | _ => true

end Node

mutual
def Node.coreFault? : Node → Option CoreFault
  | .atom .. | .var .. => none
  | .seq s stmts =>
    if stmts.length ≤ 1 then some (.shortSequence s stmts.length) else stmtsFault? stmts
  | .cond s form test body other =>
    match form with
    | .whenFalse => some (.sugar s)
    | .whenTrue => test.coreFault? <|> optionFault? body <|> optionFault? other
  | .loop _ test body => test.coreFault? <|> optionFault? body
  | .jump _ _ value => optionFault? value
  | .assign _ target value => target.coreFault? <|> value.coreFault?
  | .multi _ targets values => listFault? targets <|> listFault? values
  | .call _ receiver _ args none => optionFault? receiver <|> listFault? args
  | .call _ receiver _ args (some ⟨_, body⟩) =>
    optionFault? receiver <|> listFault? args <|> optionFault? body
  | .isA _ subject _ => subject.coreFault?
  | .define s _ _ params body =>
    if params.any (·.default.isSome) then some (.defaults s) else optionFault? body
  | .choose s .. | .logic s .. | .interp s .. | .range s .. | .regex s .. | .array s ..
  | .hash s .. | .require s .. => some (.sugar s)
termination_by structural n => n

def optionFault? : Option Node → Option CoreFault
  | none => none
  | some n => n.coreFault?
termination_by structural n => n

def listFault? : List Node → Option CoreFault
  | [] => none
  | n :: ns => n.coreFault? <|> listFault? ns
termination_by structural n => n

def stmtsFault? : List Node → Option CoreFault
  | [] => none
  | n :: ns =>
    if n.isStatement then n.coreFault? <|> stmtsFault? ns else some (.nestedSequence n.span)
termination_by structural n => n
end

/-- The first fault of the expressions that the types of a pool mention. -/
def TypePool.coreFault? (p : TypePool) : Option CoreFault :=
  listFault? (p.types.flatMap GenericType.exprs)

end CoreTree

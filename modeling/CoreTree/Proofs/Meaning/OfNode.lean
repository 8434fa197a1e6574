import CoreTree.Proofs.Meaning.Constructs

/-! # The meaning of a tree

Constructor by constructor. A tree means one thing read by names, as it is written, and
another read by versions, as it is normalized: the two readings differ in what tells local
variables apart and in nothing else. Definitions, requires, out-variables and the literals
of collections and texts have no meaning here.
-/
namespace CoreTree
set_option autoImplicit false

namespace Node

def isVariable : Node → Bool
  | .var .. | .atom _ (.field _) => true
  | _ => false

variable {K V : Type} [DecidableEq K]

def store (key : Var → K) : Node → V → Eval K V Unit
  | .var _ v, x => if v.out then .stuck else .writeLocal (key v) x
  | .atom _ (.temp t), x => .writeTemp t x
  | .atom _ (.field f), x => .writeField f x
  | _, _ => .stuck

end Node

variable {K V : Type} [DecidableEq K]

mutual
def Node.meaning (I : Interp V) (key : Var → K) (rounds : Nat) : Node → Eval K V V
  | .atom _ a => .atom I a
  | .var _ v => if v.out then .stuck else .readLocal (key v)
  | .seq _ stmts => .seq I (listMeaning I key rounds stmts)
  | .cond _ form test body other =>
    .cond I form (test.meaning I key rounds) (optionMeaning I key rounds body)
      (optionMeaning I key rounds other)
  | .loop _ test body =>
    .loop I (test.meaning I key rounds) (.branch I (optionMeaning I key rounds body)) rounds
  | .choose _ subject whens other =>
    .choose I rounds subject.isVariable (subject.meaning I key rounds)
      (whensMeaning I key rounds whens) (optionMeaning I key rounds other)
  | .logic _ op left right =>
    .logic I op (left.meaning I key rounds) (right.meaning I key rounds)
  | .jump _ kind value => .jump I kind (optionMeaning I key rounds value)
  | .assign _ target value => .assign (target.store key) (value.meaning I key rounds)
  | .multi _ targets values =>
    .multi I (targets.map (Node.store key)) (listMeaning I key rounds values)
  | .call _ receiver name args none =>
    .call I rounds (optionMeaning I key rounds receiver) name (listMeaning I key rounds args) none
  | .call _ receiver name args (some ⟨params, body⟩) =>
    .call I rounds (optionMeaning I key rounds receiver) name (listMeaning I key rounds args)
      (some (.runBlock I (params.map fun p => key ⟨p, 0, false⟩) (optionMeaning I key rounds body)))
  | .isA _ subject type => .isA I (subject.meaning I key rounds) type
  | .define .. | .interp .. | .range .. | .regex .. | .array .. | .hash .. | .require .. => .stuck
termination_by structural n => n

def optionMeaning (I : Interp V) (key : Var → K) (rounds : Nat) : Option Node → Option (Eval K V V)
  | none => none
  | some n => some (n.meaning I key rounds)
termination_by structural n => n

def listMeaning (I : Interp V) (key : Var → K) (rounds : Nat) : List Node → List (Eval K V V)
  | [] => []
  | n :: ns => n.meaning I key rounds :: listMeaning I key rounds ns
termination_by structural n => n

def whensMeaning (I : Interp V) (key : Var → K) (rounds : Nat) :
    List (When Node) → List (When (Eval K V V))
  | [] => []
  | ⟨patterns, body⟩ :: whens =>
    ⟨listMeaning I key rounds patterns, optionMeaning I key rounds body⟩ ::
      whensMeaning I key rounds whens
termination_by structural n => n
end

def Var.cell (v : Var) : Symbol × Nat := (v.name, v.version)

/-- A tree as it is written: local variables are told apart by name. -/
abbrev Node.named (I : Interp V) (rounds : Nat) (n : Node) : Eval Symbol V V :=
  n.meaning I Var.name rounds

/-- A tree as it is normalized: local variables are told apart by name and version. -/
abbrev Node.versioned (I : Interp V) (rounds : Nat) (n : Node) : Eval (Symbol × Nat) V V :=
  n.meaning I Var.cell rounds

end CoreTree

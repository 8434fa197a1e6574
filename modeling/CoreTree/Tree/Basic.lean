import CoreTree.Span
import CoreTree.Symbol

/-! # Syntax trees

A `Node` is one construct with the span it was read from. The core vocabulary is what is
left after normalization: atoms, variables, sequences, `if`, `while`, jumps, assignments,
calls, type tests and definitions. The rest is sugar: `unless`, `case`, `and`, `or`,
interpolation, literals of ranges, regexes, arrays and hashes, `require`, and parameters
with default values.

Clauses, blocks, parameters and hash entries are parametric in what stands for a tree, so
that the same shape serves a tree and the actions a pass attaches to one.
-/
namespace CoreTree
set_option autoImplicit false

/-- A constant or type path: `Foo::Bar`, or `::Foo::Bar` if it is global. -/
structure ConstPath where
  isGlobal : Bool
  names : List Symbol
deriving DecidableEq, Inhabited

/-- A generic type, by its position in a pool of types. -/
structure TypeId where
  index : Nat
deriving DecidableEq, Inhabited

/-- A local variable. An `out` variable is declared where it stands and not read. Version 0
is the one printed without a number. -/
structure Var where
  name : Symbol
  version : Nat := 0
  out : Bool := false
deriving DecidableEq, Inhabited

/-- What has no parts and means the same before and after normalization. -/
inductive Atom where
  | nop
  | nil
  | self
  | bool (value : Bool)
  | int (value : Int)
  | str (text : Symbol)
  | temp (name : Symbol)
  | field (name : Symbol)
  | const (path : ConstPath)
  | generic (type : TypeId)
deriving DecidableEq, Inhabited

/-- Whether a conditional runs its body on a true test (`if`) or on a false one (`unless`). -/
inductive CondForm where
  | whenTrue
  | whenFalse
deriving DecidableEq, Inhabited

inductive LogicOp where
  | and
  | or
deriving DecidableEq, Inhabited

inductive JumpKind where
  | ret
  | brk
  | next
deriving DecidableEq, Inhabited

inductive DefKind where
  | method
  | macroDef
deriving DecidableEq, Inhabited

/-- A clause of a `case`: the patterns tried, and what runs if one matches. -/
structure When (α : Type) where
  patterns : List α
  body : Option α
deriving DecidableEq

structure Block (α : Type) where
  params : List Symbol
  body : Option α
deriving DecidableEq

structure Param (α : Type) where
  name : Symbol
  default : Option α
deriving DecidableEq

structure HashEntry (α : Type) where
  key : α
  value : α
deriving DecidableEq

/-- The types a hash literal declares for its keys and values. -/
structure HashTypes where
  key : ConstPath
  value : ConstPath
deriving DecidableEq, Inhabited

inductive Node where
  | atom (span : Span) (a : Atom)
  | var (span : Span) (v : Var)
  | seq (span : Span) (stmts : List Node)
  | cond (span : Span) (form : CondForm) (test : Node) (body other : Option Node)
  | loop (span : Span) (test : Node) (body : Option Node)
  | choose (span : Span) (subject : Node) (whens : List (When Node)) (other : Option Node)
  | logic (span : Span) (op : LogicOp) (left right : Node)
  | jump (span : Span) (kind : JumpKind) (value : Option Node)
  | assign (span : Span) (target value : Node)
  | multi (span : Span) (targets values : List Node)
  | call (span : Span) (receiver : Option Node) (name : Symbol) (args : List Node)
      (block : Option (Block Node))
  | isA (span : Span) (subject : Node) (type : ConstPath)
  | define (span : Span) (kind : DefKind) (name : Symbol) (params : List (Param Node))
      (body : Option Node)
  | interp (span : Span) (pieces : List Node)
  | range (span : Span) (first last : Node) (exclusive : Bool)
  | regex (span : Span) (text : Symbol)
  | array (span : Span) (elements : List Node) (type : Option ConstPath)
  | hash (span : Span) (entries : List (HashEntry Node)) (types : Option HashTypes)
  | require (span : Span) (path : Symbol)

namespace ConstPath

def ofGlobal (name : Symbol) : ConstPath := ⟨true, [name]⟩

end ConstPath

namespace Node

instance : Inhabited Node := ⟨.atom .nowhere .nop⟩

def span : Node → Span
  | .atom s _ | .var s _ | .seq s _ | .cond s .. | .loop s .. | .choose s .. | .logic s ..
  | .jump s .. | .assign s .. | .multi s .. | .call s .. | .isA s .. | .define s ..
  | .interp s .. | .range s .. | .regex s .. | .array s .. | .hash s .. | .require s .. => s

def nop (s : Span) : Node := .atom s .nop

def nil (s : Span) : Node := .atom s .nil

def int (s : Span) (n : Int) : Node := .atom s (.int n)

def bool (s : Span) (b : Bool) : Node := .atom s (.bool b)

def temp (s : Span) (name : Symbol) : Node := .atom s (.temp name)

def globalConst (s : Span) (name : Symbol) : Node := .atom s (.const (.ofGlobal name))

def send (s : Span) (receiver : Node) (name : Symbol) (args : List Node) : Node :=
  .call s (some receiver) name args none

end Node

end CoreTree

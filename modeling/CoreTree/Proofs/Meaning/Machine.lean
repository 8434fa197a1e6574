import CoreTree.Tree.Basic
import Mathlib.Logic.Function.Basic

/-! # What a tree runs on

A machine holds the local variables, the temporaries and the world: instance variables and
the record of what has happened so far. A step changes the machine and gives a value, or
exits without one. What values are and what callees do is left to an interpretation,
so a theorem about every interpretation is a theorem about every program around the tree.
-/
namespace CoreTree
set_option autoImplicit false

/-- What the outside sees: a call as it is made, and the value a block hands back to the
callee that ran it. -/
inductive Event (V : Type) where
  | call (receiver : Option V) (name : Symbol) (args : List V)
  | ran (value : V)

/-- Instance variables, and the events so far, the latest first. -/
structure World (V : Type) where
  fields : Symbol → V
  events : List (Event V)

inductive Reply (V : Type) where
  | done (value : V)
  | run (args : List V)

/-- The values, and the behaviour of callees. A callee knows the whole record, in which its own
call stands first, and may change every instance variable. One with a block is asked what it does
next after each run of the block: it knows how it was called, what the runs have given so far, the
latest first, and the world by now. -/
structure Interp (V : Type) where
  literal : Atom → V
  truthy : V → Bool
  isA : V → ConstPath → V
  pack : List V → V
  answer : World V → V × (Symbol → V)
  reply : Event V → List V → World V → Reply V × (Symbol → V)
  truthy_false : truthy (literal (.bool false)) = false

namespace Interp

def nil {V : Type} (I : Interp V) : V := I.literal .nil

end Interp

/-- `K` tells local variables apart: by name in a source tree, and by name and version in a
normalized one. -/
structure Machine (K V : Type) where
  locals : K → V
  temps : Symbol → V
  world : World V

/-- Why a step gives no value: control goes elsewhere, or the run is cut off, because it has
gone on for too long or because a construct has no meaning here. -/
inductive Exit (V : Type) where
  | jump (kind : JumpKind) (value : V)
  | cut

abbrev Eval (K V : Type) := ExceptT (Exit V) (StateM (Machine K V))

namespace Eval

variable {K V α β : Type}

/-- The result of a step from a machine, and the machine it leaves behind. -/
def on (c : Eval K V α) (m : Machine K V) : Except (Exit V) α × Machine K V := (c.run.run m).run

def stuck : Eval K V α := throw .cut

def attempt (c : Eval K V α) : Eval K V (Except (Exit V) α) := ExceptT.lift c.run

theorem on_pure (a : α) (m : Machine K V) : (pure a : Eval K V α).on m = (.ok a, m) := rfl

theorem on_bind_of_ok {c : Eval K V α} {f : α → Eval K V β} {m m' : Machine K V} {a : α}
    (h : c.on m = (.ok a, m')) : (c >>= f).on m = (f a).on m' := by
  show (ExceptT.bindCont f (c.on m).1 (c.on m).2 : Id _).run = _
  rw [h]
  rfl

theorem on_bind_of_error {c : Eval K V α} {f : α → Eval K V β} {m m' : Machine K V}
    {e : Exit V} (h : c.on m = (.error e, m')) : (c >>= f).on m = (.error e, m') := by
  show (ExceptT.bindCont f (c.on m).1 (c.on m).2 : Id _).run = _
  rw [h]
  rfl

theorem on_attempt (c : Eval K V α) (m : Machine K V) :
    c.attempt.on m = (.ok (c.on m).1, (c.on m).2) := rfl

/-! ## Steps on the machine -/

def readLocal (k : K) : Eval K V V := return (← get).locals k

def writeLocal [DecidableEq K] (k : K) (v : V) : Eval K V Unit :=
  modify fun m => { m with locals := Function.update m.locals k v }

def readTemp (t : Symbol) : Eval K V V := return (← get).temps t

def writeTemp (t : Symbol) (v : V) : Eval K V Unit :=
  modify fun m => { m with temps := Function.update m.temps t v }

def readField (f : Symbol) : Eval K V V := return (← get).world.fields f

def writeField (f : Symbol) (v : V) : Eval K V Unit :=
  modify fun m => { m with world.fields := Function.update m.world.fields f v }

def record (e : Event V) : Eval K V Unit :=
  modify fun m => { m with world.events := e :: m.world.events }

def answer (I : Interp V) : Eval K V V := do
  let (v, fields) := I.answer (← get).world
  modify fun m => { m with world.fields := fields }
  return v

def reply (I : Interp V) (made : Event V) (given : List V) : Eval K V (Reply V) := do
  let (r, fields) := I.reply made given (← get).world
  modify fun m => { m with world.fields := fields }
  return r

/-- Binds parameters to arguments in turn; a parameter without an argument is `nil`. -/
def bindParams [DecidableEq K] (I : Interp V) : List K → List V → Eval K V Unit
  | [], _ => pure ()
  | k :: ks, args => do
    writeLocal k (args.headD I.nil)
    bindParams I ks args.tail

def restore [DecidableEq K] (ks : List K) (outer : K → V) : Eval K V Unit :=
  modify fun m => { m with locals := fun k => if k ∈ ks then outer k else m.locals k }

end Eval

end CoreTree

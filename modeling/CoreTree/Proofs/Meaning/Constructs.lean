import CoreTree.Proofs.Meaning.Machine

/-! # What each construct does

Told in terms of what its parts do. A loop, and a callee with a block, may go on without
end: `rounds` bounds how often each of them goes round, and a run that would go on longer
is cut off there.
-/
namespace CoreTree
set_option autoImplicit false

namespace Eval

variable {K V : Type}

/-- An absent branch or body does nothing. -/
def branch (I : Interp V) (c : Option (Eval K V V)) : Eval K V V := c.getD (pure I.nil)

def optional : Option (Eval K V V) → Eval K V (Option V)
  | none => return none
  | some c => return some (← c)

def all : List (Eval K V V) → Eval K V (List V)
  | [] => return []
  | c :: cs => do
    let v ← c
    return v :: (← all cs)

def atom (I : Interp V) : Atom → Eval K V V
  | .nop => pure I.nil
  | .temp t => readTemp t
  | .field f => readField f
  | a => pure (I.literal a)

def seq (I : Interp V) : List (Eval K V V) → Eval K V V
  | [] => pure I.nil
  | [c] => c
  | c :: cs => do
    let _ ← c
    seq I cs

def cond (I : Interp V) (form : CondForm) (test : Eval K V V) (body other : Option (Eval K V V)) :
    Eval K V V := do
  let (onTrue, onFalse) := match form with
    | .whenTrue => (body, other)
    | .whenFalse => (other, body)
  if I.truthy (← test) then branch I onTrue else branch I onFalse

/-- `and` and `or` give the operand that decides, and do not evaluate the second one if the
first does. -/
def logic (I : Interp V) (op : LogicOp) (left right : Eval K V V) : Eval K V V := do
  let v ← left
  if I.truthy v = (op = .and) then right else return v

/-- One time round: whether the test held and the body ran. -/
def pass (I : Interp V) (test body : Eval K V V) : Eval K V Bool := do
  if I.truthy (← test) then
    let _ ← body
    return true
  else return false

/-- `next` goes on to the test, `break` leaves the loop with its value. -/
def loop (I : Interp V) (test body : Eval K V V) : Nat → Eval K V V
  | 0 => stuck
  | rounds + 1 => do
    match ← (pass I test body).attempt with
    | .ok true | .error (.jump .next _) => loop I test body rounds
    | .ok false => return I.nil
    | .error (.jump .brk v) => return v
    | .error e => throw e

def jump (I : Interp V) (kind : JumpKind) (value : Option (Eval K V V)) : Eval K V V := do
  throw (.jump kind (← branch I value))

/-- The value is stored and is the value of the assignment. -/
def assign (store : V → Eval K V Unit) (value : Eval K V V) : Eval K V V := do
  let v ← value
  store v
  return v

/-- A target without a value gets `nil`. -/
def storeAll (I : Interp V) : List (V → Eval K V Unit) → List V → Eval K V Unit
  | [], _ => pure ()
  | store :: stores, vs => do
    store (vs.headD I.nil)
    storeAll I stores vs.tail

/-- All values come first, then the targets in order. -/
def multi (I : Interp V) (stores : List (V → Eval K V Unit)) (values : List (Eval K V V)) :
    Eval K V V := do
  let vs ← all values
  storeAll I stores vs
  return I.pack vs

def isA (I : Interp V) (subject : Eval K V V) (type : ConstPath) : Eval K V V :=
  return I.isA (← subject) type

/-! ## Calls -/

/-- The parameters of a block are its own: what they hide is back after each run. `next`
ends a run. -/
def runBlock [DecidableEq K] (I : Interp V) (params : List K) (body : Option (Eval K V V))
    (args : List V) : Eval K V V := do
  let outer := (← get).locals
  bindParams I params args
  let exit ← (branch I body).attempt
  restore params outer
  match exit with
  | .ok v | .error (.jump .next v) => return v
  | .error e => throw e

/-- The callee runs the block with arguments of its choice until it is done. -/
def converse (I : Interp V) (made : Event V) (run : List V → Eval K V V) :
    List V → Nat → Eval K V V
  | _, 0 => stuck
  | given, rounds + 1 => do
    match ← reply I made given with
    | .done v => return v
    | .run args =>
      let v ← run args
      record (.ran v)
      converse I made run (v :: given) rounds

/-- `break` in a block ends the call that the block was given to. -/
def catchBreak (c : Eval K V V) : Eval K V V := do
  match ← c.attempt with
  | .ok v | .error (.jump .brk v) => return v
  | .error e => throw e

def finishCall (I : Interp V) (rounds : Nat) (made : Event V)
    (block : Option (List V → Eval K V V)) : Eval K V V := do
  record made
  match block with
  | none => answer I
  | some run => catchBreak (converse I made run [] rounds)

def call (I : Interp V) (rounds : Nat) (receiver : Option (Eval K V V)) (name : Symbol)
    (args : List (Eval K V V)) (block : Option (List V → Eval K V V)) : Eval K V V := do
  let r ← optional receiver
  let vs ← all args
  finishCall I rounds (.call r name vs) block

/-! ## `case` -/

/-- Whether a pattern matches: patterns are tried in order, each by a call of `===`, until
one does. -/
def anyMatch (I : Interp V) (rounds : Nat) (subject : Eval K V V) :
    List (Eval K V V) → Eval K V Bool
  | [] => return false
  | pattern :: patterns => do
    if I.truthy (← call I rounds (some pattern) .caseEq [subject] none) then return true
    else anyMatch I rounds subject patterns

def clauses (I : Interp V) (rounds : Nat) (subject : Eval K V V) :
    List (When (Eval K V V)) → Option (Eval K V V) → Eval K V V
  | [], other => branch I other
  | w :: ws, other => do
    if ← anyMatch I rounds subject w.patterns then branch I w.body
    else clauses I rounds subject ws other

/-- A subject that is a variable is read for each pattern; any other is evaluated once. -/
def choose (I : Interp V) (rounds : Nat) (isVariable : Bool) (subject : Eval K V V)
    (whens : List (When (Eval K V V))) (other : Option (Eval K V V)) : Eval K V V :=
  if isVariable then clauses I rounds subject whens other
  else do
    let v ← subject
    clauses I rounds (pure v) whens other

end Eval

end CoreTree

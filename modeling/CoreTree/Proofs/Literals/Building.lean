import CoreTree.Proofs.Frame.Views
import CoreTree.Proofs.Simulation.Splicing

/-! # Building a value step by step

A value is made, kept in a temporary, and changed by one step after another. Each step starts from
the temporary, so it finds the value there as long as no step before it has assigned the temporary.
-/
namespace CoreTree
set_option autoImplicit false

variable {K V α β ρ : Type}

namespace Eval

variable (I : Interp V)

/-- A call without a block, of values that are there already. -/
def send (receiver : V) (name : Symbol) (args : List V) : Eval K V V := do
  record (.call (some receiver) name args)
  answer I

def each : List (Eval K V V) → Eval K V Unit
  | [] => pure ()
  | c :: cs => do
    let _ ← c
    each cs

/-- What is made is kept in the temporary and taken through the steps, and is the value. -/
def build (t : Symbol) (make : Eval K V V) (steps : List (V → Eval K V V)) : Eval K V V := do
  let made ← make
  writeTemp t made
  each (steps.map (· made))
  return made

/-- The element is evaluated and written into the buffer. -/
def fillIndex (i : Nat) (element : Eval K V V) (array : V) : Eval K V V := do
  let buffer ← send I array .buffer []
  let v ← element
  send I buffer .indexSet [I.literal (.int i), v]

def buildArray (t : Symbol) (type : V) (capacity : Nat) (elements : List (Eval K V V)) :
    Eval K V V :=
  build t (send I type .newName [I.literal (.int capacity)])
    ((fun array => send I array .setLength [I.literal (.int elements.length)]) ::
      elements.mapIdx (fillIndex I))

/-- The key is evaluated before the value. -/
def fillEntry (e : HashEntry (Eval K V V)) (hash : V) : Eval K V V := do
  let key ← e.key
  let value ← e.value
  send I hash .indexSet [key, value]

def buildHash (t : Symbol) (type : V) (entries : List (HashEntry (Eval K V V))) : Eval K V V :=
  build t (send I type .newName []) (entries.map (fillEntry I))

def appendAll (builder : V) : List (Eval K V V) → Eval K V V
  | [] => return builder
  | c :: cs => do
    let piece ← c
    appendAll (← send I builder .append [piece]) cs

def buildText (pieces : List (Eval K V V)) : Eval K V V := do
  let builder ← send I (I.literal (.const (.ofGlobal .stringBuilder))) .newName []
  let text ← appendAll I builder pieces
  send I text .toS []

/-! ## Steps that find the value -/

theorem leaves_send {view : Machine K V → ρ} (hView : Inward view) (receiver : V) (name : Symbol)
    (args : List V) : (send I receiver name args : Eval K V V).Leaves view :=
  (leaves_record hView _).bind fun _ => leaves_answer hView I

theorem inward_temps (t : Symbol) : Inward fun m : Machine K V => m.temps t := fun _ _ => rfl

theorem on_readTemp_bind (t : Symbol) (f : V → Eval K V α) (m : Machine K V) :
    (readTemp t >>= f).on m = (f (m.temps t)).on m := on_bind_of_ok rfl

theorem on_writeTemp_bind (t : Symbol) (v : V) (f : Unit → Eval K V α) (m : Machine K V) :
    (writeTemp t v >>= f).on m = (f ()).on { m with temps := Function.update m.temps t v } :=
  on_bind_of_ok rfl

/-- What follows a step that leaves the view alone finds it as it was. -/
theorem Leaves.on_bind {view : Machine K V → ρ} {c : Eval K V α} (hc : c.Leaves view)
    {f g : α → Eval K V β} {m : Machine K V}
    (h : ∀ a m', view m' = view m → (f a).on m' = (g a).on m') :
    (c >>= f).on m = (c >>= g).on m := by
  have hView := hc m
  rcases hCase : c.on m with ⟨e | a, m'⟩
  · rw [on_bind_of_error hCase, on_bind_of_error hCase]
  · rw [hCase] at hView
    rw [on_bind_of_ok hCase, on_bind_of_ok hCase]
    exact h a m' hView

theorem bind_congr_on {c : Eval K V α} {f g : α → Eval K V β}
    (h : ∀ a m, (f a).on m = (g a).on m) : c >>= f = c >>= g :=
  congrArg _ (funext fun a => funext (h a))

theorem seq_cons (c : Eval K V V) {cs : List (Eval K V V)} (h : cs ≠ []) :
    seq I (c :: cs) = c >>= fun _ => seq I cs := seq_append I [c] cs h

/-- Steps that start from the temporary take what is in it through the same steps, if none of them
assigns it. -/
theorem on_seq_steps (t : Symbol) {steps : List (V → Eval K V V)} {made : V}
    (h : ∀ step ∈ steps, (step made).Leaves fun m => m.temps t) {m : Machine K V}
    (hMade : m.temps t = made) :
    (seq I (steps.map (fun step => readTemp t >>= step) ++ [readTemp t])).on m =
      (each (steps.map (· made)) >>= fun _ => pure made).on m := by
  induction steps generalizing m with
  | nil =>
    rw [← hMade]
    rfl
  | cons step steps ih =>
    obtain ⟨hStep, hRest⟩ := List.forall_mem_cons.mp h
    rw [List.map_cons, List.cons_append, seq_cons I _ (by simp), bind_assoc, on_readTemp_bind,
      hMade, List.map_cons, each, bind_assoc]
    exact hStep.on_bind fun _ m' hm' => ih hRest (hm'.trans hMade)

theorem seq_build (t : Symbol) (make : Eval K V V) {steps : List (V → Eval K V V)}
    (h : ∀ step ∈ steps, ∀ made, (step made).Leaves fun m => m.temps t) :
    seq I (assign (writeTemp t) make ::
      (steps.map (fun step => readTemp t >>= step) ++ [readTemp t])) = build t make steps := by
  rw [seq_cons I _ (by simp), assign, build, bind_assoc]
  refine bind_congr_on fun made m => ?_
  rw [bind_assoc, on_writeTemp_bind, on_writeTemp_bind, pure_bind]
  exact on_seq_steps I t (fun step hStep => h step hStep made) (Function.update_self t made m.temps)

end Eval

end CoreTree

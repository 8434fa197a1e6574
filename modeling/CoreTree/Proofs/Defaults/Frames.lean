import CoreTree.Proofs.Meaning.Constructs
import Mathlib.Data.List.Nodup

/-! # Frames

A body runs in variables of its own: its parameters hold the arguments, no other variable or
temporary holds anything, and none of this is seen outside. A `return` ends the call.
-/
namespace CoreTree
set_option autoImplicit false

variable {K V α β : Type}

/-- The machine as a body finds it. -/
def Machine.entered [DecidableEq K] (I : Interp V) (params : List K) (args : List V)
    (m : Machine K V) : Machine K V :=
  ((Eval.bindParams I params args).on ⟨fun _ => I.nil, fun _ => I.nil, m.world⟩).2

namespace Eval

/-- The step in variables of its own. -/
def frame [DecidableEq K] (I : Interp V) (params : List K) (args : List V) (c : Eval K V α) :
    Eval K V α := do
  let outer ← get
  set (outer.entered I params args)
  let result ← c.attempt
  modify fun m => { outer with world := m.world }
  match result with
  | .ok a => return a
  | .error e => throw e

/-- `return` ends the call with its value. -/
def catchReturn (c : Eval K V V) : Eval K V V := do
  match ← c.attempt with
  | .ok v | .error (.jump .ret v) => return v
  | .error e => throw e

/-- A call, when its arguments have been evaluated. -/
def called [DecidableEq K] (I : Interp V) (params : List K) (body : Eval K V V) (args : List V) :
    Eval K V V :=
  catchReturn (frame I params args body)

variable {I : Interp V}

theorem on_frame [DecidableEq K] (params : List K) (args : List V) (c : Eval K V α)
    (m : Machine K V) : (frame I params args c).on m = ((c.on (m.entered I params args)).1,
      { m with world := (c.on (m.entered I params args)).2.world }) := by
  show (c.attempt >>= fun result => modify (fun k => { m with world := k.world }) >>= fun _ =>
    match result with
    | .ok a => pure a
    | .error e => throw e).on (m.entered I params args) = _
  rw [on_bind_of_ok (on_attempt _ _)]
  rcases c.on (m.entered I params args) with ⟨e | a, m'⟩ <;> rfl

theorem on_catchReturn (c : Eval K V V) (m : Machine K V) :
    (catchReturn c).on m = (match (c.on m).1 with
      | .ok v | .error (.jump .ret v) => .ok v
      | .error e => .error e, (c.on m).2) := by
  rcases hc : c.on m with ⟨(⟨kind, v⟩ | _) | a, m'⟩
  · cases kind <;> exact (on_bind_of_ok (on_attempt _ _)).trans (by rw [hc]; rfl)
  all_goals exact (on_bind_of_ok (on_attempt _ _)).trans (by rw [hc]; rfl)

theorem catchReturn_bind (c : Eval K V α) (f : α → Eval K V V) :
    catchReturn (c >>= fun a => catchReturn (f a)) = catchReturn (c >>= f) := by
  refine funext fun m => ?_
  show (catchReturn _).on m = (catchReturn _).on m
  rw [on_catchReturn, on_catchReturn]
  rcases hc : c.on m with ⟨e | a, m'⟩
  · rw [on_bind_of_error hc, on_bind_of_error hc]
  · rw [on_bind_of_ok hc, on_bind_of_ok hc, on_catchReturn]
    rcases (f a).on m' with ⟨(⟨kind, v⟩ | _) | a, m'⟩
    · cases kind <;> rfl
    all_goals rfl

/-! ## Steps that see no variable -/

/-- What the step does depends on the world only, and it changes nothing else. -/
def Isolated (c : Eval K V α) : Prop :=
  ∀ m m' : Machine K V, m.world = m'.world →
    c.on m' = ((c.on m).1, { m' with world := (c.on m).2.world })

theorem isolated_pure (a : α) : (pure a : Eval K V α).Isolated := by
  intro m m' h
  rw [on_pure, on_pure, h]

theorem isolated_frame [DecidableEq K] (params : List K) (args : List V) (c : Eval K V α) :
    (frame I params args c).Isolated := by
  intro m m' h
  have hEntered : m.entered I params args = m'.entered I params args := by
    rw [Machine.entered, h]
    rfl
  rw [on_frame, on_frame, hEntered]

theorem Isolated.bind {c : Eval K V α} {f : α → Eval K V β} (h : c.Isolated)
    (hNext : ∀ a, (f a).Isolated) : (c >>= f).Isolated := by
  intro m m' hWorld
  have hc' := h m m' hWorld
  rcases hc : c.on m with ⟨e | a, m₁⟩
  · rw [hc] at hc'
    rw [on_bind_of_error hc, on_bind_of_error hc']
  · rw [hc] at hc'
    rw [on_bind_of_ok hc, on_bind_of_ok hc']
    exact hNext a m₁ _ rfl

/-- What follows in a frame and sees none of its variables may as well follow behind it. -/
theorem frame_bind [DecidableEq K] {f : α → Eval K V β} (h : ∀ a, (f a).Isolated) (params : List K)
    (args : List V) (c : Eval K V α) :
    frame I params args (c >>= f) = frame I params args c >>= f := by
  refine funext fun m => ?_
  show (frame I params args (c >>= f)).on m = (frame I params args c >>= f).on m
  rw [on_frame]
  rcases hc : c.on (m.entered I params args) with ⟨e | a, m₁⟩
  · rw [on_bind_of_error hc, on_bind_of_error (by rw [on_frame, hc])]
  · rw [on_bind_of_ok hc, on_bind_of_ok (by rw [on_frame, hc])]
    exact (h a m₁ { m with world := m₁.world } rfl).symm

theorem Isolated.catchReturn {c : Eval K V V} (h : c.Isolated) : (catchReturn c).Isolated := by
  intro m m' hWorld
  rw [on_catchReturn, on_catchReturn, h m m' hWorld]

/-! ## Reads of the parameters -/

theorem on_bindParams_of_nodup [DecidableEq K] {params : List K} {args : List V}
    (hNodup : params.Nodup) (hLength : args.length = params.length) (m : Machine K V) :
    ∃ m', (bindParams I params args).on m = (.ok (), m') ∧ m'.world = m.world ∧
      params.map m'.locals = args ∧ ∀ k ∉ params, m'.locals k = m.locals k := by
  induction params generalizing args m with
  | nil =>
    cases args with
    | nil => exact ⟨m, rfl, rfl, rfl, fun _ _ => rfl⟩
    | cons => cases hLength
  | cons k ks ih =>
    cases args with
    | nil => cases hLength
    | cons v vs =>
      obtain ⟨hFirst, hRest⟩ := List.nodup_cons.mp hNodup
      obtain ⟨m', hBind, hWorld, hReads, hOthers⟩ := ih hRest (Nat.succ_inj.mp hLength)
        { m with locals := Function.update m.locals k v }
      refine ⟨m', hBind, hWorld, ?_, fun k' hk' => ?_⟩
      · have hHead : m'.locals k = v := (hOthers k hFirst).trans (Function.update_self _ _ _)
        rw [List.map_cons, hReads, hHead]
      · obtain ⟨hNe, hNot⟩ := List.ne_and_not_mem_of_not_mem_cons hk'
        exact (hOthers k' hNot).trans (Function.update_of_ne hNe _ _)

theorem on_all_reads (params : List K) (m : Machine K V) :
    (all (params.map readLocal)).on m = (.ok (params.map m.locals), m) := by
  induction params with
  | nil => rfl
  | cons k ks ih => exact (on_bind_of_ok rfl).trans (on_bind_of_ok ih)

/-- A body that starts with its parameters starts with the arguments. -/
theorem frame_reads [DecidableEq K] {params : List K} {args : List V} (hNodup : params.Nodup)
    (hLength : args.length = params.length) (f : List V → Eval K V β) :
    frame I params args (all (params.map readLocal) >>= f) = frame I params args (f args) := by
  refine funext fun m => ?_
  show (frame I params args _).on m = (frame I params args _).on m
  obtain ⟨m', hBind, -, hReads, -⟩ :=
    on_bindParams_of_nodup hNodup hLength ⟨fun _ => I.nil, fun _ => I.nil, m.world⟩
  have hEntered : m.entered I params args = m' := congrArg Prod.snd hBind
  rw [on_frame, on_frame, hEntered, on_bind_of_ok (on_all_reads _ _), hReads]

theorem all_concat (cs : List (Eval K V V)) (c : Eval K V V) :
    all (cs ++ [c]) = all cs >>= fun vs => c >>= fun v => pure (vs ++ [v]) := by
  induction cs with
  | nil => simp only [List.nil_append, all, pure_bind]
  | cons d ds ih => simp only [List.cons_append, all, ih, bind_assoc, pure_bind]

end Eval

end CoreTree

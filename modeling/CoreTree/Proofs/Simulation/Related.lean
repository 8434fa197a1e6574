import CoreTree.Proofs.Simulation.Agreement

/-! # Related runs

A run by names and a run by versions are related if both give the same value in machines that
satisfy a postcondition, or if both exit in the same way. Which exits there may be besides a return
from the method and the end of all rounds, and what the machines have in common there, is left open:
behind any exit the world is the same.
-/
namespace CoreTree
set_option autoImplicit false

variable {V α β : Type}

def Exit.Leaves : Exit V → Prop
  | .jump .ret _ | .cut => True
  | _ => False

/-- How runs may exit, and what the machines have in common then. -/
structure Escape (V : Type) where
  may : Exit V → Prop
  post : Exit V → Machine Symbol V → Machine Cell V → Prop
  leaves : ∀ e, e.Leaves → may e
  post_of_leaves : ∀ e m w, e.Leaves → m.world = w.world → post e m w
  world : ∀ e m w, post e m w → m.world = w.world

/-- Neither `break` nor `next` leads out. -/
abbrev Escape.closed : Escape V where
  may := Exit.Leaves
  post _ m w := m.world = w.world
  leaves _ h := h
  post_of_leaves _ _ _ _ h := h
  world _ _ _ h := h

inductive Alike (E : Escape V) (Q : α → Machine Symbol V → Machine Cell V → Prop) :
    Except (Exit V) α × Machine Symbol V → Except (Exit V) α × Machine Cell V → Prop where
  | value {v m w} (h : Q v m w) : Alike E Q (.ok v, m) (.ok v, w)
  | left {e m w} (hLeaves : E.may e) (h : E.post e m w) : Alike E Q (.error e, m) (.error e, w)

abbrev Related (Q : α → Machine Symbol V → Machine Cell V → Prop) :
    Except (Exit V) α × Machine Symbol V → Except (Exit V) α × Machine Cell V → Prop :=
  Alike .closed Q

namespace Alike

variable {E : Escape V} {Q : α → Machine Symbol V → Machine Cell V → Prop}
  {Q' : β → Machine Symbol V → Machine Cell V → Prop}
  {c : Eval Symbol V α} {d : Eval Cell V α} {m : Machine Symbol V} {w : Machine Cell V}

theorem mono {P : α → Machine Symbol V → Machine Cell V → Prop} {a b}
    (h : Alike E Q a b) (hQ : ∀ v m w, Q v m w → P v m w) : Alike E P a b := by
  cases h with
  | value h => exact .value (hQ _ _ _ h)
  | left hLeaves h => exact .left hLeaves h

theorem reached {a b} (h : Alike E Q a b) :
    Alike E (fun v m w => Q v m w ∧ m = a.2 ∧ w = b.2) a b := by
  cases h with
  | value h => exact .value ⟨h, rfl, rfl⟩
  | left hLeaves h => exact .left hLeaves h

theorem exists_of_value {a v w} (h : Alike E Q a (.ok v, w)) : ∃ m, Q v m w := by
  cases h with
  | value h => exact ⟨_, h⟩

theorem bind {f : α → Eval Symbol V β} {g : α → Eval Cell V β}
    (h : Alike E Q (c.on m) (d.on w))
    (hNext : ∀ v m' w', Q v m' w' → Alike E Q' ((f v).on m') ((g v).on w')) :
    Alike E Q' ((c >>= f).on m) ((d >>= g).on w) := by
  generalize hc : c.on m = a at h
  generalize hd : d.on w = b at h
  cases h with
  | value h =>
    rw [Eval.on_bind_of_ok hc, Eval.on_bind_of_ok hd]
    exact hNext _ _ _ h
  | left hLeaves h =>
    rw [Eval.on_bind_of_error hc, Eval.on_bind_of_error hd]
    exact .left hLeaves h

/-- What stands after a run that cannot end normally may be left out. -/
theorem bind_of_never {P : α → Machine Symbol V → Machine Cell V → Prop}
    {f : α → Eval Symbol V α} (h : Alike E Q (c.on m) (d.on w))
    (hNever : ∀ v m' w', ¬ Q v m' w') : Alike E P ((c >>= f).on m) (d.on w) := by
  generalize hc : c.on m = a at h
  generalize d.on w = b at h
  cases h with
  | value h => exact absurd h (hNever _ _ _)
  | left hLeaves h =>
    rw [Eval.on_bind_of_error hc]
    exact .left hLeaves h

/-- Whatever looks at the exit of a run as a value. -/
theorem attempt {E' : Escape V} {f : Except (Exit V) α → Eval Symbol V β}
    {g : Except (Exit V) α → Eval Cell V β} (h : Alike E Q (c.on m) (d.on w))
    (hValue : ∀ v m' w', Q v m' w' → Alike E' Q' ((f (.ok v)).on m') ((g (.ok v)).on w'))
    (hLeft : ∀ e m' w', E.may e → E.post e m' w' →
      Alike E' Q' ((f (.error e)).on m') ((g (.error e)).on w')) :
    Alike E' Q' ((c.attempt >>= f).on m) ((d.attempt >>= g).on w) := by
  rw [Eval.on_bind_of_ok (Eval.on_attempt c m), Eval.on_bind_of_ok (Eval.on_attempt d w)]
  generalize c.on m = a at h ⊢
  generalize d.on w = b at h ⊢
  cases h with
  | value h => exact hValue _ _ _ h
  | left hLeaves h => exact hLeft _ _ _ hLeaves h

/-- Runs that do not escape are alike wherever runs may escape. -/
theorem of_closed {a b} (h : Alike .closed Q a b) : Alike E Q a b := by
  cases h with
  | value h => exact .value h
  | left hLeaves h => exact .left (E.leaves _ hLeaves) (E.post_of_leaves _ _ _ hLeaves h)

end Alike

namespace Related

variable {Q : α → Machine Symbol V → Machine Cell V → Prop}
  {Q' : β → Machine Symbol V → Machine Cell V → Prop}
  {c : Eval Symbol V α} {d : Eval Cell V α} {m : Machine Symbol V} {w : Machine Cell V}

/-- Whatever looks at the exit of a run that does not escape. -/
theorem attempt {f : Except (Exit V) α → Eval Symbol V β} {g : Except (Exit V) α → Eval Cell V β}
    (h : Related Q (c.on m) (d.on w))
    (hValue : ∀ v m' w', Q v m' w' → Related Q' ((f (.ok v)).on m') ((g (.ok v)).on w'))
    (hReturned : ∀ v m' w', m'.world = w'.world →
      Related Q' ((f (.error (.jump .ret v))).on m') ((g (.error (.jump .ret v))).on w'))
    (hCut : ∀ m' w', m'.world = w'.world →
      Related Q' ((f (.error .cut)).on m') ((g (.error .cut)).on w')) :
    Related Q' ((c.attempt >>= f).on m) ((d.attempt >>= g).on w) := by
  apply Alike.attempt h hValue
  intro e m' w' hLeaves h
  match e, hLeaves with
  | .jump .ret v, _ => exact hReturned v m' w' h
  | .cut, _ => exact hCut m' w' h

end Related

/-! ## Steps that both machines take -/

namespace Setting.Agree

variable {C : Setting V} {held : Held V} {s : Scope} {m : Machine Symbol V} {w : Machine Cell V}

theorem setWorld (h : C.Agree held s m w) (u : World V) :
    C.Agree held s { m with world := u } { w with world := u } :=
  ⟨h.reads, h.unset, h.temps, rfl⟩

theorem readField (h : C.Agree held s m w) (f : Symbol) :
    Related (fun _ => C.Agree held s) ((Eval.readField f).on m) ((Eval.readField f).on w) := by
  obtain ⟨locals, temps, world⟩ := m
  obtain rfl : world = w.world := h.world
  exact .value h

theorem writeField (h : C.Agree held s m w) (f : Symbol) (v : V) :
    Related (fun _ => C.Agree held s) ((Eval.writeField f v).on m)
      ((Eval.writeField f v).on w) := by
  obtain ⟨locals, temps, world⟩ := m
  obtain rfl : world = w.world := h.world
  exact .value (h.setWorld _)

theorem record (h : C.Agree held s m w) (e : Event V) :
    Related (fun _ => C.Agree held s) ((Eval.record e).on m) ((Eval.record e).on w) := by
  obtain ⟨locals, temps, world⟩ := m
  obtain rfl : world = w.world := h.world
  exact .value (h.setWorld _)

theorem answer (h : C.Agree held s m w) :
    Related (fun _ => C.Agree held s) ((Eval.answer C.interp).on m)
      ((Eval.answer C.interp).on w) := by
  obtain ⟨locals, temps, world⟩ := m
  obtain rfl : world = w.world := h.world
  exact .value (h.setWorld _)

theorem reply (h : C.Agree held s m w) (made : Event V) (given : List V) :
    Related (fun _ => C.Agree held s) ((Eval.reply C.interp made given).on m)
      ((Eval.reply C.interp made given).on w) := by
  obtain ⟨locals, temps, world⟩ := m
  obtain rfl : world = w.world := h.world
  exact .value (h.setWorld _)

end Setting.Agree

end CoreTree

import CoreTree.Scope.Join
import Mathlib.Data.Set.Basic

/-! # How versions move

Normalizing code leaves the versions of a variable alone or moves them on: it reads a
version, none lower than before, and writes past every version made so far. Each operation
on scopes is shown to keep to this, whatever the branches and bodies in between do.
-/
namespace CoreTree
set_option autoImplicit false

namespace Versions

/-- A version that is read has been written. -/
def Sound (a : Option Versions) : Prop := ∀ v r, a = some v → v.read = some r → r < v.write

/-- `b` may come after `a`. A variable that moved has a version that reaches the path. -/
def Follows (a b : Option Versions) : Prop :=
  b = a ∨ ∃ r w, b = some ⟨some r, w⟩ ∧ r < w ∧
    ∀ v, a = some v → v.write ≤ w ∧ ∀ old, v.read = some old → old ≤ r

def reads (a : Option Versions) : Option Nat := a.bind (·.read)

theorem reads_eq_some_iff {a : Option Versions} {r : Nat} :
    reads a = some r ↔ ∃ w, a = some ⟨some r, w⟩ := by
  obtain _ | ⟨read, write⟩ := a <;> simp [reads]

theorem Follows.refl (a : Option Versions) : Follows a a := .inl rfl

theorem Follows.trans {a b c : Option Versions} (hab : Follows a b) (hbc : Follows b c) :
    Follows a c := by
  obtain rfl | ⟨r, w, rfl, hrw, hOld⟩ := hbc
  · exact hab
  · obtain rfl | ⟨r', w', rfl, hrw', hOld'⟩ := hab
    · exact .inr ⟨r, w, rfl, hrw, hOld⟩
    · obtain ⟨hWrite, hRead⟩ := hOld _ rfl
      have hRead := hRead r' rfl
      refine .inr ⟨r, w, rfl, hrw, fun v hv => ?_⟩
      obtain ⟨hWrite', hRead'⟩ := hOld' v hv
      exact ⟨le_trans hWrite' hWrite, fun old hRead₀ => le_trans (hRead' old hRead₀) hRead⟩

theorem Follows.sound {a b : Option Versions} (h : Follows a b) (ha : Sound a) : Sound b := by
  obtain rfl | ⟨r, w, rfl, hrw, _⟩ := h
  · exact ha
  · intro v r' hv hr'
    cases hv
    cases hr'
    exact hrw

theorem Follows.reads_le {a b : Option Versions} (h : Follows a b) {r : Nat}
    (hr : reads a = some r) : ∃ r', reads b = some r' ∧ r ≤ r' := by
  obtain rfl | ⟨r', w, rfl, _, hOld⟩ := h
  · exact ⟨r, hr, le_rfl⟩
  · obtain ⟨w₀, rfl⟩ := reads_eq_some_iff.mp hr
    exact ⟨r', rfl, (hOld _ rfl).2 r rfl⟩

/-- Back to the version that was read before, but past all that were written since. -/
theorem Follows.rewind {a b : Option Versions} (h : Follows a b) (ha : Sound a) {r w : Nat}
    {read : Option Nat} (hr : reads a = some r) (hb : b = some ⟨read, w⟩) :
    Follows a (some ⟨some r, w⟩) := by
  obtain ⟨w₀, rfl⟩ := reads_eq_some_iff.mp hr
  have hLt : r < w₀ := ha _ r rfl rfl
  have hLe : w₀ ≤ w := by
    obtain rfl | ⟨_, _, rfl, _, hOld⟩ := h
    · cases hb
      exact le_rfl
    · cases hb
      exact (hOld _ rfl).1
  refine .inr ⟨r, w, rfl, by omega, ?_⟩
  rintro _ ⟨⟩
  refine ⟨hLe, ?_⟩
  rintro _ ⟨⟩
  exact le_rfl

theorem Follows.eq_none {a b : Option Versions} (h : Follows a b) (hb : b = none) : a = none := by
  obtain rfl | ⟨r, w, rfl, _⟩ := h
  · exact hb
  · cases hb

theorem Follows.exists_of_ne {a b : Option Versions} (h : Follows a b) (hNe : b ≠ a) :
    ∃ r w, b = some ⟨some r, w⟩ ∧ r < w ∧
      ∀ v, a = some v → v.write ≤ w ∧ ∀ old, v.read = some old → old ≤ r :=
  h.resolve_left hNe

end Versions

namespace Scope

open Versions

def reads (s : Scope) (x : Symbol) : Option Nat := Versions.reads (s.get? x)

theorem readVersion?_eq_some {s : Scope} {x : Symbol} {version : Nat}
    (h : s.readVersion? x = some version) : version = (s.reads x).getD 0 := by
  obtain ⟨v, hv, rfl⟩ := Option.map_eq_some_iff.mp h
  simp [reads, Versions.reads, hv]

/-- `s'` may come after `s`, as far as the variables in `X` go. -/
def Follows (X : Set Symbol) (s s' : Scope) : Prop :=
  ∀ x ∈ X, Versions.Follows (s.get? x) (s'.get? x)

def Sound (X : Set Symbol) (s : Scope) : Prop := ∀ x ∈ X, Versions.Sound (s.get? x)

theorem Follows.refl (X : Set Symbol) (s : Scope) : Follows X s s := fun _ _ => .refl _

theorem Follows.trans {X : Set Symbol} {s t u : Scope} (h : Follows X s t) (h' : Follows X t u) :
    Follows X s u := fun x hx => (h x hx).trans (h' x hx)

theorem Follows.sound {X : Set Symbol} {s s' : Scope} (h : Follows X s s') (hs : Sound X s) :
    Sound X s' := fun x hx => (h x hx).sound (hs x hx)

theorem reads_write (s : Scope) (x : Symbol) : (s.write x).2.reads x = some (s.write x).1 := by
  rw [reads, get?_write, if_pos rfl, write]
  cases s.get? x <;> rfl

theorem reads_write_of_ne (s : Scope) {x y : Symbol} (h : y ≠ x) :
    (s.write x).2.reads y = s.reads y := by rw [reads, get?_write, if_neg h, reads]

theorem follows_write {X : Set Symbol} {s : Scope} (hs : Sound X s) (x : Symbol) :
    Follows X s (s.write x).2 := by
  intro y hy
  rw [get?_write]
  split
  · rename_i hEq
    subst hEq
    cases hEntry : s.get? y with
    | none => exact .inr ⟨0, 1, rfl, Nat.one_pos, nofun⟩
    | some v =>
      refine .inr ⟨v.write, v.write + 1, rfl, Nat.lt_succ_self _, ?_⟩
      rintro _ ⟨⟩
      exact ⟨Nat.le_succ _, fun old hOld => (hs y hy v old hEntry hOld).le⟩
  · exact .refl _

def Bound (X : Set Symbol) (s : Scope) : Prop := ∀ x ∈ X, (s.reads x).isSome

theorem Follows.bound {X : Set Symbol} {s s' : Scope} (h : Follows X s s') (hs : Bound X s) :
    Bound X s' := by
  intro x hx
  obtain ⟨r, hr⟩ := Option.isSome_iff_exists.mp (hs x hx)
  obtain ⟨r', hr', _⟩ := (h x hx).reads_le hr
  exact Option.isSome_iff_exists.mpr ⟨r', hr'⟩

/-! ## Loops and blocks -/

theorem Follows.exists_reads {X : Set Symbol} {s s' : Scope} (h : Follows X s s')
    (hs : Bound X s) {x : Symbol} (hx : x ∈ X) :
    ∃ r r' w, s.reads x = some r ∧ s'.get? x = some ⟨some r', w⟩ ∧ r ≤ r' := by
  obtain ⟨r, hr⟩ := Option.isSome_iff_exists.mp (hs x hx)
  obtain ⟨r', hr', hLe⟩ := (h x hx).reads_le hr
  obtain ⟨w, hw⟩ := reads_eq_some_iff.mp hr'
  exact ⟨r, r', w, hr, hw, hLe⟩

theorem get?_rewindLoop {entry now : Scope} {x : Symbol} {r w : Nat} {read : Option Nat}
    (hr : entry.reads x = some r) (hw : now.get? x = some ⟨read, w⟩) :
    (rewindLoop entry now).get? x = some ⟨some r, w⟩ := by
  obtain ⟨w₀, hEntry⟩ := reads_eq_some_iff.mp hr
  simp [rewindLoop, hEntry, hw]

theorem reads_rewindLoop {X : Set Symbol} {entry now : Scope} (hBound : Bound X entry)
    (h : Follows X entry now) {x : Symbol} (hx : x ∈ X) :
    (rewindLoop entry now).reads x = entry.reads x := by
  obtain ⟨r, r', w, hr, hw, _⟩ := h.exists_reads hBound hx
  rw [reads, get?_rewindLoop hr hw, hr]
  rfl

theorem follows_rewindLoop {X : Set Symbol} {entry now : Scope} (hs : Sound X entry)
    (hBound : Bound X entry) (h : Follows X entry now) :
    Follows X entry (rewindLoop entry now) := by
  intro x hx
  obtain ⟨r, r', w, hr, hw, _⟩ := h.exists_reads hBound hx
  rw [get?_rewindLoop hr hw]
  exact (h x hx).rewind (hs x hx) hr hw

end Scope

end CoreTree

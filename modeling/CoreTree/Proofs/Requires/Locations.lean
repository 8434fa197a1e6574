import CoreTree.File.Require
import Mathlib.Data.List.Basic

/-! # Normal locations

A location is normal if its steps resolve to themselves: every `..` stands at the beginning.
The files that a request may mean are all normal, so a file that is in flight is finished under
the same location.
-/
namespace CoreTree
set_option autoImplicit false

namespace Location

/-- Steps, the last one first, in which nothing is left to resolve. -/
inductive Resolved : List Step → Prop where
  | nil : Resolved []
  | root {done : List Step} (h : Resolved done) : Resolved (.root :: done)
  | name {done : List Step} (text : String) (h : Resolved done) : Resolved (.name text :: done)
  | up {done : List Step} (h : Resolved done) (hUp : done.head? = none ∨ done.head? = some .up) :
    Resolved (.up :: done)

theorem resolved_resolve {done : List Step} (h : Resolved done) (step : Step) :
    Resolved (resolve done step) := by
  cases step with
  | root => exact .root h
  | here => exact h
  | name text => exact .name text h
  | up =>
    cases h with
    | nil => exact .up .nil (.inl rfl)
    | root h => exact .root h
    | name text h => exact h
    | up h hUp => exact .up (.up h hUp) (.inr rfl)

theorem resolve_eq_cons {step : Step} {done : List Step} (h : Resolved (step :: done)) :
    resolve done step = step :: done := by
  cases h with
  | root | name => rfl
  | up h hUp =>
    cases h with
    | nil => rfl
    | up => rfl
    | root | name => simp at hUp

theorem foldl_resolve_reverse {done : List Step} (h : Resolved done) :
    done.reverse.foldl resolve [] = done := by
  induction done with
  | nil => rfl
  | cons step done ih =>
    have hRest : Resolved done := by cases h <;> assumption
    rw [List.reverse_cons, List.foldl_append, ih hRest]
    exact resolve_eq_cons h

theorem resolved_foldl (steps : List Step) {done : List Step} (h : Resolved done) :
    Resolved (steps.foldl resolve done) := by
  induction steps generalizing done with
  | nil => exact h
  | cons step steps ih => exact ih (resolved_resolve h step)

theorem normal_eq_self {l : Location} (h : Resolved l.steps.reverse) : l.normal = l := by
  have hFold := foldl_resolve_reverse h
  rw [List.reverse_reverse] at hFold
  rw [normal, hFold, List.reverse_reverse]

theorem resolved_normal (l : Location) : Resolved l.normal.steps.reverse := by
  show Resolved (l.steps.foldl resolve []).reverse.reverse
  rw [List.reverse_reverse]
  exact resolved_foldl _ .nil

/-- An extension belongs to the last name and leaves the other steps alone. -/
theorem resolved_withExtension {l : Location} (h : Resolved l.steps.reverse) (extension : String) :
    Resolved (l.withExtension extension).steps.reverse := by
  unfold withExtension
  split
  · rename_i text hLast
    split
    · exact h
    · rw [← List.dropLast_append_getLast? _ hLast, List.reverse_append] at h
      rw [List.reverse_append]
      cases h with
      | name _ h => exact .name _ h
  · exact h

end Location

theorem normal_of_mem_candidates {requested : String} {requestedFrom : Option Location}
    {searchPaths : List Location} {file : Location}
    (h : file ∈ candidates requested requestedFrom searchPaths) : file.normal = file := by
  have hLocate : ∀ directory, (locate directory requested).normal = locate directory requested :=
    fun directory => Location.normal_eq_self
      (Location.resolved_withExtension (Location.resolved_normal _) _)
  unfold candidates at h
  split at h
  · rw [List.mem_singleton.mp h]
    exact hLocate _
  · obtain ⟨directory, _, rfl⟩ := List.mem_map.mp h
    exact hLocate directory

end CoreTree

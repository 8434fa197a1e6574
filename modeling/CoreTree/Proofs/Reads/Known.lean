import CoreTree.Proofs.Preservation
import CoreTree.Proofs.Versions.Growth
import Mathlib.Data.Finset.SDiff

/-! # The names that a scope knows

What becomes of them, whatever becomes of the versions. Where branches meet, the names are known
that are known at the end of the last branch, because each branch starts with what the one before
it ended with. A loop and a block put versions back, and a block forgets its parameters.
-/
namespace CoreTree
set_option autoImplicit false

namespace Scope

def known (s : Scope) : Finset Symbol := s.keys.toFinset

theorem mem_known_iff {s : Scope} {x : Symbol} : x ∈ s.known ↔ (s.get? x).isSome := by
  rw [known, List.mem_toFinset, SymbolMap.mem_keys_iff]

theorem not_mem_known_iff {s : Scope} {x : Symbol} : x ∉ s.known ↔ s.get? x = none := by
  rw [mem_known_iff, Option.not_isSome_iff_eq_none]

theorem known_empty : known .empty = ∅ := rfl

theorem known_write (s : Scope) (x : Symbol) : (s.write x).2.known = insert x s.known := by
  ext y
  rw [mem_known_iff, get?_write, Finset.mem_insert, mem_known_iff]
  by_cases hy : y = x <;> simp [hy]

theorem known_map (s : Scope) (f : Symbol → Versions → Versions) : known (s.map f) = s.known := by
  ext x
  rw [mem_known_iff, SymbolMap.get?_map, mem_known_iff, Option.isSome_map]

theorem known_elseStart (before s : Scope) : (elseStart before s).known = s.known := known_map s _

theorem known_rewindLoop (entry now : Scope) : (rewindLoop entry now).known = now.known :=
  known_map now _

theorem known_rewindBlock (now : Scope) (bridges : List Bridge) :
    (rewindBlock now bridges).known = now.known := known_map now _

theorem known_bindParams (s : Scope) (params : List Symbol) :
    (bindParams s params).2.known = s.known ∪ params.toFinset := by
  ext x
  rw [mem_known_iff, get?_bindParams, Finset.mem_union, List.mem_toFinset, mem_known_iff]
  by_cases hx : x ∈ params <;> simp [hx]

theorem known_unbindParams {s body : Scope} (h : s.known ⊆ body.known) (params : List Symbol) :
    (unbindParams body (bindParams s params).1).known =
      body.known \ (params.toFinset \ s.known) := by
  ext x
  rw [mem_known_iff, get?_unbindParams_bindParams, Finset.mem_sdiff, Finset.mem_sdiff,
    List.mem_toFinset]
  by_cases hx : x ∈ params
  · rw [if_pos hx, ← mem_known_iff]
    exact ⟨fun hs => ⟨h hs, fun hNot => hNot.2 hs⟩, fun hBody => by simpa [hx] using hBody.2⟩
  · simp [hx, mem_known_iff]

theorem known_ofParams (params : List Symbol) : (ofParams params).known = params.toFinset := by
  ext x
  rw [mem_known_iff, get?_ofParams, List.mem_toFinset]
  split <;> simp_all

/-! ## Joins -/

variable {before elseStart : Scope} {thenEnd elseEnd : Option Scope}

open BranchEnds (joinOf)

/-- A variable that only the else branch came to know has the entry of that branch. -/
theorem isSome_joinOf_versions {s e : Scope} {x : Symbol} (hBefore : x ∉ before.known)
    (hThen : x ∉ s.known) (hStart : x ∉ elseStart.known) (hElse : x ∈ e.known) :
    (joinOf before (some s) elseStart (some e) x).versions.isSome := by
  rw [not_mem_known_iff] at hBefore hThen hStart
  obtain ⟨written, hWritten⟩ := Option.isSome_iff_exists.mp (mem_known_iff.mp hElse)
  simp only [joinOf, Option.elim_some, Option.isSome_some, reduceIte, hBefore, hThen, hStart,
    hWritten, VariableJoin.of, reduceCtorEq]
  unfold VariableJoin.oneSided
  split <;> rfl

theorem known_joinBranches (hThen : ∀ s, thenEnd = some s → before.known ⊆ s.known)
    (hStart : elseStart.known = (thenEnd.getD before).known)
    (hElse : ∀ s, elseEnd = some s → elseStart.known ⊆ s.known) :
    (joinBranches before thenEnd elseStart elseEnd).scope.known =
      ((elseEnd <|> thenEnd).getD before).known := by
  have hBefore : before.known ⊆ (thenEnd.getD before).known := by
    cases thenEnd with
    | none => exact subset_rfl
    | some s => exact hThen s rfl
  have hLast : (thenEnd.getD before).known ⊆ ((elseEnd <|> thenEnd).getD before).known := by
    cases elseEnd with
    | none => exact subset_rfl
    | some e => exact hStart ▸ hElse e rfl
  ext x
  rw [mem_known_iff, get?_joinBranches, Option.isSome_or, Bool.or_eq_true, ← mem_known_iff]
  constructor
  · rintro (hVersions | hx)
    · have hKnown : x ∈ knownVariables before thenEnd elseEnd := by
        by_contra hNot
        rw [joinOf_eq_of_not_mem hNot] at hVersions
        cases hVersions
      obtain hx | ⟨s, rfl, hx⟩ | ⟨e, rfl, hx⟩ := mem_knownVariables_iff.mp hKnown
      · exact hLast (hBefore (List.mem_toFinset.mpr hx))
      · exact hLast (List.mem_toFinset.mpr hx)
      · exact List.mem_toFinset.mpr hx
    · cases thenEnd with
      | none => cases elseEnd <;> exact hx
      | some s => exact hLast hx
  · intro hx
    cases elseEnd with
    | none => cases thenEnd <;> exact .inr hx
    | some e =>
      cases thenEnd with
      | none => exact .inr hx
      | some s =>
        -- the join goes on from the end of the then branch
        by_cases hs : x ∈ s.known
        · exact .inr hs
        · exact .inl (isSome_joinOf_versions (fun h => hs (hBefore h)) hs (hStart ▸ hs) hx)

end Scope

end CoreTree

import CoreTree.Proofs.Versions.Growth
import Mathlib.Data.List.Nodup

/-! # Versions of straight code

Code without loops and blocks never goes back: a variable that it touches reads a version that
was not there before. So the versions that a path assigns lie between the next versions at its
two ends, and a bridge writes one that its own branch did not write.
-/
namespace CoreTree
set_option autoImplicit false

namespace Versions

/-- Untouched, or read in a version that is new. -/
def Renews (a b : Option Versions) : Prop :=
  b = a ∨ ∃ r w, b = some ⟨some r, w⟩ ∧ next a ≤ r ∧ r < w

variable {a b c : Option Versions}

theorem Renews.refl (a : Option Versions) : Renews a a := .inl rfl

theorem Renews.next_le (h : Renews a b) : next a ≤ next b := by
  obtain rfl | ⟨r, w, rfl, hLe, hLt⟩ := h
  · exact le_rfl
  · exact hLe.trans hLt.le

theorem Renews.trans (h : Renews a b) (h' : Renews b c) : Renews a c := by
  obtain rfl | ⟨r, w, rfl, hLe, hLt⟩ := h'
  · exact h
  · exact .inr ⟨r, w, rfl, h.next_le.trans hLe, hLt⟩

theorem Renews.sound (h : Renews a b) (ha : Sound a) : Sound b := by
  obtain rfl | ⟨r, w, rfl, -, hLt⟩ := h
  · exact ha
  · rintro _ _ ⟨⟩ ⟨⟩
    exact hLt

/-- What was not known before is read past what was. -/
theorem Renews.follows (h : Renews a b) (ha : Sound a) : Follows a b := by
  obtain rfl | ⟨r, w, rfl, hLe, hLt⟩ := h
  · exact .refl _
  · refine .inr ⟨r, w, rfl, hLt, ?_⟩
    rintro v rfl
    have hLe : v.write ≤ r := hLe
    exact ⟨hLe.trans hLt.le, fun old hOld => (ha v old rfl hOld).le.trans hLe⟩

theorem lt_next_of_reads {r : Nat} (ha : Sound a) (hr : reads a = some r) : r < next a := by
  obtain ⟨w, rfl⟩ := reads_eq_some_iff.mp hr
  exact ha _ r rfl rfl

end Versions

namespace VariableJoin

open Versions

/-- The joined entry is new to both branches, and so is what a bridge writes to its branch. -/
structure Renewal (before thenEnd elseStart elseEnd : Option Versions) (j : VariableJoin)
    (joined : Option Versions) : Prop where
  renews : Renews before joined
  fromThen : next thenEnd ≤ next joined
  fromElse : next elseEnd ≤ next joined
  thenTarget : ∀ b, j.thenBridge = some b → next before ≤ b.target ∧ b.target < next joined ∧
    (thenEnd = before ∨ next thenEnd ≤ b.target)
  elseTarget : ∀ b, j.elseBridge = some b → next before ≤ b.target ∧ b.target < next joined ∧
    (elseEnd = elseStart ∨ next elseEnd ≤ b.target)

theorem renewal_of (name : Symbol) {before thenEnd elseStart elseEnd base : Option Versions}
    (hThen : Renews before thenEnd) (hElse : Renews elseStart elseEnd)
    (hMid : elseEnd ≠ elseStart → next thenEnd ≤ next elseStart)
    (hBack : elseEnd = elseStart → next elseStart ≤ next thenEnd)
    (hBase : base = thenEnd ∨ base = elseEnd ∧ elseStart = before) :
    Renewal before thenEnd elseStart elseEnd (of name before thenEnd elseStart elseEnd)
      ((of name before thenEnd elseStart elseEnd).versions.or base) := by
  have hWrite : ∀ (w : Nat) (other : Option Versions),
      w ≤ other.elim w fun v => max w v.write := by
    intro w other
    cases other with
    | none => exact le_rfl
    | some v => exact le_max_left _ _
  have hOther : ∀ (w : Nat) (other : Option Versions),
      next other ≤ other.elim w fun v => max w v.write := by
    intro w other
    cases other with
    | none => exact Nat.zero_le _
    | some v => exact le_max_right _ _
  have hArises := arises_of name before thenEnd elseStart elseEnd
  generalize of name before thenEnd elseStart elseEnd = join at hArises ⊢
  cases hArises with
  | neither hThenEq hElseEq =>
    subst hThenEq hElseEq
    obtain rfl | ⟨rfl, rfl⟩ := hBase
    · exact ⟨.refl _, le_rfl, hBack rfl, by simp, by simp⟩
    · exact ⟨.refl _, le_rfl, le_rfl, by simp, by simp⟩
  | lostThen hNe hEnd =>
    obtain ⟨r, w, hSome, -⟩ := hThen.resolve_left hNe
    cases hEnd.symm.trans hSome
  | lostElse hNe hEnd =>
    obtain ⟨r, w, hSome, -⟩ := hElse.resolve_left hNe
    cases hEnd.symm.trans hSome
  | onlyElse hThenEq hElseEq hEnd =>
    subst hThenEq
    have hNext := hMid hElseEq
    obtain ⟨r, w, rfl, hLe, hLt⟩ := hElse.resolve_left hElseEq
    cases hEnd
    simp only [oneSided]
    refine ⟨.inr ⟨r, _, rfl, hNext.trans hLe, lt_of_lt_of_le hLt (hWrite w thenEnd)⟩,
      hOther w thenEnd, hWrite w thenEnd, fun b hb => ?_, by simp⟩
    rw [target_of_between? hb]
    exact ⟨hNext.trans hLe, lt_of_lt_of_le hLt (hWrite w thenEnd), .inl rfl⟩
  | onlyThen hThenEq hElseEq hEnd =>
    obtain ⟨r, w, rfl, hLe, hLt⟩ := hThen.resolve_left hThenEq
    cases hEnd
    subst hElseEq
    simp only [oneSided]
    refine ⟨.inr ⟨r, _, rfl, hLe, lt_of_lt_of_le hLt (hWrite w elseEnd)⟩, hWrite w elseEnd,
      hOther w elseEnd, by simp, fun b hb => ?_⟩
    rw [target_of_between? hb]
    exact ⟨hLe, lt_of_lt_of_le hLt (hWrite w elseEnd), .inl rfl⟩
  | both hThenEq hElseEq hThenEnd hElseEnd =>
    obtain ⟨r, w, rfl, hLe, hLt⟩ := hThen.resolve_left hThenEq
    obtain ⟨r', w', rfl, -, hLt'⟩ := hElse.resolve_left hElseEq
    cases hThenEnd
    cases hElseEnd
    have hMax : next before ≤ max w w' := hLe.trans (hLt.le.trans (le_max_left _ _))
    simp only [twoSided]
    refine ⟨.inr ⟨max w w', _, rfl, hMax, Nat.lt_succ_self _⟩,
      (le_max_left _ _).trans (Nat.le_succ _), (le_max_right _ _).trans (Nat.le_succ _),
      fun b hb => ?_, fun b hb => ?_⟩
    · rw [target_of_between? hb]
      exact ⟨hMax, Nat.lt_succ_self _, .inr (le_max_left _ _)⟩
    · rw [target_of_between? hb]
      exact ⟨hMax, Nat.lt_succ_self _, .inr (le_max_right _ _)⟩

end VariableJoin

/-! ## Versions between two ends -/

/-- The versions are told apart and lie between the next ones at both ends. -/
def Fits (low high : Symbol → Nat) (cells : List (Symbol × Nat)) : Prop :=
  cells.Nodup ∧ ∀ c ∈ cells, low c.1 ≤ c.2 ∧ c.2 < high c.1

section

variable {low mid high low' high' : Symbol → Nat} {cells cells' : List (Symbol × Nat)}

theorem fits_nil (low high : Symbol → Nat) : Fits low high [] := ⟨.nil, nofun⟩

theorem Fits.widen (h : Fits low high cells) (hLow : ∀ x, low' x ≤ low x)
    (hHigh : ∀ x, high x ≤ high' x) : Fits low' high' cells :=
  ⟨h.1, fun c hc => ⟨(hLow c.1).trans (h.2 c hc).1, (h.2 c hc).2.trans_le (hHigh c.1)⟩⟩

theorem Fits.perm (h : Fits low high cells) (hPerm : cells'.Perm cells) : Fits low high cells' :=
  ⟨hPerm.nodup_iff.mpr h.1, fun c hc => h.2 c (hPerm.mem_iff.mp hc)⟩

theorem Fits.append (h : Fits low mid cells) (h' : Fits mid high cells')
    (hLow : ∀ x, low x ≤ mid x) (hHigh : ∀ x, mid x ≤ high x) :
    Fits low high (cells ++ cells') := by
  refine ⟨List.nodup_append.mpr ⟨h.1, h'.1, ?_⟩, fun c hc => ?_⟩
  · rintro c hc _ hc' rfl
    exact absurd (h.2 c hc).2 (h'.2 c hc').1.not_gt
  · obtain hc | hc := List.mem_append.mp hc
    · exact ⟨(h.2 c hc).1, (h.2 c hc).2.trans_le (hHigh c.1)⟩
    · exact ⟨(hLow c.1).trans (h'.2 c hc).1, (h'.2 c hc).2⟩

end

/-- The version that a bridge writes. -/
def Bridge.cell (b : Bridge) : Symbol × Nat := (b.name, b.target)

/-- Bridges at the end of a branch: at most one for each variable, to a version between `low` and
`high` that is past all that the branch assigned. -/
structure Tops (start ended low high : Symbol → Nat) (bridges : List Bridge) : Prop where
  names : (bridges.map (·.name)).Nodup
  between : ∀ b ∈ bridges, low b.name ≤ b.target ∧ b.target < high b.name
  past : ∀ b ∈ bridges, ended b.name ≤ start b.name ∨ ended b.name ≤ b.target

theorem Tops.lt_target {start ended low high : Symbol → Nat} {bridges : List Bridge}
    (h : Tops start ended low high bridges) {b : Bridge} (hb : b ∈ bridges) {version : Nat}
    (hLow : start b.name ≤ version) (hHigh : version < ended b.name) : version < b.target := by
  obtain hUntouched | hPast := h.past b hb
  · exact absurd hHigh (hUntouched.trans hLow).not_gt
  · exact hHigh.trans_le hPast

theorem Fits.topped {start ended low high : Symbol → Nat} {cells : List (Symbol × Nat)}
    {bridges : List Bridge} (h : Fits start ended cells) (hTops : Tops start ended low high bridges)
    (hStart : ∀ x, low x ≤ start x) (hEnded : ∀ x, ended x ≤ high x) :
    Fits low high (cells ++ bridges.map Bridge.cell) := by
  have hNodup : (bridges.map Bridge.cell).Nodup :=
    List.Nodup.of_map Prod.fst (by rw [List.map_map]; exact hTops.names)
  refine ⟨List.nodup_append.mpr ⟨h.1, hNodup, ?_⟩, fun c hc => ?_⟩
  · rintro c hc _ hc' rfl
    obtain ⟨b, hb, rfl⟩ := List.mem_map.mp hc'
    exact lt_irrefl _ (hTops.lt_target hb (h.2 _ hc).1 (h.2 _ hc).2)
  · obtain hc | hc := List.mem_append.mp hc
    · exact ⟨(hStart c.1).trans (h.2 c hc).1, (h.2 c hc).2.trans_le (hEnded c.1)⟩
    · obtain ⟨b, hb, rfl⟩ := List.mem_map.mp hc
      exact hTops.between b hb

/-- Variables that are told apart have bridges that are told apart. -/
theorem nodup_names_filterMap {names : List Symbol} {bridge : Symbol → Option Bridge}
    (hNames : names.Nodup) (hName : ∀ x b, bridge x = some b → b.name = x) :
    ((names.filterMap bridge).map (·.name)).Nodup := by
  refine List.Sublist.nodup ?_ hNames
  clear hNames
  induction names with
  | nil => exact .slnil
  | cons x xs ih =>
    cases hb : bridge x with
    | none =>
      rw [List.filterMap_cons_none hb]
      exact ih.cons x
    | some b =>
      rw [List.filterMap_cons_some hb, List.map_cons, hName x b hb]
      exact ih.cons_cons x

theorem SymbolMap.nodup_keys {α : Type} (m : SymbolMap α) : m.keys.Nodup := by
  refine List.pairwise_map.mpr (m.ascending.imp fun hLt hEq => ?_)
  rw [hEq] at hLt
  exact lt_irrefl _ hLt

namespace Scope

open BranchEnds (joinOf)

def Renews (s s' : Scope) : Prop := ∀ x, Versions.Renews (s.get? x) (s'.get? x)

variable {s s' t before elseStart : Scope} {thenEnd elseEnd : Option Scope}

theorem Renews.refl (s : Scope) : s.Renews s := fun _ => .refl _

theorem Renews.trans (h : s.Renews s') (h' : s'.Renews t) : s.Renews t := fun x =>
  (h x).trans (h' x)

theorem Renews.next_le (h : s.Renews s') (x : Symbol) : s.next x ≤ s'.next x := (h x).next_le

theorem Renews.allSound (h : s.Renews s') (hs : s.AllSound) : s'.AllSound := fun x hx =>
  (h x).sound (hs x hx)

theorem renews_write (s : Scope) (x : Symbol) : s.Renews (s.write x).2 := by
  intro y
  rw [get?_write]
  split
  · rename_i hEq
    subst hEq
    cases s.get? y with
    | none => exact .inr ⟨0, 1, rfl, le_rfl, Nat.one_pos⟩
    | some v => exact .inr ⟨v.write, v.write + 1, rfl, le_rfl, Nat.lt_succ_self _⟩
  · exact .refl _

theorem next_elseStart (before s : Scope) (x : Symbol) :
    (Scope.elseStart before s).next x = s.next x := by
  unfold next
  rw [get?_elseStart]
  cases s.get? x <;> rfl

/-- The ends of two straight branches as the join sees them. -/
structure BranchesRenew (before : Scope) (thenEnd : Option Scope) (elseStart : Scope)
    (elseEnd : Option Scope) : Prop where
  thenRenews : ∀ s, thenEnd = some s → before.Renews s
  elseStarts : elseStart = thenEnd.elim before (Scope.elseStart before)
  elseRenews : ∀ s, elseEnd = some s → elseStart.Renews s

namespace BranchesRenew

theorem renewal (h : BranchesRenew before thenEnd elseStart elseEnd) (x : Symbol) :
    let otherStart := if elseEnd.isSome then elseStart.get? x else before.get? x
    VariableJoin.Renewal (before.get? x) (thenEnd.elim (before.get? x) (·.get? x)) otherStart
      (elseEnd.elim otherStart (·.get? x)) (joinOf before thenEnd elseStart elseEnd x)
      ((joinBranches before thenEnd elseStart elseEnd).scope.get? x) := by
  intro otherStart
  rw [get?_joinBranches]
  cases thenEnd with
  | none =>
    obtain rfl : elseStart = before := h.elseStarts
    cases elseEnd with
    | none =>
      exact VariableJoin.renewal_of x (.refl _) (.refl _) nofun (fun _ => le_rfl) (.inl rfl)
    | some e =>
      exact VariableJoin.renewal_of x (.refl _) (h.elseRenews e rfl x) (fun _ => le_rfl)
        (fun _ => le_rfl) (.inr ⟨rfl, rfl⟩)
  | some s =>
    have hNext : elseStart.next x = s.next x := by rw [h.elseStarts]; exact next_elseStart ..
    have hThen := h.thenRenews s rfl
    cases elseEnd with
    | none =>
      exact VariableJoin.renewal_of x (hThen x) (.refl _) nofun (fun _ => hThen.next_le x)
        (.inl rfl)
    | some e =>
      exact VariableJoin.renewal_of x (hThen x) (h.elseRenews e rfl x) (fun _ => hNext.ge)
        (fun _ => hNext.le) (.inl rfl)

theorem renews (h : BranchesRenew before thenEnd elseStart elseEnd) :
    before.Renews (joinBranches before thenEnd elseStart elseEnd).scope := fun x =>
  (h.renewal x).renews

theorem next_le_join (h : BranchesRenew before thenEnd elseStart elseEnd) (x : Symbol) :
    (thenEnd.getD before).next x ≤ (joinBranches before thenEnd elseStart elseEnd).scope.next x ∧
      (elseEnd.getD before).next x ≤
        (joinBranches before thenEnd elseStart elseEnd).scope.next x := by
  have hRenewal := h.renewal x
  refine ⟨?_, ?_⟩
  · cases thenEnd with
    | none => exact hRenewal.fromThen
    | some s => exact hRenewal.fromThen
  · cases elseEnd with
    | none => exact hRenewal.fromElse
    | some s => exact hRenewal.fromElse

theorem then_tops (h : BranchesRenew before thenEnd elseStart elseEnd) :
    let join := joinBranches before thenEnd elseStart elseEnd
    Tops before.next (thenEnd.getD before).next before.next join.scope.next join.thenBridges := by
  refine ⟨?_, fun b hb => ?_, fun b hb => ?_⟩
  · rw [thenBridges_eq]
    exact nodup_names_filterMap (SymbolMap.nodup_keys _)
      fun x b hb => VariableJoin.name_of_bridge (.inl hb)
  · obtain ⟨hLow, hHigh, -⟩ := (h.renewal b.name).thenTarget b (mem_thenBridges_iff.mp hb)
    exact ⟨hLow, hHigh⟩
  · obtain ⟨-, -, hSame | hPast⟩ := (h.renewal b.name).thenTarget b (mem_thenBridges_iff.mp hb)
    · refine .inl (le_of_eq ?_)
      cases thenEnd with
      | none => rfl
      | some s => exact congrArg Versions.next hSame
    · refine .inr ?_
      cases thenEnd <;> exact hPast

theorem else_tops (h : BranchesRenew before thenEnd elseStart elseEnd) :
    let join := joinBranches before thenEnd elseStart elseEnd
    Tops elseStart.next (elseEnd.getD elseStart).next before.next join.scope.next
      join.elseBridges := by
  refine ⟨?_, fun b hb => ?_, fun b hb => ?_⟩
  · rw [elseBridges_eq]
    exact nodup_names_filterMap (SymbolMap.nodup_keys _)
      fun x b hb => VariableJoin.name_of_bridge (.inr hb)
  · obtain ⟨hLow, hHigh, -⟩ := (h.renewal b.name).elseTarget b (mem_elseBridges_iff.mp hb)
    exact ⟨hLow, hHigh⟩
  · cases elseEnd with
    | none => exact .inl le_rfl
    | some e =>
      obtain ⟨-, -, hSame | hPast⟩ := (h.renewal b.name).elseTarget b (mem_elseBridges_iff.mp hb)
      · exact .inl (le_of_eq (congrArg Versions.next hSame))
      · exact .inr hPast

/-- The else branch starts and ends between the scopes around the conditional. -/
theorem else_between (h : BranchesRenew before thenEnd elseStart elseEnd) (x : Symbol) :
    before.next x ≤ elseStart.next x ∧ (elseEnd.getD elseStart).next x ≤
      (joinBranches before thenEnd elseStart elseEnd).scope.next x := by
  obtain ⟨hThen, hElse⟩ := h.next_le_join x
  cases thenEnd with
  | none =>
    obtain rfl : elseStart = before := h.elseStarts
    exact ⟨le_rfl, hElse⟩
  | some s =>
    have hNext : elseStart.next x = s.next x := by rw [h.elseStarts]; exact next_elseStart ..
    refine ⟨hNext ▸ (h.thenRenews s rfl).next_le x, ?_⟩
    cases elseEnd with
    | none => exact hNext ▸ hThen
    | some e => exact hElse

theorem ends (h : BranchesRenew before thenEnd elseStart elseEnd) (hSound : before.AllSound) :
    BranchEnds Set.univ before thenEnd elseStart none := by
  refine ⟨fun x _ => ?_, h.elseStarts, nofun⟩
  cases thenEnd with
  | none => exact .refl _
  | some s => exact (h.thenRenews s rfl x).follows (hSound x trivial)

theorem elseSound (h : BranchesRenew before thenEnd elseStart elseEnd)
    (hSound : before.AllSound) : elseStart.AllSound := (h.ends hSound).sound_elseStart hSound

/-- What a bridge copies is older than what it writes. -/
theorem source_lt_target (h : BranchesRenew before thenEnd elseStart elseEnd)
    (hSound : before.AllSound) {b : Bridge}
    (hb : b ∈ (joinBranches before thenEnd elseStart elseEnd).thenBridges ++
      (joinBranches before thenEnd elseStart elseEnd).elseBridges) {version : Nat}
    (hSource : b.source = some version) : version < b.target := by
  have hRenewal := h.renewal b.name
  have hStart := hSound b.name trivial
  obtain hb | hb := List.mem_append.mp hb
  · have hBridge := mem_thenBridges_iff.mp hb
    have hReads := (VariableJoin.source_of_bridge.1 hBridge).symm.trans hSource
    obtain ⟨hLow, -, hSame | hPast⟩ := hRenewal.thenTarget b hBridge
    · rw [hSame] at hReads
      exact (Versions.lt_next_of_reads hStart hReads).trans_le hLow
    · refine (Versions.lt_next_of_reads ?_ hReads).trans_le hPast
      cases thenEnd with
      | none => exact hStart
      | some s => exact (h.thenRenews s rfl b.name).sound hStart
  · have hBridge := mem_elseBridges_iff.mp hb
    have hReads := (VariableJoin.source_of_bridge.2 hBridge).symm.trans hSource
    obtain ⟨hLow, -, hSame | hPast⟩ := hRenewal.elseTarget b hBridge
    · rw [hSame] at hReads
      refine (Versions.lt_next_of_reads hStart ?_).trans_le hLow
      cases elseEnd with
      | none => exact hReads
      | some e => exact ((h.ends hSound).reads_elseStart (Set.mem_univ _)).symm.trans hReads
    · refine (Versions.lt_next_of_reads ?_ hReads).trans_le hPast
      cases elseEnd with
      | none => exact hStart
      | some e => exact (h.elseRenews e rfl b.name).sound (h.elseSound hSound _ trivial)

end BranchesRenew

end Scope

end CoreTree

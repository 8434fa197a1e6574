import CoreTree.Proofs.Versions.Order

/-! # Where paths meet

A path that ends in one scope and runs some bridges arrives in another scope if every
variable is either bridged to the version that the other scope reads, or read alike in both.
Both branches of a conditional arrive in the joined scope, and the body of a loop or a block
arrives in the scope it started from.
-/
namespace CoreTree
set_option autoImplicit false

namespace SymbolMap

variable {α : Type}

theorem get?_foldl_insert (key : Symbol) (l : List (Symbol × α)) (m : SymbolMap α)
    (h : l.Pairwise (fun a b => a.1.id < b.1.id)) :
    (l.foldl (fun m e => m.insert e.1 e.2) m).get? key = (lookup key l).or (m.get? key) := by
  induction l generalizing m with
  | nil => rfl
  | cons e rest ih =>
    obtain ⟨hHead, hRest⟩ := List.pairwise_cons.mp h
    rw [List.foldl_cons, ih _ hRest, get?_insert, lookup]
    by_cases hKey : e.1 = key
    · subst hKey
      simp [lookup_eq_none_of_lt hHead]
    · simp [hKey, Ne.symm hKey]

theorem get?_overlay (m n : SymbolMap α) (key : Symbol) :
    (m.overlay n).get? key = (n.get? key).or (m.get? key) :=
  get?_foldl_insert key n.entries m n.ascending

end SymbolMap

namespace Scope

open Versions

/-- `bridges` take a path that ends in `s` to `joined`. -/
structure Meets (X : Set Symbol) (s : Scope) (bridges : List Bridge) (joined : Scope) : Prop where
  carried : ∀ b ∈ bridges, b.name ∈ X → b.source = s.reads b.name ∧ b.source ≠ some b.target
  lands : ∀ x ∈ X, (∃ b ∈ bridges, b.name = x ∧ joined.reads x = some b.target) ∨
    ((∀ b ∈ bridges, b.name ≠ x) ∧ joined.reads x = s.reads x)

/-! ## Back to the beginning -/

theorem mem_loopBridges_iff {entry now : Scope} {b : Bridge} :
    b ∈ loopBridges entry now ↔ ∃ target source, entry.reads b.name = some target ∧
      now.reads b.name = some source ∧ target < source ∧ b = ⟨b.name, target, some source⟩ := by
  simp only [loopBridges, List.mem_filterMap, Prod.exists, SymbolMap.mem_entries_iff]
  constructor
  · rintro ⟨x, current, hNow, hBridge⟩
    split at hBridge
    · rename_i target source hEntry hSource
      split at hBridge
      · rename_i hLt
        cases hBridge
        refine ⟨target, source, hEntry, ?_, hLt, rfl⟩
        rw [reads, hNow]
        exact hSource
      · cases hBridge
    · cases hBridge
  · rintro ⟨target, source, hEntry, hNow, hLt, hb⟩
    obtain ⟨w, hw⟩ := reads_eq_some_iff.mp hNow
    refine ⟨b.name, ⟨some source, w⟩, hw, ?_⟩
    have hEntry : (entry.get? b.name).bind (·.read) = some target := hEntry
    simp only [hEntry, if_pos hLt, Option.some.injEq]
    exact hb.symm

theorem carried_of_mem_loopBridges {entry now : Scope} {b : Bridge}
    (h : b ∈ loopBridges entry now) : b.source = now.reads b.name ∧ b.source ≠ some b.target := by
  obtain ⟨target, source, _, hNow, hLt, hb⟩ := mem_loopBridges_iff.mp h
  rw [hb]
  exact ⟨hNow.symm, fun hEq => hLt.ne' (Option.some.inj hEq)⟩

/-- No bridge leads back to a version that is as late as the one that is read now. -/
theorem name_ne_of_mem_loopBridges {entry now : Scope} {x : Symbol} {r r' : Nat}
    (hr : entry.reads x = some r) (hr' : now.reads x = some r') (hLe : r' ≤ r) :
    ∀ b ∈ loopBridges entry now, b.name ≠ x := by
  rintro b hb rfl
  obtain ⟨target, source, hTarget, hSource, hLt, _⟩ := mem_loopBridges_iff.mp hb
  have hTarget : target = r := Option.some.inj (hTarget.symm.trans hr)
  have hSource : source = r' := Option.some.inj (hSource.symm.trans hr')
  omega

/-- The end of a loop body meets the loop's test, wherever in test or body a variable moved. -/
theorem meets_loop {X : Set Symbol} {beforeTest entry now : Scope} (hBound : Bound X beforeTest)
    (hTest : Follows X beforeTest entry) (hBody : Follows X entry now) :
    Meets X now (loopBridges entry now ++
      (loopBridges beforeTest now).filter (!(loopBridges entry now).contains ·)) beforeTest where
  carried b hb _ := by
    rcases List.mem_append.mp hb with hb | hb
    · exact carried_of_mem_loopBridges hb
    · exact carried_of_mem_loopBridges (List.mem_filter.mp hb).1
  lands x hx := by
    obtain ⟨r, hr⟩ := Option.isSome_iff_exists.mp (hBound x hx)
    obtain ⟨r', hr', hLe⟩ := (hTest x hx).reads_le hr
    obtain ⟨r'', hr'', hLe'⟩ := (hBody x hx).reads_le hr'
    by_cases hLt : r < r''
    · -- one bridge leads all the way back, and stands in one of the two lists
      left
      have hMem : (⟨x, r, some r''⟩ : Bridge) ∈ loopBridges beforeTest now :=
        mem_loopBridges_iff.mpr ⟨r, r'', hr, hr'', hLt, rfl⟩
      refine ⟨⟨x, r, some r''⟩, List.mem_append.mpr ?_, rfl, hr⟩
      by_cases hBodyMem : (⟨x, r, some r''⟩ : Bridge) ∈ loopBridges entry now
      · exact .inl hBodyMem
      · exact .inr (List.mem_filter.mpr ⟨hMem, by simpa using hBodyMem⟩)
    · right
      have hEq : r = r'' := by omega
      subst hEq
      constructor
      · intro b hb
        rcases List.mem_append.mp hb with hb | hb
        · exact name_ne_of_mem_loopBridges hr' hr'' hLe b hb
        · exact name_ne_of_mem_loopBridges hr hr'' le_rfl b (List.mem_filter.mp hb).1
      · exact hr.trans hr''.symm

/-! ## Blocks -/

/-- The entry that a parameter hides, or that of any other variable. -/
theorem get?_unbindParams_bindParams (s body : Scope) (params : List Symbol) (x : Symbol) :
    (unbindParams body (bindParams s params).1).get? x =
      if x ∈ params then s.get? x else body.get? x := by
  induction params generalizing s with
  | nil => simp [bindParams, unbindParams]
  | cons p ps ih =>
    let inner := unbindParams body (bindParams (s.insert p .fresh) ps).1
    have hStep : unbindParams body (bindParams s (p :: ps)).1 =
        (s.get? p).elim (inner.erase p) (inner.insert p) := by
      cases hp : s.get? p <;> simp [bindParams, unbindParams, hp, inner]
    rw [hStep]
    by_cases hx : x = p
    · subst hx
      cases hp : s.get? x with
      | none => simp [SymbolMap.get?_erase]
      | some v => simp [SymbolMap.get?_insert]
    · have hRest : inner.get? x = _ := ih (s.insert p .fresh)
      rw [SymbolMap.get?_insert, if_neg hx] at hRest
      cases hp : s.get? p with
      | none => simp [SymbolMap.get?_erase, hx, hRest]
      | some v => simp [SymbolMap.get?_insert, hx, hRest]

theorem get?_bindParams (s : Scope) (params : List Symbol) (x : Symbol) :
    (bindParams s params).2.get? x = if x ∈ params then some .fresh else s.get? x := by
  induction params generalizing s with
  | nil => simp [bindParams]
  | cons p ps ih =>
    show (bindParams (s.insert p .fresh) ps).2.get? x = _
    rw [ih, SymbolMap.get?_insert]
    by_cases hx : x = p <;> simp [hx]

theorem get?_rewindBlock {before now : Scope} {x : Symbol} {r r' w : Nat}
    (hr : before.reads x = some r) (hw : now.get? x = some ⟨some r', w⟩) (hLe : r ≤ r') :
    (rewindBlock now (loopBridges before now)).get? x = some ⟨some r, w⟩ := by
  have hr' : now.reads x = some r' := reads_eq_some_iff.mpr ⟨w, hw⟩
  rw [rewindBlock, SymbolMap.get?_map, hw, Option.map_some]
  cases hFind : (loopBridges before now).find? (·.name == x) with
  | none =>
    -- without a bridge the variable has not moved
    have hNotLt : ¬ r < r' := fun hLt => by
      have hNo := List.find?_eq_none.mp hFind ⟨x, r, some r'⟩
        (mem_loopBridges_iff.mpr ⟨r, r', hr, hr', hLt, rfl⟩)
      simp at hNo
    have hEq : r = r' := by omega
    rw [hEq]
    rfl
  | some b =>
    have hName : b.name = x := by simpa using List.find?_some hFind
    obtain ⟨target, source, hTarget, _, _, hb⟩ :=
      mem_loopBridges_iff.mp (List.mem_of_find?_eq_some hFind)
    rw [hName, hr] at hTarget
    cases hTarget
    rw [hb]
    rfl

theorem reads_rewindBlock {X : Set Symbol} {before now : Scope} (hBound : Bound X before)
    (h : Follows X before now) {x : Symbol} (hx : x ∈ X) :
    (rewindBlock now (loopBridges before now)).reads x = before.reads x := by
  obtain ⟨r, r', w, hr, hw, hLe⟩ := h.exists_reads hBound hx
  rw [reads, get?_rewindBlock hr hw hLe, hr]
  rfl

theorem follows_rewindBlock {X : Set Symbol} {before now : Scope} (hs : Sound X before)
    (hBound : Bound X before) (h : Follows X before now) :
    Follows X before (rewindBlock now (loopBridges before now)) := by
  intro x hx
  obtain ⟨r, r', w, hr, hw, hLe⟩ := h.exists_reads hBound hx
  rw [get?_rewindBlock hr hw hLe]
  exact (h x hx).rewind (hs x hx) hr hw

/-- Parameters go back to what they hid, so no bridge of a block concerns them. -/
theorem carried_of_mem_blockBridges {before body : Scope} {params : List Symbol} {b : Bridge}
    (h : b ∈ loopBridges before (unbindParams body (bindParams before params).1)) :
    b.source = body.reads b.name ∧ b.source ≠ some b.target := by
  obtain ⟨hSource, hNe⟩ := carried_of_mem_loopBridges h
  refine ⟨?_, hNe⟩
  obtain ⟨target, source, hTarget, hNow, hLt, _⟩ := mem_loopBridges_iff.mp h
  have hName : b.name ∉ params := fun hMem => by
    rw [reads, get?_unbindParams_bindParams, if_pos hMem, ← reads, hTarget] at hNow
    cases hNow
    exact lt_irrefl _ hLt
  rw [hSource, reads, get?_unbindParams_bindParams, if_neg hName, reads]

theorem meets_block {X : Set Symbol} {before body : Scope} {params : List Symbol}
    (hBound : Bound X before) (hParams : ∀ p ∈ params, p ∉ X) (h : Follows X before body) :
    Meets X body
      (loopBridges before (unbindParams body (bindParams before params).1)) before where
  carried b hb _ := carried_of_mem_blockBridges hb
  lands x hx := by
    have hName : x ∉ params := fun hMem => hParams x hMem hx
    have hNow : (unbindParams body (bindParams before params).1).reads x = body.reads x := by
      rw [reads, get?_unbindParams_bindParams, if_neg hName, reads]
    obtain ⟨r, r', w, hr, hw, hLe⟩ := h.exists_reads hBound hx
    have hr' : body.reads x = some r' := reads_eq_some_iff.mpr ⟨w, hw⟩
    by_cases hLt : r < r'
    · exact .inl ⟨⟨x, r, some r'⟩,
        mem_loopBridges_iff.mpr ⟨r, r', hr, hNow.trans hr', hLt, rfl⟩, rfl, hr⟩
    · have hEq : r' = r := by omega
      right
      constructor
      · exact name_ne_of_mem_loopBridges hr (hNow.trans hr') hEq.le
      · exact hr.trans (hEq ▸ hr'.symm)

end Scope

end CoreTree

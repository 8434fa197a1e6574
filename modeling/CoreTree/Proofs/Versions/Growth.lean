import CoreTree.Proofs.Versions.Joining

/-! # Writes go on

The version that the next write of a variable makes never goes back, over branches, loops and
blocks alike, although what is read does. Every bridge leads to a version below it.
-/
namespace CoreTree
set_option autoImplicit false

namespace Versions

/-- The version that the next write makes. -/
def next (a : Option Versions) : Nat := a.elim 0 (·.write)

/-- The variable stays known, and its next write is none that was made. -/
def Grows (a b : Option Versions) : Prop := ∀ v, a = some v → ∃ v', b = some v' ∧ v.write ≤ v'.write

variable {a b c : Option Versions}

theorem Grows.refl (a : Option Versions) : Grows a a := fun v hv => ⟨v, hv, le_rfl⟩

theorem Grows.trans (h : Grows a b) (h' : Grows b c) : Grows a c := by
  intro v hv
  obtain ⟨v', hv', hLe⟩ := h v hv
  obtain ⟨v'', hv'', hLe'⟩ := h' v' hv'
  exact ⟨v'', hv'', hLe.trans hLe'⟩

theorem Grows.next_le (h : Grows a b) : next a ≤ next b := by
  cases a with
  | none => exact Nat.zero_le _
  | some v =>
    obtain ⟨v', rfl, hLe⟩ := h v rfl
    exact hLe

theorem Grows.eq_none (h : Grows a b) (hb : b = none) : a = none := by
  cases a with
  | none => rfl
  | some v =>
    obtain ⟨v', hv', _⟩ := h v rfl
    rw [hb] at hv'
    cases hv'

theorem grows_some {v v' : Versions} (h : v.write ≤ v'.write) : Grows (some v) (some v') := by
  rintro _ ⟨⟩
  exact ⟨v', rfl, h⟩

theorem grows_none (b : Option Versions) : Grows none b := nofun

/-- Whatever is read again was read at the start. -/
theorem Grows.sound_rewound (h : Grows a b) (ha : Sound a) {v : Versions} (hb : b = some v) :
    Sound (some ⟨reads a, v.write⟩) := by
  rintro _ r ⟨⟩ hr
  obtain ⟨w, rfl⟩ := reads_eq_some_iff.mp hr
  obtain ⟨v', hv', hLe⟩ := h _ rfl
  rw [hb] at hv'
  cases hv'
  exact lt_of_lt_of_le (ha _ r rfl rfl) hLe

end Versions

namespace VariableJoin

open Versions

/-- How the joined entry goes on from the ends of both branches, and past their bridges. -/
structure GoesOn (thenEnd elseEnd : Option Versions) (j : VariableJoin)
    (joined : Option Versions) : Prop where
  fromThen : Grows thenEnd joined
  fromElse : Grows elseEnd joined
  sound : Sound joined
  targets : ∀ b, j.thenBridge = some b ∨ j.elseBridge = some b → b.target < next joined

theorem target_of_between? {name : Symbol} {target : Nat} {source : Option Nat} {b : Bridge}
    (h : Bridge.between? name target source = some b) : b.target = target := by
  obtain ⟨_, rfl⟩ := Bridge.between?_eq_some_iff.mp h
  rfl

/-- The entry after a join of a branch that wrote the variable with one that did not. -/
theorem oneSided_goesOn (name : Symbol) {written : Versions} {other : Option Versions}
    (otherRead : Option Nat) (hSound : Sound (some written)) (hOther : Grows other (some written)) :
    let joined := (oneSided name written other otherRead).1
    Grows (some written) joined ∧ Grows other joined ∧ Sound joined ∧
      ∀ b, (oneSided name written other otherRead).2 = some b → b.target < next joined := by
  intro joined
  unfold joined oneSided
  split
  · exact ⟨.refl _, hOther, hSound, nofun⟩
  · rename_i version hRead
    have hLt : version < written.write := hSound written version rfl hRead
    have hWrite : written.write ≤ other.elim written.write fun v => max written.write v.write := by
      cases other with
      | none => exact le_rfl
      | some v => exact le_max_left _ _
    refine ⟨grows_some hWrite, fun v hv => ?_, ?_, fun b hb => ?_⟩
    · subst hv
      exact ⟨_, rfl, le_max_right _ _⟩
    · rintro _ r ⟨⟩ hr
      cases hr
      exact lt_of_lt_of_le hLt hWrite
    · rw [target_of_between? hb]
      exact lt_of_lt_of_le hLt hWrite

theorem oneSided_or (name : Symbol) (written : Versions) (other base : Option Versions)
    (otherRead : Option Nat) : (oneSided name written other otherRead).1.or base =
      (oneSided name written other otherRead).1 := by
  unfold oneSided
  split <;> rfl

/-- `base` is the entry that is kept if the join decides nothing. -/
theorem goesOn_of (name : Symbol) {before thenEnd elseStart elseEnd base : Option Versions}
    (hThen : Grows before thenEnd) (hElse : Grows elseStart elseEnd)
    (hThenSound : Sound thenEnd) (hElseSound : Sound elseEnd)
    (hStart : elseEnd ≠ elseStart → Grows thenEnd elseStart)
    (hSame : elseEnd = elseStart → Grows elseStart thenEnd)
    (hBase : base = thenEnd ∨ base = elseEnd ∧ Grows thenEnd elseEnd) :
    GoesOn thenEnd elseEnd (of name before thenEnd elseStart elseEnd)
      ((of name before thenEnd elseStart elseEnd).versions.or base) := by
  have hArises := arises_of name before thenEnd elseStart elseEnd
  generalize of name before thenEnd elseStart elseEnd = join at hArises ⊢
  cases hArises with
  | neither hThenEq hElseEq =>
    have hBack : Grows elseEnd thenEnd := hElseEq ▸ hSame hElseEq
    obtain rfl | ⟨rfl, hForth⟩ := hBase
    · exact ⟨.refl _, hBack, hThenSound, by simp⟩
    · exact ⟨hForth, .refl _, hElseSound, by simp⟩
  | lostThen hNe hEnd => exact absurd (hEnd.trans (hThen.eq_none hEnd).symm) hNe
  | lostElse hNe hEnd => exact absurd (hEnd.trans (hElse.eq_none hEnd).symm) hNe
  | onlyElse _ hElseEq hEnd =>
    subst hEnd
    obtain ⟨hWritten, hOther, hSound, hTargets⟩ := oneSided_goesOn name
      (thenEnd.bind (·.read)) hElseSound ((hStart hElseEq).trans hElse)
    rw [oneSided_or]
    exact ⟨hOther, hWritten, hSound, by simpa using hTargets⟩
  | onlyThen _ hElseEq hEnd =>
    subst hEnd
    obtain ⟨hWritten, hOther, hSound, hTargets⟩ := oneSided_goesOn name
      (elseStart.bind (·.read)) hThenSound (hElseEq ▸ hSame hElseEq : Grows elseEnd _)
    rw [oneSided_or]
    exact ⟨hWritten, hOther, hSound, by simpa using hTargets⟩
  | @both written written' _ _ hThenEnd hElseEnd =>
    subst hThenEnd hElseEnd
    refine ⟨grows_some ((le_max_left _ _).trans (Nat.le_succ _)),
      grows_some ((le_max_right _ _).trans (Nat.le_succ _)), ?_, fun b hb => ?_⟩
    · rintro _ r ⟨⟩ hr
      cases hr
      exact Nat.lt_succ_self _
    · have hTarget : b.target = max written.write written'.write := by
        rcases hb with hb | hb <;> exact target_of_between? hb
      rw [hTarget]
      exact Nat.lt_succ_self _

end VariableJoin

namespace Scope

open Versions

/-- The version that the next write of the variable makes. -/
def next (s : Scope) (x : Symbol) : Nat := Versions.next (s.get? x)

/-- No variable is forgotten, and none is written back. -/
def Grows (s s' : Scope) : Prop := ∀ x, Versions.Grows (s.get? x) (s'.get? x)

/-- Whatever is read has been written. -/
abbrev AllSound (s : Scope) : Prop := s.Sound Set.univ

variable {s s' t before now entry : Scope}

theorem Grows.refl (s : Scope) : s.Grows s := fun _ => .refl _

theorem Grows.trans (h : s.Grows s') (h' : s'.Grows t) : s.Grows t := fun x => (h x).trans (h' x)

theorem Grows.next_le (h : s.Grows s') (x : Symbol) : s.next x ≤ s'.next x := (h x).next_le

/-! ## Writes -/

theorem fst_write (s : Scope) (x : Symbol) : (s.write x).1 = s.next x := by
  unfold write next
  cases s.get? x <;> rfl

theorem next_write (s : Scope) (x y : Symbol) :
    (s.write x).2.next y = if y = x then s.next x + 1 else s.next y := by
  unfold next
  rw [get?_write]
  split
  · cases s.get? x <;> rfl
  · rfl

theorem grows_write (s : Scope) (x : Symbol) : s.Grows (s.write x).2 := by
  intro y
  rw [get?_write]
  split
  · rename_i hEq
    subst hEq
    cases s.get? y with
    | none => exact grows_none _
    | some v => exact grows_some (Nat.le_succ _)
  · exact .refl _

theorem AllSound.write (h : s.AllSound) (x : Symbol) : (s.write x).2.AllSound :=
  (follows_write h x).sound h

/-! ## Branches -/

theorem grows_elseStart (before : Scope) (s : Scope) : s.Grows (elseStart before s) := by
  intro x
  rw [get?_elseStart]
  cases s.get? x with
  | none => exact grows_none _
  | some v => exact grows_some le_rfl

theorem elseStart_grows (before : Scope) (s : Scope) : (elseStart before s).Grows s := by
  intro x
  rw [get?_elseStart]
  cases s.get? x with
  | none => exact grows_none _
  | some v => exact grows_some le_rfl

theorem AllSound.elseStart (h : before.AllSound) (hGrows : before.Grows s) :
    (Scope.elseStart before s).AllSound := by
  intro x hx
  rw [get?_elseStart]
  cases hv : s.get? x with
  | none => exact nofun
  | some v => exact (hGrows x).sound_rewound (h x hx) hv

/-- The ends of two branches as the join sees them, each past its start. -/
structure BranchesGrow (before : Scope) (thenEnd : Option Scope) (elseStart : Scope)
    (elseEnd : Option Scope) : Prop where
  thenGrows : ∀ s, thenEnd = some s → before.Grows s ∧ s.AllSound
  elseStarts : elseStart = thenEnd.elim before (Scope.elseStart before)
  elseGrows : ∀ s, elseEnd = some s → elseStart.Grows s ∧ s.AllSound

theorem BranchesGrow.goesOn {elseStart : Scope} {thenEnd elseEnd : Option Scope}
    (h : BranchesGrow before thenEnd elseStart elseEnd) (hBefore : before.AllSound) (x : Symbol) :
    VariableJoin.GoesOn (thenEnd.elim (before.get? x) (·.get? x))
      (elseEnd.elim (if elseEnd.isSome then elseStart.get? x else before.get? x) (·.get? x))
      (BranchEnds.joinOf before thenEnd elseStart elseEnd x)
      ((joinBranches before thenEnd elseStart elseEnd).scope.get? x) := by
  rw [get?_joinBranches]
  have hSound := hBefore x trivial
  cases thenEnd with
  | none =>
    obtain rfl : elseStart = before := h.elseStarts
    cases elseEnd with
    | none =>
      exact VariableJoin.goesOn_of x (.refl _) (.refl _) hSound hSound nofun (fun _ => .refl _)
        (.inl rfl)
    | some e =>
      obtain ⟨hElse, hElseSound⟩ := h.elseGrows e rfl
      exact VariableJoin.goesOn_of x (.refl _) (hElse x) hSound (hElseSound x trivial)
        (fun _ => .refl _) (fun _ => .refl _) (.inr ⟨rfl, hElse x⟩)
  | some s =>
    obtain rfl : elseStart = Scope.elseStart before s := h.elseStarts
    obtain ⟨hThen, hThenSound⟩ := h.thenGrows s rfl
    cases elseEnd with
    | none =>
      exact VariableJoin.goesOn_of x (hThen x) (.refl _) (hThenSound x trivial) hSound nofun
        (fun _ => hThen x) (.inl rfl)
    | some e =>
      obtain ⟨hElse, hElseSound⟩ := h.elseGrows e rfl
      exact VariableJoin.goesOn_of x (hThen x) (hElse x) (hThenSound x trivial)
        (hElseSound x trivial) (fun _ => grows_elseStart before s x)
        (fun _ => elseStart_grows before s x) (.inl rfl)

theorem BranchesGrow.join {elseStart : Scope} {thenEnd elseEnd : Option Scope}
    (h : BranchesGrow before thenEnd elseStart elseEnd) (hBefore : before.AllSound) :
    let join := joinBranches before thenEnd elseStart elseEnd
    ((elseEnd <|> thenEnd).getD before).Grows join.scope ∧ join.scope.AllSound ∧
      ∀ b ∈ join.thenBridges ++ join.elseBridges, b.target < join.scope.next b.name := by
  intro join
  refine ⟨fun x => ?_, fun x _ => (h.goesOn hBefore x).sound, fun b hb => ?_⟩
  · have hGoesOn := h.goesOn hBefore x
    cases elseEnd with
    | some e => exact hGoesOn.fromElse
    | none =>
      cases thenEnd with
      | some s => exact hGoesOn.fromThen
      | none => exact hGoesOn.fromThen
  · -- a bridge belongs to the variable that it names
    obtain ⟨x, hBridge⟩ : ∃ x, (BranchEnds.joinOf before thenEnd elseStart elseEnd x).thenBridge =
        some b ∨ (BranchEnds.joinOf before thenEnd elseStart elseEnd x).elseBridge = some b := by
      rcases List.mem_append.mp hb with hb | hb <;>
        obtain ⟨⟨x, _⟩, hJoin, hBridge⟩ := List.mem_filterMap.mp hb <;>
        obtain ⟨y, _, hEq⟩ := List.mem_map.mp hJoin <;> cases hEq
      · exact ⟨_, .inl hBridge⟩
      · exact ⟨_, .inr hBridge⟩
    obtain rfl := VariableJoin.name_of_bridge hBridge
    exact (h.goesOn hBefore _).targets b hBridge

/-! ## Loops -/

theorem target_lt_of_mem_loopBridges (hGrows : before.Grows now) (hSound : before.AllSound)
    {b : Bridge} (h : b ∈ loopBridges before now) : b.target < now.next b.name := by
  obtain ⟨target, source, hTarget, _, _, hb⟩ := mem_loopBridges_iff.mp h
  obtain ⟨w, hEntry⟩ := reads_eq_some_iff.mp hTarget
  have hLt : target < w := hSound _ trivial _ _ hEntry rfl
  have hLe : w ≤ now.next b.name := by
    have hNext := hGrows.next_le b.name
    rwa [next, hEntry] at hNext
  rw [hb]
  exact lt_of_lt_of_le hLt hLe

theorem get?_rewindLoop_eq (entry now : Scope) (x : Symbol) :
    (rewindLoop entry now).get? x = (now.get? x).map fun v =>
      (entry.get? x).elim v fun old => ⟨old.read, v.write⟩ := SymbolMap.get?_map now _ x

theorem grows_rewindLoop (entry now : Scope) : now.Grows (rewindLoop entry now) := by
  intro x
  rw [get?_rewindLoop_eq]
  cases now.get? x with
  | none => exact grows_none _
  | some v => cases entry.get? x <;> exact grows_some le_rfl

theorem AllSound.rewindLoop (hEntry : entry.AllSound) (hGrows : entry.Grows now)
    (hNow : now.AllSound) : (Scope.rewindLoop entry now).AllSound := by
  intro x hx
  rw [get?_rewindLoop_eq]
  cases hv : now.get? x with
  | none => exact nofun
  | some v =>
    cases hOld : entry.get? x with
    | none =>
      have hSound := hNow x hx
      rw [hv] at hSound
      exact hSound
    | some old =>
      have hSound := (hGrows x).sound_rewound (hEntry x hx) hv
      rw [hOld] at hSound
      exact hSound

/-! ## Blocks -/

theorem grows_unbindParams {params : List Symbol} {body : Scope}
    (h : (bindParams before params).2.Grows body) :
    before.Grows (unbindParams body (bindParams before params).1) := by
  intro x
  rw [get?_unbindParams_bindParams]
  split
  · exact .refl _
  · rename_i hx
    have hGrows := h x
    rwa [get?_bindParams, if_neg hx] at hGrows

theorem AllSound.bindParams (h : before.AllSound) (params : List Symbol) :
    (Scope.bindParams before params).2.AllSound := by
  intro x hx
  rw [get?_bindParams]
  split
  · rintro _ r ⟨⟩ hr
    cases hr
    exact Nat.one_pos
  · exact h x hx

theorem AllSound.unbindParams {body : Scope} (h : before.AllSound) (params : List Symbol)
    (hBody : body.AllSound) :
    (Scope.unbindParams body (Scope.bindParams before params).1).AllSound := by
  intro x hx
  rw [get?_unbindParams_bindParams]
  split
  · exact h x hx
  · exact hBody x hx

theorem grows_rewindBlock (now : Scope) (bridges : List Bridge) :
    now.Grows (rewindBlock now bridges) := by
  intro x
  rw [rewindBlock, SymbolMap.get?_map]
  cases now.get? x with
  | none => exact grows_none _
  | some v =>
    simp only [Option.map_some]
    cases bridges.find? (·.name == x) <;> exact grows_some le_rfl

theorem AllSound.rewindBlock (hBefore : before.AllSound) (hGrows : before.Grows now)
    (hNow : now.AllSound) : (Scope.rewindBlock now (loopBridges before now)).AllSound := by
  intro x hx
  rw [Scope.rewindBlock, SymbolMap.get?_map]
  cases hv : now.get? x with
  | none => rintro _ _ ⟨⟩
  | some v =>
    rw [Option.map_some]
    cases hFind : (loopBridges before now).find? (·.name == x) with
    | none => exact hv ▸ hNow x hx
    | some b =>
      have hName : b.name = x := by simpa using List.find?_some hFind
      have hLt := target_lt_of_mem_loopBridges hGrows hBefore (List.mem_of_find?_eq_some hFind)
      rw [hName, next, hv] at hLt
      rintro _ r ⟨⟩ hr
      cases hr
      exact hLt

end Scope

end CoreTree

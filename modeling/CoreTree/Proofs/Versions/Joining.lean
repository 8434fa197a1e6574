import CoreTree.Proofs.Versions.Meeting

/-! # Joins of conditionals

Variable by variable: whichever branch moved the variable, the joined entry reads what each
branch ends with or what that branch's bridge writes. Gathered over all variables, both
branches meet the joined scope.
-/
namespace CoreTree
set_option autoImplicit false

open Versions

namespace VariableJoin

/-- A path that ends with one entry and runs at most one bridge arrives at the joined entry. -/
def Settles (name : Symbol) (ended : Option Versions) (bridge : Option Bridge)
    (joined : Option Versions) : Prop :=
  match bridge with
  | some b => b.name = name ∧ b.source = Versions.reads ended ∧ b.source ≠ some b.target ∧
      Versions.reads joined = some b.target
  | none => Versions.reads joined = Versions.reads ended

theorem settles_between (name : Symbol) {ended joined : Option Versions} {version : Nat}
    (h : Versions.reads joined = some version) :
    Settles name ended (Bridge.between? name version (Versions.reads ended)) joined := by
  unfold Bridge.between?
  split
  · rename_i hEq
    exact h.trans hEq.symm
  · rename_i hNe
    exact ⟨rfl, rfl, hNe, h⟩

/-- What the join of one variable promises to both branches and to what follows. -/
structure Joins (name : Symbol) (before thenEnd elseEnd : Option Versions) (j : VariableJoin)
    (joined : Option Versions) : Prop where
  thenSettles : Settles name thenEnd j.thenBridge joined
  elseSettles : Settles name elseEnd j.elseBridge joined
  follows : Versions.Follows before joined

/-- `base` is the entry that is kept if the join decides nothing. -/
theorem joins_of (name : Symbol) {before thenEnd elseStart elseEnd base : Option Versions}
    (hThen : Versions.Follows before thenEnd) (hElse : Versions.Follows elseStart elseEnd)
    (hReads : Versions.reads elseStart = Versions.reads before)
    (hStart : thenEnd = before → elseStart = before)
    (hBase : base = thenEnd ∨ thenEnd = before ∧ base = elseEnd) :
    Joins name before thenEnd elseEnd (of name before thenEnd elseStart elseEnd)
      ((of name before thenEnd elseStart elseEnd).versions.or base) := by
  have hArises := arises_of name before thenEnd elseStart elseEnd
  generalize of name before thenEnd elseStart elseEnd = join at hArises ⊢
  cases hArises with
  | neither hThenEq hElseEq =>
    subst hThenEq hElseEq
    obtain rfl := hStart rfl
    obtain rfl : base = elseEnd := by rcases hBase with rfl | ⟨_, rfl⟩ <;> rfl
    exact ⟨rfl, rfl, .refl _⟩
  | lostThen hNe hEnd =>
    obtain ⟨r, w, hSome, -⟩ := hThen.exists_of_ne hNe
    cases hEnd.symm.trans hSome
  | lostElse hNe hEnd =>
    obtain ⟨r, w, hSome, -⟩ := hElse.exists_of_ne hNe
    cases hEnd.symm.trans hSome
  | onlyElse hThenEq hElseEq hEnd =>
    -- the else branch moved it from the entry that it started with
    subst hThenEq
    obtain rfl := hStart rfl
    obtain ⟨r, w, rfl, hLt, hOld⟩ := hElse.exists_of_ne hElseEq
    cases hEnd
    simp only [oneSided]
    refine ⟨settles_between name rfl, rfl, .inr ⟨r, _, rfl, ?_, fun v hv => ?_⟩⟩
    · cases elseStart with
      | none => exact hLt
      | some v => exact lt_of_lt_of_le hLt (le_max_left _ _)
    · subst hv
      exact ⟨le_trans (hOld v rfl).1 (le_max_left _ _), (hOld v rfl).2⟩
  | onlyThen hThenEq hElseEq hEnd =>
    -- the else branch may know later writes
    obtain ⟨r, w, rfl, hLt, hOld⟩ := hThen.exists_of_ne hThenEq
    cases hEnd
    subst hElseEq
    simp only [oneSided]
    refine ⟨rfl, settles_between name rfl, .inr ⟨r, _, rfl, ?_, fun v hv => ?_⟩⟩
    · cases elseEnd with
      | none => exact hLt
      | some v => exact lt_of_lt_of_le hLt (le_max_left _ _)
    · refine ⟨?_, (hOld v hv).2⟩
      cases elseEnd with
      | none => exact (hOld v hv).1
      | some v' => exact le_trans (hOld v hv).1 (le_max_left _ _)
  | both hThenEq hElseEq hThenEnd hElseEnd =>
    -- both go on to a version past either
    obtain ⟨r, w, rfl, hLt, hOld⟩ := hThen.exists_of_ne hThenEq
    obtain ⟨r', w', rfl, hLt', hOld'⟩ := hElse.exists_of_ne hElseEq
    cases hThenEnd
    cases hElseEnd
    simp only [twoSided]
    refine ⟨settles_between name rfl, settles_between name rfl, .inr ⟨max w w', _, rfl,
      Nat.lt_succ_self _, fun v hv => ?_⟩⟩
    obtain ⟨hWrite, hRead⟩ := hOld v hv
    refine ⟨le_trans hWrite (le_trans (le_max_left _ _) (Nat.le_succ _)), fun old hEq => ?_⟩
    exact le_trans (hRead old hEq) (le_trans hLt.le (le_max_left _ _))

theorem name_of_between? {name : Symbol} {target : Nat} {source : Option Nat} {b : Bridge}
    (h : Bridge.between? name target source = some b) : b.name = name := by
  obtain ⟨_, rfl⟩ := Bridge.between?_eq_some_iff.mp h
  rfl

theorem name_of_oneSided {name : Symbol} {written : Versions} {other : Option Versions}
    {otherRead : Option Nat} {b : Bridge}
    (h : (oneSided name written other otherRead).2 = some b) : b.name = name := by
  unfold oneSided at h
  split at h
  · cases h
  · exact name_of_between? h

theorem name_of_bridge {name : Symbol} {before thenEnd elseStart elseEnd : Option Versions}
    {b : Bridge} (h : (of name before thenEnd elseStart elseEnd).thenBridge = some b ∨
      (of name before thenEnd elseStart elseEnd).elseBridge = some b) : b.name = name := by
  have hArises := arises_of name before thenEnd elseStart elseEnd
  generalize of name before thenEnd elseStart elseEnd = join at hArises h
  cases hArises with
  | neither | lostThen | lostElse => rcases h with h | h <;> cases h
  | onlyElse =>
    rcases h with h | h
    · exact name_of_oneSided h
    · cases h
  | onlyThen =>
    rcases h with h | h
    · cases h
    · exact name_of_oneSided h
  | both => rcases h with h | h <;> exact name_of_between? h

theorem source_of_between? {name : Symbol} {target : Nat} {source : Option Nat} {b : Bridge}
    (h : Bridge.between? name target source = some b) : b.source = source := by
  obtain ⟨_, rfl⟩ := Bridge.between?_eq_some_iff.mp h
  rfl

theorem source_of_oneSided {name : Symbol} {written : Versions} {other : Option Versions}
    {otherRead : Option Nat} {b : Bridge}
    (h : (oneSided name written other otherRead).2 = some b) : b.source = otherRead := by
  unfold oneSided at h
  split at h
  · cases h
  · exact source_of_between? h

/-- A bridge copies what its own branch reads at its end. -/
theorem source_of_bridge {name : Symbol} {before thenEnd elseStart elseEnd : Option Versions}
    {b : Bridge} : ((of name before thenEnd elseStart elseEnd).thenBridge = some b →
      b.source = Versions.reads thenEnd) ∧
    ((of name before thenEnd elseStart elseEnd).elseBridge = some b →
      b.source = Versions.reads elseEnd) := by
  have hArises := arises_of name before thenEnd elseStart elseEnd
  generalize of name before thenEnd elseStart elseEnd = join at hArises
  cases hArises with
  | neither | lostThen | lostElse => exact ⟨nofun, nofun⟩
  | onlyElse => exact ⟨source_of_oneSided, nofun⟩
  | onlyThen _ hElse =>
    exact ⟨nofun, fun h => (source_of_oneSided h).trans (congrArg Versions.reads hElse.symm)⟩
  | both _ _ hThenEnd hElseEnd =>
    subst hThenEnd hElseEnd
    exact ⟨source_of_between?, source_of_between?⟩

/-- A branch is bridged where the other one wrote the variable. -/
theorem wrote_of_bridge {name : Symbol} {before thenEnd elseStart elseEnd : Option Versions}
    {b : Bridge} : ((of name before thenEnd elseStart elseEnd).thenBridge = some b →
      elseEnd ≠ elseStart) ∧
    ((of name before thenEnd elseStart elseEnd).elseBridge = some b → thenEnd ≠ before) := by
  have hArises := arises_of name before thenEnd elseStart elseEnd
  generalize of name before thenEnd elseStart elseEnd = join at hArises
  cases hArises with
  | neither | lostThen | lostElse => exact ⟨nofun, nofun⟩
  | onlyElse _ hElse => exact ⟨fun _ => hElse, nofun⟩
  | onlyThen hThen => exact ⟨nofun, fun _ => hThen⟩
  | both hThen hElse => exact ⟨fun _ => hElse, fun _ => hThen⟩

end VariableJoin

namespace Scope

/-! ## All variables -/

/-- The ends of two branches as the join sees them: an absent branch ends where it starts. -/
structure BranchEnds (X : Set Symbol) (before : Scope) (thenEnd : Option Scope)
    (elseStart : Scope) (elseEnd : Option Scope) : Prop where
  thenFollows : Follows X before (thenEnd.getD before)
  elseStarts : elseStart = thenEnd.elim before (Scope.elseStart before)
  elseFollows : ∀ s, elseEnd = some s → Follows X elseStart s

namespace BranchEnds

variable {X : Set Symbol} {before elseStart : Scope} {thenEnd elseEnd : Option Scope}

theorem reads_elseStart (h : BranchEnds X before thenEnd elseStart elseEnd) {x : Symbol}
    (hx : x ∈ X) : elseStart.reads x = before.reads x := by
  rw [h.elseStarts]
  cases thenEnd with
  | none => rfl
  | some s =>
    have hFollows := h.thenFollows x hx
    rw [Option.elim_some, reads, get?_elseStart]
    cases hs : s.get? x with
    | none =>
      rw [reads, hFollows.eq_none hs]
      rfl
    | some v => rfl

theorem eq_none_of_elseStart (h : BranchEnds X before thenEnd elseStart elseEnd) {x : Symbol}
    (hx : x ∈ X) (hNone : elseStart.get? x = none) : before.get? x = none := by
  rw [h.elseStarts] at hNone
  cases thenEnd with
  | none => exact hNone
  | some s =>
    rw [Option.elim_some, get?_elseStart, Option.map_eq_none_iff] at hNone
    exact (h.thenFollows x hx).eq_none hNone

theorem sound_elseStart (h : BranchEnds X before thenEnd elseStart elseEnd)
    (hs : Sound X before) : Sound X elseStart := by
  rw [h.elseStarts]
  cases thenEnd with
  | none => exact hs
  | some s =>
    intro x hx v r hv hr
    rw [Option.elim_some, get?_elseStart] at hv
    obtain ⟨v', hv', rfl⟩ := Option.map_eq_some_iff.mp hv
    have hRead : before.reads x = some r := hr
    obtain ⟨w, hw⟩ := reads_eq_some_iff.mp hRead
    have hLt : r < w := hs x hx _ _ hw rfl
    obtain hEq | ⟨r', w', hEq, _, hOld⟩ := h.thenFollows x hx
    · rw [Option.getD_some, hv', hw] at hEq
      cases hEq
      exact hLt
    · rw [Option.getD_some, hv'] at hEq
      cases hEq
      exact lt_of_lt_of_le hLt (hOld _ hw).1

def joinOf (before : Scope) (thenEnd : Option Scope) (elseStart : Scope)
    (elseEnd : Option Scope) (x : Symbol) : VariableJoin :=
  let otherStart := if elseEnd.isSome then elseStart.get? x else before.get? x
  .of x (before.get? x) (thenEnd.elim (before.get? x) (·.get? x)) otherStart
    (elseEnd.elim otherStart (·.get? x))

theorem joins (h : BranchEnds X before thenEnd elseStart elseEnd) {x : Symbol} (hx : x ∈ X) :
    VariableJoin.Joins x (before.get? x) ((thenEnd.getD before).get? x)
      ((elseEnd.getD before).get? x) (joinOf before thenEnd elseStart elseEnd x)
      ((joinOf before thenEnd elseStart elseEnd x).versions.or
        (((thenEnd <|> elseEnd).getD before).get? x)) := by
  have hThenEq : thenEnd.elim (before.get? x) (·.get? x) = (thenEnd.getD before).get? x := by
    cases thenEnd <;> rfl
  unfold joinOf
  rw [hThenEq]
  cases elseEnd with
  | none =>
    apply VariableJoin.joins_of x (h.thenFollows x hx) (.refl _) rfl fun _ => rfl
    left
    cases thenEnd <;> rfl
  | some s =>
    apply VariableJoin.joins_of x (h.thenFollows x hx) (h.elseFollows s rfl x hx)
      (h.reads_elseStart hx)
    · intro hEq
      show elseStart.get? x = before.get? x
      rw [h.elseStarts]
      cases thenEnd with
      | none => rfl
      | some t =>
        rw [Option.elim_some, get?_elseStart]
        have hEq : t.get? x = before.get? x := hEq
        rw [hEq]
        cases before.get? x <;> rfl
    · cases thenEnd with
      | none => exact .inr ⟨rfl, rfl⟩
      | some t => exact .inl rfl

end BranchEnds

theorem get?_foldl_versions (join : Symbol → VariableJoin) (names : List Symbol) (base : Scope)
    (x : Symbol) :
    ((names.map fun name => (name, join name)).foldl
      (fun scope (name, join) => join.versions.elim scope (scope.insert name)) base).get? x =
      if x ∈ names then (join x).versions.or (base.get? x) else base.get? x := by
  induction names generalizing base with
  | nil => simp
  | cons name names ih =>
    -- a name may be listed twice: the second join has the first one's entry
    rw [List.map_cons, List.foldl_cons, ih]
    have hStep : ((join name).versions.elim base (base.insert name)).get? x =
        if x = name then (join x).versions.or (base.get? x) else base.get? x := by
      by_cases hx : x = name
      · subst hx
        cases hv : (join x).versions <;> simp
      · cases hv : (join name).versions <;> simp [hx]
    rw [hStep]
    by_cases hx : x = name
    · subst hx
      cases (join x).versions <;> simp
    · simp [hx]

variable {X : Set Symbol} {before elseStart : Scope} {thenEnd elseEnd : Option Scope}

open BranchEnds (joinOf)

def knownVariables (before : Scope) (thenEnd elseEnd : Option Scope) : List Symbol :=
  ((before.overlay (thenEnd.getD .empty)).overlay (elseEnd.getD .empty)).keys

theorem mem_knownVariables_iff {x : Symbol} : x ∈ knownVariables before thenEnd elseEnd ↔
    x ∈ before.keys ∨ (∃ s, thenEnd = some s ∧ x ∈ s.keys) ∨
      ∃ s, elseEnd = some s ∧ x ∈ s.keys := by
  have hEnd : ∀ ended : Option Scope, ((ended.getD .empty).get? x).isSome ↔
      ∃ s, ended = some s ∧ x ∈ s.keys := by
    intro ended
    cases ended with
    | none => simp
    | some s => simp [SymbolMap.mem_keys_iff]
  rw [knownVariables, SymbolMap.mem_keys_iff, SymbolMap.get?_overlay, SymbolMap.get?_overlay,
    Option.isSome_or, Option.isSome_or, Bool.or_eq_true, Bool.or_eq_true, hEnd, hEnd,
    ← SymbolMap.mem_keys_iff, or_comm, or_comm (b := x ∈ before.keys), or_assoc]

theorem thenBridges_eq (before : Scope) (thenEnd : Option Scope) (elseStart : Scope)
    (elseEnd : Option Scope) : (joinBranches before thenEnd elseStart elseEnd).thenBridges =
      (knownVariables before thenEnd elseEnd).filterMap
        fun x => (joinOf before thenEnd elseStart elseEnd x).thenBridge := List.filterMap_map

theorem elseBridges_eq (before : Scope) (thenEnd : Option Scope) (elseStart : Scope)
    (elseEnd : Option Scope) : (joinBranches before thenEnd elseStart elseEnd).elseBridges =
      (knownVariables before thenEnd elseEnd).filterMap
        fun x => (joinOf before thenEnd elseStart elseEnd x).elseBridge := List.filterMap_map

theorem joinOf_eq_of_not_mem {before elseStart : Scope} {thenEnd elseEnd : Option Scope}
    {x : Symbol} (h : x ∉ knownVariables before thenEnd elseEnd) :
    joinOf before thenEnd elseStart elseEnd x = {} := by
  rw [knownVariables, SymbolMap.mem_keys_iff, SymbolMap.get?_overlay, SymbolMap.get?_overlay,
    Bool.not_eq_true, Option.isSome_eq_false_iff, Option.isNone_iff_eq_none, Option.or_eq_none_iff,
    Option.or_eq_none_iff] at h
  obtain ⟨hElse, hThen, hBefore⟩ := h
  have hThen' : thenEnd.elim (before.get? x) (·.get? x) = none := by
    cases thenEnd with
    | none => exact hBefore
    | some s => exact hThen
  have hElse' : elseEnd.elim (if elseEnd.isSome then elseStart.get? x else before.get? x)
      (·.get? x) = none := by
    cases elseEnd with
    | none => exact hBefore
    | some s => exact hElse
  simp only [joinOf]
  rw [hElse', hThen', hBefore]
  rfl

theorem mem_knownVariables_of_bridge {x : Symbol} {b : Bridge}
    (h : (joinOf before thenEnd elseStart elseEnd x).thenBridge = some b ∨
      (joinOf before thenEnd elseStart elseEnd x).elseBridge = some b) :
    x ∈ knownVariables before thenEnd elseEnd := by
  by_contra hNot
  rw [joinOf_eq_of_not_mem hNot] at h
  rcases h with h | h <;> cases h

theorem mem_thenBridges_iff {b : Bridge} :
    b ∈ (joinBranches before thenEnd elseStart elseEnd).thenBridges ↔
      (joinOf before thenEnd elseStart elseEnd b.name).thenBridge = some b := by
  rw [thenBridges_eq, List.mem_filterMap]
  constructor
  · rintro ⟨x, -, hb⟩
    rwa [VariableJoin.name_of_bridge (.inl hb)]
  · exact fun hb => ⟨_, mem_knownVariables_of_bridge (.inl hb), hb⟩

theorem mem_elseBridges_iff {b : Bridge} :
    b ∈ (joinBranches before thenEnd elseStart elseEnd).elseBridges ↔
      (joinOf before thenEnd elseStart elseEnd b.name).elseBridge = some b := by
  rw [elseBridges_eq, List.mem_filterMap]
  constructor
  · rintro ⟨x, -, hb⟩
    rwa [VariableJoin.name_of_bridge (.inr hb)]
  · exact fun hb => ⟨_, mem_knownVariables_of_bridge (.inr hb), hb⟩

theorem wrote_of_mem_thenBridges {b : Bridge}
    (h : b ∈ (joinBranches before thenEnd elseStart elseEnd).thenBridges) :
    (elseEnd.getD elseStart).get? b.name ≠ elseStart.get? b.name := by
  have hWrote := VariableJoin.wrote_of_bridge.1 (mem_thenBridges_iff.mp h)
  cases elseEnd with
  | none => exact absurd rfl hWrote
  | some e => exact hWrote

theorem wrote_of_mem_elseBridges {b : Bridge}
    (h : b ∈ (joinBranches before thenEnd elseStart elseEnd).elseBridges) :
    (thenEnd.getD before).get? b.name ≠ before.get? b.name := by
  have hWrote := VariableJoin.wrote_of_bridge.2 (mem_elseBridges_iff.mp h)
  cases thenEnd with
  | none => exact absurd rfl hWrote
  | some s => exact hWrote

theorem get?_joinBranches (before : Scope) (thenEnd : Option Scope) (elseStart : Scope)
    (elseEnd : Option Scope) (x : Symbol) :
    (joinBranches before thenEnd elseStart elseEnd).scope.get? x =
      (joinOf before thenEnd elseStart elseEnd x).versions.or
        (((thenEnd <|> elseEnd).getD before).get? x) := by
  rw [joinBranches]
  refine (get?_foldl_versions (joinOf before thenEnd elseStart elseEnd) _ _ x).trans ?_
  split
  · rfl
  · rename_i hNot
    rw [joinOf_eq_of_not_mem hNot]
    rfl

/-- From what one variable's bridge does to what all bridges of a branch do. -/
theorem meets_of_settles {ended joined : Scope} {names : List Symbol}
    {bridge : Symbol → Option Bridge} (hName : ∀ x b, bridge x = some b → b.name = x)
    (hSettles : ∀ x ∈ X, VariableJoin.Settles x (ended.get? x) (bridge x) (joined.get? x))
    (hKnown : ∀ x b, bridge x = some b → x ∈ names) :
    Meets X ended (names.filterMap bridge) joined where
  carried b hb hx := by
    obtain ⟨x, _, hBridge⟩ := List.mem_filterMap.mp hb
    obtain rfl := hName x b hBridge
    have h := hSettles _ hx
    rw [hBridge] at h
    exact ⟨h.2.1, h.2.2.1⟩
  lands x hx := by
    have h := hSettles x hx
    cases hBridge : bridge x with
    | none =>
      rw [hBridge] at h
      refine .inr ⟨fun b hb hEq => ?_, h⟩
      obtain ⟨y, _, hb⟩ := List.mem_filterMap.mp hb
      rw [← hName y b hb, hEq, hBridge] at hb
      cases hb
    | some b =>
      rw [hBridge] at h
      exact .inl ⟨b, List.mem_filterMap.mpr ⟨x, hKnown x b hBridge, hBridge⟩, h.1, h.2.2.2⟩

theorem BranchEnds.meets (h : BranchEnds X before thenEnd elseStart elseEnd) :
    let join := joinBranches before thenEnd elseStart elseEnd
    Follows X before join.scope ∧ Meets X (thenEnd.getD before) join.thenBridges join.scope ∧
      Meets X (elseEnd.getD before) join.elseBridges join.scope := by
  intro join
  have hJoins : ∀ x ∈ X, _ := fun x hx =>
    get?_joinBranches before thenEnd elseStart elseEnd x ▸ h.joins hx
  refine ⟨fun x hx => (hJoins x hx).follows, ?_, ?_⟩
  · rw [show join.thenBridges = _ from thenBridges_eq ..]
    exact meets_of_settles (fun x b hb => VariableJoin.name_of_bridge (.inl hb))
      (fun x hx => (hJoins x hx).thenSettles) fun x b hb => mem_knownVariables_of_bridge (.inl hb)
  · rw [show join.elseBridges = _ from elseBridges_eq ..]
    exact meets_of_settles (fun x b hb => VariableJoin.name_of_bridge (.inr hb))
      (fun x hx => (hJoins x hx).elseSettles) fun x b hb => mem_knownVariables_of_bridge (.inr hb)

end Scope

end CoreTree

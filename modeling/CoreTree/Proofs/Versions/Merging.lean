import CoreTree.Proofs.Versions.Renewal

/-! # What a join decides

Of the branches it is assumed only that they forget nothing: a variable that was known stays known,
one that was read can still be read, and no write goes back. What a branch read may have changed in
any way meanwhile. The join is then told in full: what is known behind it, which version each
variable goes by there, and by which bridges each branch arrives.
-/
namespace CoreTree
set_option autoImplicit false

namespace Versions

/-- The variable stays known, as does whether a version of it reaches the path, and its next write
is none that was made. -/
def Lasts (a b : Option Versions) : Prop := Grows a b ∧ ((reads a).isSome → (reads b).isSome)

variable {a b : Option Versions}

theorem Lasts.refl (a : Option Versions) : Lasts a a := ⟨.refl a, id⟩

theorem Lasts.reads_eq_none (h : Lasts a b) (hb : reads b = none) : reads a = none := by
  cases ha : reads a with
  | none => rfl
  | some r =>
    have hSome := h.2 (by rw [ha]; rfl)
    rw [hb] at hSome
    cases hSome

theorem Lasts.exists_of_ne (h : Lasts a b) (hNe : b ≠ a) : ∃ v, b = some v :=
  Option.ne_none_iff_exists'.mp fun hNone => hNe (hNone.trans (h.1.eq_none hNone).symm)

end Versions

namespace VariableJoin

open Versions

/-- Which version the variable goes by behind the join, and the bridges that lead there. -/
structure Decides (name : Symbol) (before thenEnd elseStart elseEnd : Option Versions)
    (j : VariableJoin) (joined : Option Versions) : Prop where
  bridges : ∀ m, reads joined = some m →
    j.thenBridge = Bridge.between? name m (reads thenEnd) ∧
      j.elseBridge = Bridge.between? name m (reads elseEnd)
  unread : reads joined = none → (reads before = none ∧ reads thenEnd = none ∧
    reads elseEnd = none) ∧ j.thenBridge = none ∧ j.elseBridge = none
  both : thenEnd ≠ before → elseEnd ≠ elseStart → ∀ m, reads joined = some m →
    next thenEnd ≤ m ∧ next elseEnd ≤ m
  neither : thenEnd = before → elseEnd = elseStart →
    joined = before ∧ j.thenBridge = none ∧ j.elseBridge = none

theorem between?_self (name : Symbol) (version : Nat) :
    Bridge.between? name version (some version) = none := if_pos rfl

/-- `base` is the entry that is kept if the join decides nothing. -/
theorem decides_of (name : Symbol) {before thenEnd elseStart elseEnd base : Option Versions}
    (hThen : Lasts before thenEnd) (hElse : Lasts elseStart elseEnd)
    (hReads : reads elseStart = reads before) (hStart : thenEnd = before → elseStart = before)
    (hBase : base = thenEnd ∨ thenEnd = before ∧ base = elseEnd) :
    Decides name before thenEnd elseStart elseEnd (of name before thenEnd elseStart elseEnd)
      ((of name before thenEnd elseStart elseEnd).versions.or base) := by
  have hArises := arises_of name before thenEnd elseStart elseEnd
  generalize of name before thenEnd elseStart elseEnd = join at hArises ⊢
  cases hArises with
  | neither hThenEq hElseEq =>
    subst hThenEq hElseEq
    obtain rfl := hStart rfl
    obtain rfl : base = elseEnd := by rcases hBase with rfl | ⟨_, rfl⟩ <;> rfl
    refine ⟨fun m hm => ?_, fun hNone => ⟨⟨hNone, hNone, hNone⟩, rfl, rfl⟩,
      fun hNe => absurd rfl hNe, fun _ _ => ⟨rfl, rfl, rfl⟩⟩
    rw [show reads base = some m from hm, between?_self]
    exact ⟨rfl, rfl⟩
  | lostThen hNe hEnd =>
    obtain ⟨_, hSome⟩ := hThen.exists_of_ne hNe
    cases hEnd.symm.trans hSome
  | lostElse hNe hEnd =>
    obtain ⟨_, hSome⟩ := hElse.exists_of_ne hNe
    cases hEnd.symm.trans hSome
  | @onlyElse written hThenEq hElseEq hEnd =>
    subst hThenEq hEnd
    obtain rfl := hStart rfl
    obtain ⟨read, w⟩ := written
    have hNever : ∀ {P : Prop}, some (Versions.mk read w) = elseStart → P := fun h =>
      absurd h hElseEq
    cases read with
    | none =>
      have hNone : reads elseStart = none := hElse.reads_eq_none rfl
      refine ⟨?_, fun _ => ⟨⟨hNone, hNone, rfl⟩, rfl, rfl⟩, fun hNe => absurd rfl hNe,
        fun _ h => hNever h⟩
      rintro _ ⟨⟩
    | some version =>
      refine ⟨?_, fun hNone => ?_, fun hNe => absurd rfl hNe, fun _ h => hNever h⟩
      · rintro _ ⟨⟩
        exact ⟨rfl, (between?_self name version).symm⟩
      · cases hNone
  | @onlyThen written hThenEq hElseEq hEnd =>
    subst hElseEq hEnd
    obtain ⟨read, w⟩ := written
    cases read with
    | none =>
      have hNone : reads before = none := hThen.reads_eq_none rfl
      refine ⟨?_, fun _ => ⟨⟨hNone, rfl, hReads.trans hNone⟩, rfl, rfl⟩,
        fun _ hNe => absurd rfl hNe, fun h => absurd h hThenEq⟩
      rintro _ ⟨⟩
    | some version =>
      refine ⟨?_, fun hNone => ?_, fun _ hNe => absurd rfl hNe, fun h => absurd h hThenEq⟩
      · rintro _ ⟨⟩
        exact ⟨(between?_self name version).symm, rfl⟩
      · cases hNone
  | both hThenEq hElseEq hThenEnd hElseEnd =>
    -- the joined version is past either
    subst hThenEnd hElseEnd
    refine ⟨?_, fun hNone => ?_, fun _ _ => ?_, fun h => absurd h hThenEq⟩
    · rintro _ ⟨⟩
      exact ⟨rfl, rfl⟩
    · cases hNone
    · rintro _ ⟨⟩
      exact ⟨le_max_left _ _, le_max_right _ _⟩

end VariableJoin

namespace Scope

open BranchEnds (joinOf)

def Lasts (s s' : Scope) : Prop := ∀ x, Versions.Lasts (s.get? x) (s'.get? x)

/-- The scopes of a conditional: nothing is read that was not written, and neither branch forgets
what it started with. -/
structure BranchesLast (before : Scope) (thenEnd : Option Scope) (elseStart : Scope)
    (elseEnd : Option Scope) : Prop where
  sound : before.AllSound
  elseStarts : elseStart = thenEnd.elim before (Scope.elseStart before)
  thenLasts : ∀ s, thenEnd = some s → before.Lasts s ∧ s.AllSound
  elseLasts : ∀ s, elseEnd = some s → elseStart.Lasts s ∧ s.AllSound

/-- A branch changed the variable. -/
def Changed (start : Scope) (ended : Option Scope) (x : Symbol) : Prop :=
  ∃ s, ended = some s ∧ s.get? x ≠ start.get? x

/-- The path that ends in this scope comes to read this version of the variable: it does so already,
or one bridge copies what it reads, or `nil`. -/
def Arrives (ended : Scope) (bridges : List Bridge) (x : Symbol) (version : Nat) : Prop :=
  (ended.reads x = some version ∧ ∀ b ∈ bridges, b.name ≠ x) ∨
    (ended.reads x ≠ some version ∧
      bridges.filter (·.name = x) = [⟨x, version, ended.reads x⟩])

theorem Lasts.trans {s t u : Scope} (h : s.Lasts t) (h' : t.Lasts u) : s.Lasts u := fun x =>
  ⟨(h x).1.trans (h' x).1, fun hSome => (h' x).2 ((h x).2 hSome)⟩

theorem lasts_write (s : Scope) (x : Symbol) : s.Lasts (s.write x).2 := by
  refine fun y => ⟨grows_write s x y, fun hSome => ?_⟩
  by_cases hEq : y = x
  · subst hEq
    exact Option.isSome_iff_exists.mpr ⟨_, reads_write s y⟩
  · exact (congrArg Option.isSome (reads_write_of_ne s hEq)).trans hSome

/-- What a join promises to both branches and to what follows. A branch that is absent ends where it
starts. -/
structure Joined (before : Scope) (thenEnd : Option Scope) (elseStart : Scope)
    (elseEnd : Option Scope) (join : BranchJoin) : Prop where
  known : ∀ x, x ∈ join.scope.keys ↔
    x ∈ before.keys ∨ (∃ s, thenEnd = some s ∧ x ∈ s.keys) ∨ ∃ s, elseEnd = some s ∧ x ∈ s.keys
  thenArrives : ∀ x m, join.scope.reads x = some m →
    Arrives (thenEnd.getD before) join.thenBridges x m
  elseArrives : ∀ x m, join.scope.reads x = some m →
    Arrives (elseEnd.getD before) join.elseBridges x m
  thenOrder : join.thenBridges.Pairwise fun a b => a.name.id < b.name.id
  elseOrder : join.elseBridges.Pairwise fun a b => a.name.id < b.name.id
  carries : ∀ b ∈ join.thenBridges ++ join.elseBridges, b.source ≠ some b.target
  both : ∀ x, Changed before thenEnd x → Changed elseStart elseEnd x → ∀ m,
    join.scope.reads x = some m →
      (thenEnd.getD before).next x ≤ m ∧ (elseEnd.getD before).next x ≤ m
  past : ∀ x v, join.scope.get? x = some v → (∀ m, v.read = some m → m < v.write) ∧
    (thenEnd.getD before).next x ≤ v.write ∧ (elseEnd.getD before).next x ≤ v.write
  neither : ∀ x, ¬ Changed before thenEnd x → ¬ Changed elseStart elseEnd x →
    join.scope.get? x = before.get? x ∧
      ∀ b ∈ join.thenBridges ++ join.elseBridges, b.name ≠ x
  unread : ∀ x, join.scope.reads x = none → (before.reads x = none ∧
    (thenEnd.getD before).reads x = none ∧ (elseEnd.getD before).reads x = none) ∧
      ∀ b ∈ join.thenBridges ++ join.elseBridges, b.name ≠ x

variable {before elseStart : Scope} {thenEnd elseEnd : Option Scope}

namespace BranchesLast

theorem grow (h : BranchesLast before thenEnd elseStart elseEnd) :
    BranchesGrow before thenEnd elseStart elseEnd where
  thenGrows s hs := ⟨fun x => ((h.thenLasts s hs).1 x).1, (h.thenLasts s hs).2⟩
  elseStarts := h.elseStarts
  elseGrows s hs := ⟨fun x => ((h.elseLasts s hs).1 x).1, (h.elseLasts s hs).2⟩

theorem elim_eq_getD (start : Scope) (ended : Option Scope) (x : Symbol) :
    ended.elim (start.get? x) (·.get? x) = (ended.getD start).get? x := by
  cases ended <;> rfl

theorem thenLasts_getD (h : BranchesLast before thenEnd elseStart elseEnd) (x : Symbol) :
    Versions.Lasts (before.get? x) ((thenEnd.getD before).get? x) := by
  cases thenEnd with
  | none => exact .refl _
  | some s => exact (h.thenLasts s rfl).1 x

theorem reads_elseStart (h : BranchesLast before thenEnd elseStart elseEnd) (x : Symbol) :
    elseStart.reads x = before.reads x := by
  rw [h.elseStarts]
  cases thenEnd with
  | none => rfl
  | some s =>
    have hLasts := (h.thenLasts s rfl).1 x
    rw [Option.elim_some, reads, get?_elseStart]
    cases hs : s.get? x with
    | none =>
      rw [reads, hLasts.1.eq_none hs]
      rfl
    | some v => rfl

theorem elseStart_eq (h : BranchesLast before thenEnd elseStart elseEnd) {x : Symbol}
    (hSame : (thenEnd.getD before).get? x = before.get? x) :
    elseStart.get? x = before.get? x := by
  rw [h.elseStarts]
  cases thenEnd with
  | none => rfl
  | some s =>
    have hSame : s.get? x = before.get? x := hSame
    rw [Option.elim_some, get?_elseStart, hSame]
    cases before.get? x <;> rfl

/-- One variable of the join. An else branch that is absent starts and ends where the conditional
does. -/
theorem decides (h : BranchesLast before thenEnd elseStart elseEnd) (x : Symbol) :
    VariableJoin.Decides x (before.get? x) ((thenEnd.getD before).get? x)
      (if elseEnd.isSome then elseStart.get? x else before.get? x) ((elseEnd.getD before).get? x)
      (joinOf before thenEnd elseStart elseEnd x)
      ((joinBranches before thenEnd elseStart elseEnd).scope.get? x) := by
  rw [get?_joinBranches, joinOf, elim_eq_getD]
  cases elseEnd with
  | none =>
    refine VariableJoin.decides_of x (h.thenLasts_getD x) (.refl _) rfl (fun _ => rfl) (.inl ?_)
    cases thenEnd <;> rfl
  | some e =>
    refine VariableJoin.decides_of x (h.thenLasts_getD x) ((h.elseLasts e rfl).1 x)
      (h.reads_elseStart x) h.elseStart_eq ?_
    cases thenEnd with
    | none => exact .inr ⟨rfl, rfl⟩
    | some s => exact .inl rfl

theorem goesOn (h : BranchesLast before thenEnd elseStart elseEnd) (x : Symbol) :
    VariableJoin.GoesOn ((thenEnd.getD before).get? x) ((elseEnd.getD before).get? x)
      (joinOf before thenEnd elseStart elseEnd x)
      ((joinBranches before thenEnd elseStart elseEnd).scope.get? x) := by
  have hGoesOn := h.grow.goesOn h.sound x
  rw [elim_eq_getD] at hGoesOn
  cases elseEnd <;> exact hGoesOn

end BranchesLast

theorem not_changed_iff {start : Scope} {ended : Option Scope} {x : Symbol} :
    ¬ Changed start ended x ↔ (ended.getD start).get? x = start.get? x := by
  cases ended with
  | none => exact ⟨fun _ => rfl, fun _ ⟨_, h, _⟩ => nomatch h⟩
  | some s =>
    constructor
    · intro h
      exact by_contra fun hNe => h ⟨s, rfl, hNe⟩
    · rintro hEq ⟨_, ⟨⟩, hNe⟩
      exact hNe hEq

/-! ## The bridges of a branch -/

section

variable {names : List Symbol} {bridge : Symbol → Option Bridge}
  (hName : ∀ x b, bridge x = some b → b.name = x)
include hName

theorem filter_name_filterMap (hNames : names.Nodup) (x : Symbol)
    (hKnown : bridge x ≠ none → x ∈ names) :
    (names.filterMap bridge).filter (·.name = x) = (bridge x).toList := by
  have hOthers : ∀ l : List Symbol, x ∉ l → (l.filterMap bridge).filter (·.name = x) = [] := by
    intro l hl
    refine List.filter_eq_nil_iff.mpr fun b hb hEq => ?_
    obtain ⟨y, hy, hb⟩ := List.mem_filterMap.mp hb
    exact hl (of_decide_eq_true hEq ▸ hName y b hb ▸ hy)
  by_cases hx : x ∈ names
  · obtain ⟨init, rest, rfl⟩ := List.append_of_mem hx
    obtain ⟨-, hRest, hDisjoint⟩ := List.nodup_append.mp hNames
    have hInit : x ∉ init := fun hMem => hDisjoint x hMem x (.head _) rfl
    rw [List.filterMap_append, List.filter_append, hOthers init hInit, List.nil_append]
    cases hb : bridge x with
    | none =>
      rw [List.filterMap_cons_none hb]
      exact hOthers rest (List.nodup_cons.mp hRest).1
    | some b =>
      have hIs : decide (b.name = x) = true := decide_eq_true (hName x b hb)
      rw [List.filterMap_cons_some hb, List.filter_cons, if_pos hIs,
        hOthers rest (List.nodup_cons.mp hRest).1]
      rfl
  · have hNone : bridge x = none := by_contra fun hNe => hx (hKnown hNe)
    rw [hOthers names hx, hNone]
    rfl

theorem pairwise_filterMap (hNames : names.Pairwise fun x y => x.id < y.id) :
    (names.filterMap bridge).Pairwise fun a b => a.name.id < b.name.id := by
  refine hNames.filterMap bridge fun x y hLt a ha b hb => ?_
  rwa [hName x a ha, hName y b hb]

end

theorem arrives_of_between {ended : Scope} {bridges : List Bridge} {x : Symbol} {m : Nat}
    (h : bridges.filter (·.name = x) = (Bridge.between? x m (ended.reads x)).toList) :
    Arrives ended bridges x m := by
  by_cases hRead : ended.reads x = some m
  · refine .inl ⟨hRead, fun b hb hEq => ?_⟩
    rw [hRead, VariableJoin.between?_self] at h
    exact List.filter_eq_nil_iff.mp h b hb (decide_eq_true hEq)
  · refine .inr ⟨hRead, ?_⟩
    rw [h, Bridge.between?, if_neg hRead]
    rfl

theorem name_ne_of_filter_eq_nil {bridges : List Bridge} {x : Symbol}
    (h : bridges.filter (·.name = x) = []) : ∀ b ∈ bridges, b.name ≠ x := fun b hb hEq =>
  List.filter_eq_nil_iff.mp h b hb (decide_eq_true hEq)

theorem filter_thenBridges (before : Scope) (thenEnd : Option Scope) (elseStart : Scope)
    (elseEnd : Option Scope) (x : Symbol) :
    (joinBranches before thenEnd elseStart elseEnd).thenBridges.filter (·.name = x) =
      (joinOf before thenEnd elseStart elseEnd x).thenBridge.toList := by
  rw [thenBridges_eq]
  refine filter_name_filterMap (fun x b hb => VariableJoin.name_of_bridge (.inl hb))
    (SymbolMap.nodup_keys _) x fun hNe => ?_
  obtain ⟨b, hb⟩ := Option.ne_none_iff_exists'.mp hNe
  exact mem_knownVariables_of_bridge (.inl hb)

theorem filter_elseBridges (before : Scope) (thenEnd : Option Scope) (elseStart : Scope)
    (elseEnd : Option Scope) (x : Symbol) :
    (joinBranches before thenEnd elseStart elseEnd).elseBridges.filter (·.name = x) =
      (joinOf before thenEnd elseStart elseEnd x).elseBridge.toList := by
  rw [elseBridges_eq]
  refine filter_name_filterMap (fun x b hb => VariableJoin.name_of_bridge (.inr hb))
    (SymbolMap.nodup_keys _) x fun hNe => ?_
  obtain ⟨b, hb⟩ := Option.ne_none_iff_exists'.mp hNe
  exact mem_knownVariables_of_bridge (.inr hb)

/-! ## The join as a whole -/

theorem BranchesLast.mem_keys_iff (h : BranchesLast before thenEnd elseStart elseEnd)
    (x : Symbol) : x ∈ (joinBranches before thenEnd elseStart elseEnd).scope.keys ↔
      x ∈ knownVariables before thenEnd elseEnd := by
  have hKept : ∀ {a b : Option Versions}, Versions.Grows a b → a.isSome → b.isSome := by
    intro a b hGrows ha
    obtain ⟨v, rfl⟩ := Option.isSome_iff_exists.mp ha
    obtain ⟨v', rfl, -⟩ := hGrows v rfl
    rfl
  rw [SymbolMap.mem_keys_iff]
  constructor
  · -- a variable that nobody knows has no entry to be kept either
    intro hSome
    by_contra hNot
    rw [get?_joinBranches, joinOf_eq_of_not_mem hNot, Option.none_or] at hSome
    rw [mem_knownVariables_iff, not_or, not_or] at hNot
    obtain ⟨hBefore, hThen, hElse⟩ := hNot
    cases thenEnd with
    | some s => exact hThen ⟨s, rfl, (SymbolMap.mem_keys_iff s x).mpr hSome⟩
    | none =>
      cases elseEnd with
      | some e => exact hElse ⟨e, rfl, (SymbolMap.mem_keys_iff e x).mpr hSome⟩
      | none => exact hBefore ((SymbolMap.mem_keys_iff before x).mpr hSome)
  · intro hMem
    rcases mem_knownVariables_iff.mp hMem with hBefore | ⟨s, rfl, hs⟩ | ⟨e, rfl, he⟩
    · rw [SymbolMap.mem_keys_iff] at hBefore
      exact hKept (h.goesOn x).fromThen (hKept (h.thenLasts_getD x).1 hBefore)
    · exact hKept (h.goesOn x).fromThen ((SymbolMap.mem_keys_iff s x).mp hs)
    · exact hKept (h.goesOn x).fromElse ((SymbolMap.mem_keys_iff e x).mp he)

theorem BranchesLast.elseChanged_iff (h : BranchesLast before thenEnd elseStart elseEnd)
    {x : Symbol} : Changed elseStart elseEnd x ↔ (elseEnd.getD before).get? x ≠
      if elseEnd.isSome then elseStart.get? x else before.get? x := by
  cases elseEnd with
  | none => exact ⟨fun ⟨_, h, _⟩ => (nomatch h), fun hNe => absurd rfl hNe⟩
  | some e =>
    constructor
    · rintro ⟨_, ⟨⟩, hNe⟩
      exact hNe
    · exact fun hNe => ⟨e, rfl, hNe⟩

theorem name_ne_of_bridges_eq_none {bridges bridges' : List Bridge} {x : Symbol}
    {bridge bridge' : Option Bridge} (hFilter : bridges.filter (·.name = x) = bridge.toList)
    (hFilter' : bridges'.filter (·.name = x) = bridge'.toList) (h : bridge = none)
    (h' : bridge' = none) : ∀ b ∈ bridges ++ bridges', b.name ≠ x := by
  subst h h'
  intro b hb
  rcases List.mem_append.mp hb with hb | hb
  · exact name_ne_of_filter_eq_nil hFilter b hb
  · exact name_ne_of_filter_eq_nil hFilter' b hb

/-- Every bridge belongs to the variable that it names. -/
theorem exists_joinOf_of_mem_bridges {b : Bridge}
    (hb : b ∈ (joinBranches before thenEnd elseStart elseEnd).thenBridges ++
      (joinBranches before thenEnd elseStart elseEnd).elseBridges) :
    (joinOf before thenEnd elseStart elseEnd b.name).thenBridge = some b ∨
      (joinOf before thenEnd elseStart elseEnd b.name).elseBridge = some b := by
  rcases List.mem_append.mp hb with hb | hb
  · have hMem : b ∈ (joinBranches before thenEnd elseStart elseEnd).thenBridges.filter
        (·.name = b.name) := List.mem_filter.mpr ⟨hb, decide_eq_true rfl⟩
    rw [filter_thenBridges, Option.mem_toList] at hMem
    exact .inl hMem
  · have hMem : b ∈ (joinBranches before thenEnd elseStart elseEnd).elseBridges.filter
        (·.name = b.name) := List.mem_filter.mpr ⟨hb, decide_eq_true rfl⟩
    rw [filter_elseBridges, Option.mem_toList] at hMem
    exact .inr hMem

theorem BranchesLast.source_ne_target (h : BranchesLast before thenEnd elseStart elseEnd)
    {b : Bridge} (hb : b ∈ (joinBranches before thenEnd elseStart elseEnd).thenBridges ++
      (joinBranches before thenEnd elseStart elseEnd).elseBridges) : b.source ≠ some b.target := by
  have hDecides := h.decides b.name
  have hBridge := exists_joinOf_of_mem_bridges hb
  cases hRead : Versions.reads
      ((joinBranches before thenEnd elseStart elseEnd).scope.get? b.name) with
  | none =>
    obtain ⟨-, hThen, hElse⟩ := hDecides.unread hRead
    rw [hThen, hElse] at hBridge
    rcases hBridge with hBridge | hBridge <;> cases hBridge
  | some m =>
    obtain ⟨hThen, hElse⟩ := hDecides.bridges m hRead
    rw [hThen, hElse] at hBridge
    rcases hBridge with hBridge | hBridge <;>
    · obtain ⟨hNe, hEq⟩ := Bridge.between?_eq_some_iff.mp hBridge
      rw [hEq]
      exact hNe

theorem joinBranches_joined (before : Scope) (thenEnd : Option Scope) (elseStart : Scope)
    (elseEnd : Option Scope) (h : BranchesLast before thenEnd elseStart elseEnd) :
    Joined before thenEnd elseStart elseEnd (joinBranches before thenEnd elseStart elseEnd) where
  known x := (h.mem_keys_iff x).trans mem_knownVariables_iff
  thenArrives x m hRead := arrives_of_between <| by
    rw [filter_thenBridges, ((h.decides x).bridges m hRead).1]
    rfl
  elseArrives x m hRead := arrives_of_between <| by
    rw [filter_elseBridges, ((h.decides x).bridges m hRead).2]
    rfl
  thenOrder := by
    rw [thenBridges_eq]
    exact pairwise_filterMap (fun x b hb => VariableJoin.name_of_bridge (.inl hb))
      (List.pairwise_map.mpr (SymbolMap.ascending _))
  elseOrder := by
    rw [elseBridges_eq]
    exact pairwise_filterMap (fun x b hb => VariableJoin.name_of_bridge (.inr hb))
      (List.pairwise_map.mpr (SymbolMap.ascending _))
  carries _ hb := h.source_ne_target hb
  both x hThen hElse := by
    obtain ⟨s, rfl, hThenNe⟩ := hThen
    exact (h.decides x).both hThenNe (h.elseChanged_iff.mp hElse)
  past x v hv := by
    have hGoesOn := h.goesOn x
    rw [hv] at hGoesOn
    exact ⟨fun m hm => hGoesOn.sound v m rfl hm, hGoesOn.fromThen.next_le, hGoesOn.fromElse.next_le⟩
  neither x hThen hElse := by
    obtain ⟨hKept, hThenNone, hElseNone⟩ := (h.decides x).neither (not_changed_iff.mp hThen)
      (by_contra fun hNe => hElse (h.elseChanged_iff.mpr hNe))
    exact ⟨hKept, name_ne_of_bridges_eq_none (filter_thenBridges ..) (filter_elseBridges ..)
      hThenNone hElseNone⟩
  unread x hNone := by
    obtain ⟨hReads, hThenNone, hElseNone⟩ := (h.decides x).unread hNone
    exact ⟨hReads, name_ne_of_bridges_eq_none (filter_thenBridges ..) (filter_elseBridges ..)
      hThenNone hElseNone⟩

end Scope

namespace Sample

open Scope

def onceWritten : Scope := (Scope.write .empty ⟨21⟩).2

def rewritten : Scope := (Scope.write (onceWritten.write ⟨21⟩).2 ⟨22⟩).2

/-- The scopes of `a = 1 ; if c() then a = 2 ; b = 3 else a = 4 end`. -/
theorem rewritten_joined :
    BranchesLast onceWritten (some rewritten) (elseStart onceWritten rewritten)
      (some ((elseStart onceWritten rewritten).write ⟨21⟩).2) ∧
    Joined onceWritten (some rewritten) (elseStart onceWritten rewritten)
      (some ((elseStart onceWritten rewritten).write ⟨21⟩).2)
      (joinBranches onceWritten (some rewritten) (elseStart onceWritten rewritten)
        (some ((elseStart onceWritten rewritten).write ⟨21⟩).2)) := by
  have hEmpty : AllSound .empty := fun _ _ => nofun
  have hOne : AllSound onceWritten := hEmpty.write ⟨21⟩
  have hThen : onceWritten.Lasts rewritten :=
    (lasts_write onceWritten ⟨21⟩).trans (lasts_write _ ⟨22⟩)
  have hStart : (elseStart onceWritten rewritten).AllSound := hOne.elseStart fun x => (hThen x).1
  have h : BranchesLast onceWritten (some rewritten) (elseStart onceWritten rewritten)
      (some ((elseStart onceWritten rewritten).write ⟨21⟩).2) := by
    refine ⟨hOne, rfl, ?_, ?_⟩
    · rintro _ ⟨⟩
      exact ⟨hThen, (hOne.write ⟨21⟩).write ⟨22⟩⟩
    · rintro _ ⟨⟩
      exact ⟨lasts_write _ ⟨21⟩, hStart.write ⟨21⟩⟩
  exact ⟨h, joinBranches_joined _ _ _ _ h⟩

end Sample

end CoreTree

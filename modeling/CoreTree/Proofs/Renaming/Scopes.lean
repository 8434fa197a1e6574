import CoreTree.Proofs.Versions.Joining
import Mathlib.Data.List.Find

/-! # Scopes under other symbols

Scopes list their variables in the order of their symbols, and so do joins list their bridges. If
another program orders its symbols for the same variables in the same way, then whatever is done to
one scope can be done to the other, and the listings correspond position by position.
-/
namespace CoreTree
set_option autoImplicit false

/-- The symbols in `X` keep their order. -/
def Increasing (f : Symbol → Symbol) (X : Set Symbol) : Prop :=
  ∀ x ∈ X, ∀ y ∈ X, x.id < y.id → (f x).id < (f y).id

theorem Increasing.injective {f : Symbol → Symbol} {X : Set Symbol} (hf : Increasing f X)
    {x y : Symbol} (hx : x ∈ X) (hy : y ∈ X) : f x = f y ↔ x = y := by
  refine ⟨fun hEq => ?_, congrArg f⟩
  rcases Nat.lt_trichotomy x.id y.id with hLt | hId | hGt
  · exact absurd (hEq ▸ hf x hx y hy hLt) (Nat.lt_irrefl _)
  · cases x
    cases y
    exact congrArg Symbol.mk hId
  · exact absurd (hEq ▸ hf y hy x hx hGt) (Nat.lt_irrefl _)

theorem Increasing.lt_iff {f : Symbol → Symbol} {X : Set Symbol} (hf : Increasing f X)
    {x y : Symbol} (hx : x ∈ X) (hy : y ∈ X) : (f x).id < (f y).id ↔ x.id < y.id := by
  refine ⟨fun hLt => ?_, hf x hx y hy⟩
  rcases Nat.lt_trichotomy x.id y.id with h | hId | hGt
  · exact h
  · obtain rfl : x = y := by
      cases x
      cases y
      exact congrArg Symbol.mk hId
    exact absurd hLt (Nat.lt_irrefl _)
  · exact absurd (hLt.trans (hf y hy x hx hGt)) (Nat.lt_irrefl _)

variable {f : Symbol → Symbol} {X : Set Symbol}

namespace SymbolMap

variable {α β : Type}

/-- The second map is the first one under other keys. -/
structure Renamed (f : Symbol → Symbol) (X : Set Symbol) (m m' : SymbolMap α) : Prop where
  entries : m'.entries = m.entries.map fun e => (f e.1, e.2)
  known : ∀ e ∈ m.entries, e.1 ∈ X

theorem renamed_empty : Renamed f X (empty : SymbolMap α) empty := ⟨rfl, nofun⟩

theorem Renamed.map {m m' : SymbolMap α} (h : Renamed f X m m') {F F' : Symbol → α → β}
    (hF : ∀ x ∈ X, ∀ v, F' (f x) v = F x v) : Renamed f X (m.map F) (m'.map F') where
  entries := by
    simp only [SymbolMap.map, h.entries, List.map_map]
    exact List.map_congr_left fun e he => Prod.ext rfl (hF e.1 (h.known e he) e.2)
  known e he := by
    obtain ⟨e', he', rfl⟩ := List.mem_map.mp he
    exact h.known e' he'

theorem Renamed.keys {m m' : SymbolMap α} (h : Renamed f X m m') : m'.keys = m.keys.map f := by
  simp only [SymbolMap.keys, h.entries, List.map_map]
  rfl

theorem Renamed.mem_of_mem_keys {m m' : SymbolMap α} (h : Renamed f X m m') {x : Symbol}
    (hx : x ∈ m.keys) : x ∈ X := by
  obtain ⟨e, he, rfl⟩ := List.mem_map.mp hx
  exact h.known e he

section

variable (hf : Increasing f X)
include hf

theorem Renamed.get? {m m' : SymbolMap α} (h : Renamed f X m m') {x : Symbol} (hx : x ∈ X) :
    m'.get? (f x) = m.get? x := by
  have hLookup : ∀ l : List (Symbol × α), (∀ e ∈ l, e.1 ∈ X) →
      lookup (f x) (l.map fun e => (f e.1, e.2)) = lookup x l := by
    intro l hl
    induction l with
    | nil => rfl
    | cons e rest ih =>
      rw [List.map_cons, lookup, lookup, ih fun e' he' => hl e' (.tail _ he')]
      simp only [hf.injective (hl e (.head _)) hx]
  rw [SymbolMap.get?, h.entries]
  exact hLookup m.entries h.known

theorem Renamed.insert {m m' : SymbolMap α} (h : Renamed f X m m') {x : Symbol} (hx : x ∈ X)
    (v : α) : Renamed f X (m.insert x v) (m'.insert (f x) v) where
  entries := by
    have hInsert : ∀ l : List (Symbol × α), (∀ e ∈ l, e.1 ∈ X) →
        insertEntry (f x) v (l.map fun e => (f e.1, e.2)) =
          (insertEntry x v l).map fun e => (f e.1, e.2) := by
      intro l hl
      induction l with
      | nil => rfl
      | cons e rest ih =>
        have he := hl e (.head _)
        rw [List.map_cons, insertEntry, insertEntry, ih fun e' he' => hl e' (.tail _ he')]
        simp only [hf.lt_iff hx he, hf.injective hx he]
        split
        · rfl
        · split <;> rfl
    simp only [SymbolMap.insert, h.entries, hInsert m.entries h.known]
  known e he := by
    rcases mem_insertEntry he with rfl | he
    · exact hx
    · exact h.known e he

theorem Renamed.erase {m m' : SymbolMap α} (h : Renamed f X m m') {x : Symbol} (hx : x ∈ X) :
    Renamed f X (m.erase x) (m'.erase (f x)) where
  entries := by
    simp only [SymbolMap.erase, h.entries, List.filter_map]
    refine congrArg _ (List.filter_congr fun e he => ?_)
    rw [Function.comp_apply, Bool.eq_iff_iff, bne_iff_ne, bne_iff_ne]
    exact not_congr (hf.injective (h.known e he) hx)
  known e he := h.known e (List.mem_filter.mp he).1

theorem Renamed.overlay {m m' n n' : SymbolMap α} (h : Renamed f X m m') (hn : Renamed f X n n') :
    Renamed f X (m.overlay n) (m'.overlay n') := by
  have hFold : ∀ l : List (Symbol × α), (∀ e ∈ l, e.1 ∈ X) → ∀ m m' : SymbolMap α,
      Renamed f X m m' → Renamed f X (l.foldl (fun m e => m.insert e.1 e.2) m)
        ((l.map fun e => (f e.1, e.2)).foldl (fun m e => m.insert e.1 e.2) m') := by
    intro l hl
    induction l with
    | nil => exact fun m m' hm => hm
    | cons e rest ih =>
      exact fun m m' hm => ih (fun e' he' => hl e' (.tail _ he')) _ _
        (hm.insert hf (hl e (.head _)) e.2)
  rw [SymbolMap.overlay, SymbolMap.overlay, hn.entries]
  exact hFold n.entries hn.known m m' h

end

end SymbolMap

/-! ## Bridges -/

def Bridge.rename (f : Symbol → Symbol) (b : Bridge) : Bridge := { b with name := f b.name }

namespace VariableJoin

def rename (f : Symbol → Symbol) (j : VariableJoin) : VariableJoin :=
  { j with
    thenBridge := j.thenBridge.map (·.rename f)
    elseBridge := j.elseBridge.map (·.rename f) }

theorem between?_rename (x : Symbol) (target : Nat) (source : Option Nat) :
    Bridge.between? (f x) target source = (Bridge.between? x target source).map (·.rename f) := by
  unfold Bridge.between?
  split <;> rfl

theorem oneSided_rename (x : Symbol) (written : Versions) (other : Option Versions)
    (otherRead : Option Nat) : oneSided (f x) written other otherRead =
      ((oneSided x written other otherRead).1,
        (oneSided x written other otherRead).2.map (·.rename f)) := by
  unfold oneSided
  split
  · rfl
  · rw [between?_rename]

theorem of_rename (x : Symbol) (thenStart thenEnd elseStart elseEnd : Option Versions) :
    of (f x) thenStart thenEnd elseStart elseEnd =
      (of x thenStart thenEnd elseStart elseEnd).rename f := by
  unfold of
  split
  · cases elseEnd with
    | none => rfl
    | some written =>
      dsimp only
      split
      · rfl
      · rw [oneSided_rename]
        rfl
  · cases thenEnd with
    | none => rfl
    | some written =>
      dsimp only
      split
      · rw [oneSided_rename]
        rfl
      · cases elseEnd with
        | none => rfl
        | some v =>
          simp only [Option.elim_some, twoSided, rename, between?_rename]

end VariableJoin

/-! ## Scopes -/

namespace Scope

abbrev Renamed (f : Symbol → Symbol) (X : Set Symbol) (s s' : Scope) : Prop :=
  SymbolMap.Renamed f X s s'

/-- Scopes that branches end with, if there are branches. -/
def OptionRenamed (f : Symbol → Symbol) (X : Set Symbol) (s s' : Option Scope) : Prop :=
  Option.Rel (Renamed f X) s s'

variable {s s' t t' : Scope}

section

variable (hf : Increasing f X)
include hf

theorem renamed_ofParams {params : List Symbol} (h : ∀ x ∈ params, x ∈ X) :
    Renamed f X (ofParams params) (ofParams (params.map f)) := by
  have hFold : ∀ s s' : Scope, Renamed f X s s' →
      Renamed f X (params.foldl (fun s x => s.insert x .fresh) s)
        ((params.map f).foldl (fun s x => s.insert x .fresh) s') := by
    induction params with
    | nil => exact fun s s' hs => hs
    | cons x xs ih =>
      intro s s' hs
      rw [List.map_cons, List.foldl_cons, List.foldl_cons]
      exact ih (fun y hy => h y (.tail _ hy)) _ _ (hs.insert hf (h x (.head _)) .fresh)
  exact hFold _ _ SymbolMap.renamed_empty

theorem Renamed.write (h : Renamed f X s s') {x : Symbol} (hx : x ∈ X) :
    (s'.write (f x)).1 = (s.write x).1 ∧ Renamed f X (s.write x).2 (s'.write (f x)).2 := by
  unfold Scope.write
  rw [SymbolMap.Renamed.get? hf h hx]
  cases s.get? x with
  | none => exact ⟨rfl, h.insert hf hx .fresh⟩
  | some v => exact ⟨rfl, h.insert hf hx v.advanced⟩

theorem Renamed.readVersion? (h : Renamed f X s s') {x : Symbol} (hx : x ∈ X) :
    s'.readVersion? (f x) = s.readVersion? x := by
  rw [Scope.readVersion?, SymbolMap.Renamed.get? hf h hx]
  rfl

theorem Renamed.elseStart (h : Renamed f X s s') (ht : Renamed f X t t') :
    Renamed f X (elseStart s t) (elseStart s' t') :=
  ht.map fun x hx v => by rw [SymbolMap.Renamed.get? hf h hx]

theorem Renamed.bindParams (h : Renamed f X s s') {params : List Symbol}
    (hParams : ∀ x ∈ params, x ∈ X) :
    (bindParams s' (params.map f)).1 = (bindParams s params).1.map (fun e => (f e.1, e.2)) ∧
      (∀ e ∈ (bindParams s params).1, e.1 ∈ X) ∧
      Renamed f X (bindParams s params).2 (bindParams s' (params.map f)).2 := by
  induction params generalizing s s' with
  | nil => exact ⟨rfl, nofun, h⟩
  | cons x xs ih =>
    have hx := hParams x (.head _)
    obtain ⟨hHidden, hKnown, hBound⟩ :=
      ih (h.insert hf hx .fresh) fun y hy => hParams y (.tail _ hy)
    refine ⟨?_, List.forall_mem_cons.mpr ⟨hx, hKnown⟩, hBound⟩
    show (f x, s'.get? (f x)) :: (Scope.bindParams (s'.insert (f x) .fresh) (xs.map f)).1 =
      (f x, s.get? x) :: (Scope.bindParams (s.insert x .fresh) xs).1.map _
    rw [hHidden, SymbolMap.Renamed.get? hf h hx]

theorem Renamed.unbindParams (h : Renamed f X s s') {hidden : List (Symbol × Option Versions)}
    (hHidden : ∀ e ∈ hidden, e.1 ∈ X) :
    Renamed f X (unbindParams s hidden) (unbindParams s' (hidden.map fun e => (f e.1, e.2))) := by
  induction hidden with
  | nil => exact h
  | cons e rest ih =>
    obtain ⟨x, v⟩ := e
    have hx : x ∈ X := hHidden (x, v) (.head _)
    have hRest := ih fun e he => hHidden e (.tail _ he)
    cases v with
    | none => exact SymbolMap.Renamed.erase hf hRest hx
    | some v => exact SymbolMap.Renamed.insert hf hRest hx v

end

end Scope

/-! ## Joins -/

/-- The second list has the bridges of the first under other names. -/
structure BridgesRenamed (f : Symbol → Symbol) (X : Set Symbol) (l l' : List Bridge) : Prop where
  bridges : l' = l.map (·.rename f)
  known : ∀ b ∈ l, b.name ∈ X

theorem bridgesRenamed_filterMap {α β : Type} {items : List α} {h : α → β}
    {bridge : α → Option Bridge} {bridge' : β → Option Bridge}
    (hBridge : ∀ a ∈ items, bridge' (h a) = (bridge a).map (·.rename f))
    (hKnown : ∀ a ∈ items, ∀ b, bridge a = some b → b.name ∈ X) :
    BridgesRenamed f X (items.filterMap bridge) ((items.map h).filterMap bridge') where
  bridges := by
    induction items with
    | nil => rfl
    | cons a items ih =>
      rw [List.map_cons, List.filterMap_cons, List.filterMap_cons, hBridge a (.head _),
        ih (fun a' ha' => hBridge a' (.tail _ ha')) fun a' ha' => hKnown a' (.tail _ ha')]
      cases bridge a <;> rfl
  known b hb := by
    obtain ⟨a, ha, hEq⟩ := List.mem_filterMap.mp hb
    exact hKnown a ha b hEq

theorem BridgesRenamed.append {l l' k k' : List Bridge} (h : BridgesRenamed f X l l')
    (hk : BridgesRenamed f X k k') : BridgesRenamed f X (l ++ k) (l' ++ k') where
  bridges := by rw [h.bridges, hk.bridges, List.map_append]
  known := List.forall_mem_append.mpr ⟨h.known, hk.known⟩

/-- Bridges that are among others are so under other names. -/
theorem BridgesRenamed.filter_not_contains (hf : Increasing f X) {l l' k k' : List Bridge}
    (h : BridgesRenamed f X l l') (hk : BridgesRenamed f X k k') :
    BridgesRenamed f X (l.filter (!k.contains ·)) (l'.filter (!k'.contains ·)) where
  bridges := by
    rw [h.bridges, hk.bridges, List.filter_map]
    refine congrArg _ (List.filter_congr fun b hb => ?_)
    rw [Function.comp_apply, Bool.eq_iff_iff]
    simp only [Bool.not_eq_true', ← Bool.not_eq_true, List.contains_iff_mem, List.mem_map,
      not_iff_not]
    refine ⟨?_, fun hMem => ⟨b, hMem, rfl⟩⟩
    rintro ⟨⟨x, target, source⟩, hMem, hEq⟩
    cases b
    obtain ⟨hName, rfl, rfl⟩ := Bridge.mk.inj hEq
    obtain rfl := (hf.injective (hk.known _ hMem) (h.known _ hb)).mp hName
    exact hMem
  known b hb := h.known b (List.mem_filter.mp hb).1

namespace Scope

variable {s s' t t' : Scope}

section

variable (hf : Increasing f X)
include hf

theorem OptionRenamed.get? {s s' : Option Scope} (h : OptionRenamed f X s s') {x : Symbol}
    (hx : x ∈ X) (start : Option Versions) :
    s'.elim start (·.get? (f x)) = s.elim start (·.get? x) := by
  cases h with
  | none => rfl
  | some h => exact SymbolMap.Renamed.get? hf h hx

omit hf in
theorem OptionRenamed.isSome {s s' : Option Scope} (h : OptionRenamed f X s s') :
    s'.isSome = s.isSome := by
  cases h <;> rfl

omit hf in
theorem OptionRenamed.getD {s s' : Option Scope} (h : OptionRenamed f X s s')
    (ht : Renamed f X t t') : Renamed f X (s.getD t) (s'.getD t') := by
  cases h with
  | none => exact ht
  | some h => exact h

omit hf in
theorem OptionRenamed.orElse {r r' s s' : Option Scope} (h : OptionRenamed f X r r')
    (hs : OptionRenamed f X s s') : OptionRenamed f X (r <|> s) (r' <|> s') := by
  cases h with
  | none => exact hs
  | some h => exact .some h

theorem Renamed.foldl_versions {join join' : Symbol → VariableJoin} {names : List Symbol}
    (h : Renamed f X s s') (hNames : ∀ x ∈ names, x ∈ X)
    (hJoin : ∀ x ∈ names, join' (f x) = (join x).rename f) :
    Renamed f X
      ((names.map fun x => (x, join x)).foldl
        (fun s (x, join) => join.versions.elim s (s.insert x)) s)
      (((names.map f).map fun x => (x, join' x)).foldl
        (fun s (x, join) => join.versions.elim s (s.insert x)) s') := by
  induction names generalizing s s' with
  | nil => exact h
  | cons x names ih =>
    refine ih ?_ (fun y hy => hNames y (.tail _ hy)) fun y hy => hJoin y (.tail _ hy)
    show Renamed f X ((join x).versions.elim s (s.insert x))
      ((join' (f x)).versions.elim s' (s'.insert (f x)))
    rw [hJoin x (.head _)]
    show Renamed f X _ ((join x).versions.elim s' (s'.insert (f x)))
    cases (join x).versions with
    | none => exact h
    | some v => exact SymbolMap.Renamed.insert hf h (hNames x (.head _)) v

/-- Branches that correspond join in the same way. -/
theorem renamed_joinBranches {thenEnd thenEnd' elseEnd elseEnd' : Option Scope}
    (hBefore : Renamed f X s s') (hThen : OptionRenamed f X thenEnd thenEnd')
    (hStart : Renamed f X t t') (hElse : OptionRenamed f X elseEnd elseEnd') :
    let join := joinBranches s thenEnd t elseEnd
    let join' := joinBranches s' thenEnd' t' elseEnd'
    BridgesRenamed f X join.thenBridges join'.thenBridges ∧
      BridgesRenamed f X join.elseBridges join'.elseBridges ∧
      Renamed f X join.scope join'.scope := by
  have hKnown := SymbolMap.Renamed.overlay hf (SymbolMap.Renamed.overlay hf hBefore
    (hThen.getD SymbolMap.renamed_empty)) (hElse.getD SymbolMap.renamed_empty)
  have hNames : ∀ x ∈ knownVariables s thenEnd elseEnd, x ∈ X := fun x =>
    hKnown.mem_of_mem_keys
  have hKeys : knownVariables s' thenEnd' elseEnd' =
      (knownVariables s thenEnd elseEnd).map f := hKnown.keys
  have hJoin : ∀ x ∈ knownVariables s thenEnd elseEnd,
      BranchEnds.joinOf s' thenEnd' t' elseEnd' (f x) =
        (BranchEnds.joinOf s thenEnd t elseEnd x).rename f := by
    intro x hMem
    have hx := hNames x hMem
    simp only [BranchEnds.joinOf, hThen.get? hf hx, hElse.get? hf hx, hElse.isSome,
      SymbolMap.Renamed.get? hf hBefore hx, SymbolMap.Renamed.get? hf hStart hx,
      VariableJoin.of_rename]
  refine ⟨?_, ?_, ?_⟩
  · show BridgesRenamed f X (((knownVariables s thenEnd elseEnd).map _).filterMap _)
      (((knownVariables s' thenEnd' elseEnd').map _).filterMap _)
    rw [List.filterMap_map, List.filterMap_map, hKeys]
    exact bridgesRenamed_filterMap (fun x hx => congrArg (·.thenBridge) (hJoin x hx))
      fun x hx b hb => VariableJoin.name_of_bridge (.inl hb) ▸ hNames x hx
  · show BridgesRenamed f X (((knownVariables s thenEnd elseEnd).map _).filterMap _)
      (((knownVariables s' thenEnd' elseEnd').map _).filterMap _)
    rw [List.filterMap_map, List.filterMap_map, hKeys]
    exact bridgesRenamed_filterMap (fun x hx => congrArg (·.elseBridge) (hJoin x hx))
      fun x hx b hb => VariableJoin.name_of_bridge (.inr hb) ▸ hNames x hx
  · have hFold := Renamed.foldl_versions hf ((hThen.orElse hElse).getD hBefore) hNames hJoin
    rw [← hKeys] at hFold
    exact hFold

theorem Renamed.loopBridges (h : Renamed f X s s') (ht : Renamed f X t t') :
    BridgesRenamed f X (loopBridges s t) (loopBridges s' t') := by
  rw [Scope.loopBridges, Scope.loopBridges, ht.entries]
  refine bridgesRenamed_filterMap (fun e he => ?_) fun e he b hb => ?_
  · dsimp only
    rw [SymbolMap.Renamed.get? hf h (ht.known e he)]
    split
    · split <;> rfl
    · rfl
  · obtain ⟨x, v⟩ := e
    dsimp only at hb
    split at hb
    · split at hb
      · cases hb
        exact ht.known _ he
      · cases hb
    · cases hb

theorem Renamed.rewindLoop (h : Renamed f X s s') (ht : Renamed f X t t') :
    Renamed f X (rewindLoop s t) (rewindLoop s' t') :=
  ht.map fun x hx v => by rw [SymbolMap.Renamed.get? hf h hx]

theorem Renamed.rewindBlock (h : Renamed f X s s') {bridges bridges' : List Bridge}
    (hBridges : BridgesRenamed f X bridges bridges') :
    Renamed f X (rewindBlock s bridges) (rewindBlock s' bridges') := by
  refine SymbolMap.Renamed.map h fun x hx v => ?_
  have hFind : bridges'.find? (·.name == f x) =
      (bridges.find? (·.name == x)).map (·.rename f) := by
    rw [hBridges.bridges, List.find?_map]
    refine congrArg _ (List.find?_congr fun b hb => ?_)
    rw [Function.comp_apply, Bool.eq_iff_iff, beq_iff_eq, beq_iff_eq]
    exact hf.injective (hBridges.known b hb) hx
  rw [hFind]
  cases bridges.find? (·.name == x) <;> rfl

end

end Scope

end CoreTree

import CoreTree.Proofs.Meaning.OfNode
import CoreTree.Proofs.Versions.Joining

/-! # Agreement of machines

Two machines agree at a scope if every variable has, in the version that the scope reads, the
value it has by name, and if the world is the same. A variable that no version reaches is
unset in both. Bridges move the agreement from the end of a path to the scope it meets.
-/
namespace CoreTree
set_option autoImplicit false

abbrev Cell := Symbol × Nat

/-- What is compared: under which interpretation, within how many rounds, on which variables.
If parts of the tree may run `again`, every variable has a version from the start. -/
structure Setting (V : Type) where
  interp : Interp V
  rounds : Nat
  again : Bool
  names : Set Symbol

abbrev Held (V : Type) := Symbol → Option V

variable {V : Type}

namespace Held

def Extends (held held' : Held V) : Prop := ∀ t v, held t = some v → held' t = some v

variable {held held' held'' : Held V}

theorem Extends.refl (held : Held V) : held.Extends held := fun _ _ h => h

theorem Extends.trans (h : held.Extends held') (h' : held'.Extends held'') :
    held.Extends held'' := fun t v ht => h' t v (h t v ht)

def keep (held : Held V) (t : Symbol) (v : V) : Held V := Function.update held t (some v)

theorem extends_keep {t : Symbol} (h : held t = none) (v : V) : held.Extends (held.keep t v) := by
  intro u x hu
  have hNe : u ≠ t := by
    rintro rfl
    rw [h] at hu
    cases hu
  rw [keep, Function.update_of_ne hNe]
  exact hu

end Held

def Bridge.value (I : Interp V) (b : Bridge) (locals : Cell → V) : V :=
  b.source.elim I.nil fun version => locals (b.name, version)

def Bridge.write (I : Interp V) (locals : Cell → V) (b : Bridge) : Cell → V :=
  Function.update locals (b.name, b.target) (b.value I locals)

def runBridges (I : Interp V) (bridges : List Bridge) (locals : Cell → V) : Cell → V :=
  bridges.foldl (Bridge.write I) locals

/-- If no bridge of a variable reads what another one writes, all of them read what was there
before the first one ran. -/
theorem runBridges_apply (I : Interp V) {x : Symbol} {source : Option Nat} (bridges : List Bridge)
    (locals : Cell → V) (version : Nat)
    (h : ∀ b ∈ bridges, b.name = x → b.source = source ∧ b.source ≠ some b.target) :
    runBridges I bridges locals (x, version) =
      if ∃ b ∈ bridges, b.name = x ∧ b.target = version then
        source.elim I.nil fun v => locals (x, v)
      else locals (x, version) := by
  induction bridges generalizing locals with
  | nil => simp [runBridges]
  | cons b bs ih =>
    -- a first bridge of `x` writes no version that `source` names, so the rest reads the same
    have hRest := ih (b.write I locals) fun b' hb' => h b' (.tail _ hb')
    rw [runBridges] at hRest
    rw [runBridges, List.foldl_cons, hRest]
    by_cases hName : b.name = x
    · obtain ⟨hSource, hNe⟩ := h b (.head _) hName
      have hRead : (source.elim I.nil fun v => b.write I locals (x, v)) =
          source.elim I.nil fun v => locals (x, v) := by
        cases source with
        | none => rfl
        | some v =>
          have hTarget : v ≠ b.target := fun hEq => hNe (hEq ▸ hSource)
          simp [Bridge.write, Function.update_apply, hTarget]
      rw [hRead]
      by_cases hTarget : b.target = version
      · have hHead : b.write I locals (x, version) = source.elim I.nil fun v => locals (x, v) := by
          simp [Bridge.write, Bridge.value, hName, hTarget, hSource]
        simp [hName, hTarget, hHead]
      · have hHead : b.write I locals (x, version) = locals (x, version) := by
          simp [Bridge.write, Ne.symm hTarget]
        simp [hName, hTarget, hHead]
    · have hOther : ∀ v, b.write I locals (x, v) = locals (x, v) := fun v => by
        simp [Bridge.write, Ne.symm hName]
      simp [hName, hOther]

structure Setting.Agree (C : Setting V) (held : Held V) (s : Scope) (named : Machine Symbol V)
    (versioned : Machine Cell V) : Prop where
  reads : ∀ x ∈ C.names, ∀ r, s.reads x = some r → versioned.locals (x, r) = named.locals x
  unset : ∀ x ∈ C.names, s.reads x = none →
    named.locals x = C.interp.nil ∧ ∀ v, versioned.locals (x, v) = C.interp.nil
  temps : ∀ t v, held t = some v → versioned.temps t = v
  world : named.world = versioned.world

namespace Setting.Agree

variable {C : Setting V} {held : Held V} {s s' : Scope} {m : Machine Symbol V} {w : Machine Cell V}

theorem value (h : C.Agree held s m w) {x : Symbol} (hx : x ∈ C.names) :
    w.locals (x, (s.reads x).getD 0) = m.locals x := by
  cases hr : s.reads x with
  | none =>
    obtain ⟨hNamed, hVersions⟩ := h.unset x hx hr
    exact (hVersions 0).trans hNamed.symm
  | some r => exact h.reads x hx r hr

theorem congr_reads (h : C.Agree held s m w) (hs : ∀ x ∈ C.names, s'.reads x = s.reads x) :
    C.Agree held s' m w where
  reads x hx r hr := h.reads x hx r (hs x hx ▸ hr)
  unset x hx hr := h.unset x hx (hs x hx ▸ hr)
  temps := h.temps
  world := h.world

theorem weaken (h : C.Agree held s m w) {held' : Held V} (hExtends : held'.Extends held) :
    C.Agree held' s m w :=
  ⟨h.reads, h.unset, fun t v ht => h.temps t v (hExtends t v ht), h.world⟩

/-- The variable that is written may be compared from then on. -/
theorem write_of {C' : Setting V} (h : C.Agree held s m w) {x : Symbol}
    (hInterp : C'.interp = C.interp) (hNames : ∀ y ∈ C'.names, y ≠ x → y ∈ C.names) (v : V) :
    C'.Agree held (s.write x).2 { m with locals := Function.update m.locals x v }
      { w with locals := Function.update w.locals (x, (s.write x).1) v } where
  reads y hy r hr := by
    by_cases hxy : y = x
    · subst hxy
      rw [Scope.reads_write] at hr
      cases hr
      simp
    · rw [Scope.reads_write_of_ne s hxy] at hr
      simpa [Function.update_apply, hxy] using h.reads y (hNames y hy hxy) r hr
  unset y hy hr := by
    by_cases hxy : y = x
    · subst hxy
      rw [Scope.reads_write] at hr
      cases hr
    · rw [Scope.reads_write_of_ne s hxy] at hr
      simpa [Function.update_apply, hxy, hInterp] using h.unset y (hNames y hy hxy) hr
  temps := h.temps
  world := h.world

theorem write (h : C.Agree held s m w) (x : Symbol) (v : V) :
    C.Agree held (s.write x).2 { m with locals := Function.update m.locals x v }
      { w with locals := Function.update w.locals (x, (s.write x).1) v } :=
  h.write_of rfl (fun _ hy _ => hy) v

/-- Bridges leave the version that the path reads as it is. -/
theorem value_runBridges (h : C.Agree held s m w) {bridges : List Bridge} {x : Symbol}
    (hx : x ∈ C.names)
    (hCarried : ∀ b ∈ bridges, b.name = x → b.source = s.reads x ∧ b.source ≠ some b.target) :
    runBridges C.interp bridges w.locals (x, (s.reads x).getD 0) = m.locals x := by
  rw [runBridges_apply C.interp bridges w.locals _ hCarried]
  split
  · cases hr : s.reads x with
    | none => exact (h.unset x hx hr).1.symm
    | some r => exact h.reads x hx r hr
  · exact h.value hx

/-- A path that meets a scope brings the agreement there. -/
theorem meet (h : C.Agree held s m w) {bridges : List Bridge}
    (hMeets : s.Meets C.names bridges s') :
    C.Agree held s' m { w with locals := runBridges C.interp bridges w.locals } where
  reads x hx r hr := by
    show runBridges C.interp bridges w.locals (x, r) = _
    have hApply := runBridges_apply C.interp bridges w.locals r fun b hb hName =>
      hName ▸ hMeets.carried b hb (hName ▸ hx)
    rw [hApply]
    obtain ⟨b, hb, hName, hTarget⟩ | ⟨hNone, hReads⟩ := hMeets.lands x hx
    · -- the bridge copies what the path reads, or `nil` where the variable is unset
      rw [hr] at hTarget
      rw [if_pos ⟨b, hb, hName, (Option.some.inj hTarget).symm⟩]
      cases hs : s.reads x with
      | none => exact (h.unset x hx hs).1.symm
      | some k => exact h.reads x hx k hs
    · rw [if_neg fun ⟨b, hb, hName, _⟩ => hNone b hb hName]
      exact h.reads x hx r (hReads ▸ hr)
  unset x hx hr := by
    obtain ⟨b, _, _, hTarget⟩ | ⟨hNone, hReads⟩ := hMeets.lands x hx
    · rw [hr] at hTarget
      cases hTarget
    · obtain ⟨hNamed, hVersions⟩ := h.unset x hx (hReads ▸ hr)
      refine ⟨hNamed, fun v => ?_⟩
      show runBridges C.interp bridges w.locals (x, v) = _
      have hCarried : ∀ b ∈ bridges, b.name = x → b.source = s.reads x ∧ b.source ≠ some b.target :=
        fun b hb hName => absurd hName (hNone b hb)
      rw [runBridges_apply C.interp bridges w.locals v hCarried,
        if_neg fun ⟨b, hb, hName, _⟩ => hNone b hb hName]
      exact hVersions v
  temps := h.temps
  world := h.world

end Setting.Agree

/-- Bridges have run since the machines agreed. -/
def Setting.Bridged (C : Setting V) (held : Held V) (s : Scope) (bridges : List Bridge)
    (m : Machine Symbol V) (w : Machine Cell V) : Prop :=
  ∃ locals, w.locals = runBridges C.interp bridges locals ∧ C.Agree held s m { w with locals }

theorem Setting.Bridged.meet {C : Setting V} {held : Held V} {s s' : Scope}
    {bridges : List Bridge} {m : Machine Symbol V} {w : Machine Cell V}
    (h : C.Bridged held s bridges m w) (hMeets : s.Meets C.names bridges s') :
    C.Agree held s' m w := by
  obtain ⟨locals, hLocals, hAgree⟩ := h
  have hMeet := hAgree.meet hMeets
  rw [← hLocals] at hMeet
  exact hMeet

end CoreTree

import CoreTree.Proofs.Frame.Actions
import CoreTree.Proofs.Standing.Basic
import CoreTree.Proofs.Versions.Growth

/-! # Scopes that fit what is sure

The scope of a point knows no new variable, reads no hidden one and reads every bound one. From one
point to the next no variable is read in an older version, and what nothing has assigned so far is
left alone. Branches and loops keep to this, also for variables that are lost.
-/
namespace CoreTree
set_option autoImplicit false

namespace VariableJoin

/-- The bridge copies what the path reads, to a version that the path does not read. -/
def Carries (ended : Option Versions) (b : Bridge) : Prop :=
  b.source = Versions.reads ended ∧ b.source ≠ some b.target

theorem carries_of_between? {name : Symbol} {target : Nat} {ended : Option Versions} {b : Bridge}
    (h : Bridge.between? name target (Versions.reads ended) = some b) : Carries ended b := by
  obtain ⟨hNe, rfl⟩ := Bridge.between?_eq_some_iff.mp h
  exact ⟨rfl, hNe⟩

theorem carries_of_oneSided {name : Symbol} {written : Versions} {other ended : Option Versions}
    {b : Bridge} (h : (oneSided name written other (Versions.reads ended)).2 = some b) :
    Carries ended b := by
  unfold oneSided at h
  split at h
  · cases h
  · exact carries_of_between? h

/-- Whatever the branches did to the variable. -/
theorem carries_of (name : Symbol) (thenStart thenEnd elseStart elseEnd : Option Versions) :
    (∀ b, (of name thenStart thenEnd elseStart elseEnd).thenBridge = some b →
      Carries thenEnd b) ∧
    ∀ b, (of name thenStart thenEnd elseStart elseEnd).elseBridge = some b → Carries elseEnd b := by
  have hArises := arises_of name thenStart thenEnd elseStart elseEnd
  generalize of name thenStart thenEnd elseStart elseEnd = join at hArises ⊢
  cases hArises with
  | neither | lostThen | lostElse => simp
  | onlyElse =>
    refine ⟨fun b hb => carries_of_oneSided hb, ?_⟩
    rintro b ⟨⟩
  | onlyThen _ hElse =>
    subst hElse
    refine ⟨?_, fun b hb => carries_of_oneSided hb⟩
    rintro b ⟨⟩
  | both _ _ hThenEnd hElseEnd =>
    subst hThenEnd hElseEnd
    exact ⟨fun b hb => carries_of_between? hb, fun b hb => carries_of_between? hb⟩

end VariableJoin

namespace Scope

open Versions

structure Stands (s : Scope) (t : Standings) : Prop where
  new : ∀ x, t x = .new → s.get? x = none
  hidden : ∀ x, t x = .hidden → s.reads x = none
  bound : ∀ x, t x = .bound → (s.reads x).isSome

/-- How normalization goes on from one scope to another. -/
structure Onward (s : Scope) (t : Standings) (s' : Scope) (t' : Standings) : Prop where
  grows : s.Grows s'
  later : ∀ x r, s.reads x = some r → ∃ r', s'.reads x = some r' ∧ r ≤ r'
  sound : s'.AllSound
  stands : s'.Stands t'
  unset : ∀ x, t' x = .new ∨ t' x = .hidden → t x = t' x ∧ s'.get? x = s.get? x

variable {s s' s'' : Scope} {t t' t'' : Standings} {x : Symbol}

theorem reads_eq_none_of_get? (h : s.get? x = none) : s.reads x = none := by
  rw [reads, h]
  rfl

theorem Stands.reads_eq_none (h : s.Stands t) (hx : t x = .new ∨ t x = .hidden) :
    s.reads x = none :=
  hx.elim (fun hNew => reads_eq_none_of_get? (h.new x hNew)) (h.hidden x)

theorem Stands.lose (h : s.Stands t) (hLost : ∀ x, t' x = t x ∨ t' x = .lost) : s.Stands t' := by
  have hEq : ∀ x, t' x ≠ .lost → t x = t' x := fun x hx => ((hLost x).resolve_right hx).symm
  refine ⟨fun x hx => h.new x ?_, fun x hx => h.hidden x ?_, fun x hx => h.bound x ?_⟩ <;>
    rw [hEq x (by simp [hx]), hx]

namespace Onward

theorem refl (hSound : s.AllSound) (hStands : s.Stands t) : s.Onward t s t :=
  ⟨.refl s, fun _ r hr => ⟨r, hr, le_rfl⟩, hSound, hStands, fun _ _ => ⟨rfl, rfl⟩⟩

theorem trans (h : s.Onward t s' t') (h' : s'.Onward t' s'' t'') : s.Onward t s'' t'' where
  grows := h.grows.trans h'.grows
  later x r hr := by
    obtain ⟨r', hr', hLe⟩ := h.later x r hr
    obtain ⟨r'', hr'', hLe'⟩ := h'.later x r' hr'
    exact ⟨r'', hr'', hLe.trans hLe'⟩
  sound := h'.sound
  stands := h'.stands
  unset x hx := by
    obtain ⟨hEq, hSame⟩ := h'.unset x hx
    obtain ⟨hEq', hSame'⟩ := h.unset x (hEq.symm ▸ hx)
    exact ⟨hEq'.trans hEq, hSame.trans hSame'⟩

/-- A variable that is read moves on as versions do, and so does one that is not lost. -/
theorem follows (h : s.Onward t s' t') :
    Follows {x | t' x ≠ .lost ∨ (s.reads x).isSome} s s' := by
  intro x hx
  have hRead : ∀ r', s'.reads x = some r' → Versions.Follows (s.get? x) (s'.get? x) := by
    intro r' hr'
    obtain ⟨w, hw⟩ := reads_eq_some_iff.mp hr'
    refine .inr ⟨r', w, hw, h.sound x trivial _ _ hw rfl, fun v hv => ⟨?_, fun old hOld => ?_⟩⟩
    · obtain ⟨v', hv', hLe⟩ := h.grows x v hv
      rw [hw] at hv'
      cases hv'
      exact hLe
    · obtain ⟨r'', hr'', hLe⟩ := h.later x old (by rw [reads, hv]; exact hOld)
      rw [hr'] at hr''
      cases hr''
      exact hLe
  cases hr' : s'.reads x with
  | some r' => exact hRead r' hr'
  | none =>
    obtain hKept | hSome := hx
    · cases hStanding : t' x with
      | new => exact .inl (h.unset x (.inl hStanding)).2
      | hidden => exact .inl (h.unset x (.inr hStanding)).2
      | bound =>
        have hBound := h.stands.bound x hStanding
        rw [hr'] at hBound
        cases hBound
      | lost => exact absurd hStanding hKept
    · obtain ⟨r, hr⟩ := Option.isSome_iff_exists.mp hSome
      obtain ⟨r', hSome', _⟩ := h.later x r hr
      rw [hr'] at hSome'
      cases hSome'

end Onward

/-! ## Writes -/

theorem stands_write (h : s.Stands t) (x : Symbol) : (s.write x).2.Stands (t.assign x) := by
  constructor
  · intro y hy
    rw [Standings.assign, Function.update_apply] at hy
    split at hy
    · cases hy
    · rename_i hNe
      rw [get?_write, if_neg hNe]
      exact h.new y hy
  · intro y hy
    rw [Standings.assign, Function.update_apply] at hy
    split at hy
    · cases hy
    · rename_i hNe
      rw [reads_write_of_ne s hNe]
      exact h.hidden y hy
  · intro y hy
    rw [Standings.assign, Function.update_apply] at hy
    split at hy
    · rename_i hEq
      rw [hEq, reads_write]
      rfl
    · rename_i hNe
      rw [reads_write_of_ne s hNe]
      exact h.bound y hy

theorem onward_write (hSound : s.AllSound) (h : s.Stands t) (x : Symbol) :
    s.Onward t (s.write x).2 (t.assign x) where
  grows := grows_write s x
  later y _ hr := (follows_write hSound x y trivial).reads_le hr
  sound := hSound.write x
  stands := stands_write h x
  unset y hy := by
    by_cases hEq : y = x
    · rw [hEq, Standings.assign, Function.update_self] at hy
      rcases hy with hy | hy <;> cases hy
    · exact ⟨(Function.update_of_ne hEq _ _).symm, by rw [get?_write, if_neg hEq]⟩

/-! ## Branches -/

theorem Meets.isSome_reads {X : Set Symbol} {bridges : List Bridge} (h : s.Meets X bridges s')
    (hx : x ∈ X) (hReads : (s.reads x).isSome) : (s'.reads x).isSome := by
  obtain ⟨b, -, -, hTarget⟩ | ⟨-, hSame⟩ := h.lands x hx
  · rw [hTarget]
    rfl
  · rwa [hSame]

theorem reads_elseStart_of_grows (h : s.Grows s') (x : Symbol) :
    (elseStart s s').reads x = s.reads x := by
  rw [reads, get?_elseStart]
  cases hx : s'.get? x with
  | none =>
    rw [reads_eq_none_of_get? ((h x).eq_none hx)]
    rfl
  | some v => rfl

/-- Where the second branch starts. -/
theorem stands_start {firstEnd : Option Scope} (hSound : s.AllSound) (h : s.Stands t)
    (hFirst : s.Onward t (firstEnd.getD s) t') :
    (firstEnd.elim s (elseStart s)).AllSound ∧
      (firstEnd.elim s (elseStart s)).Stands fun x => (t x).hide (t' x) := by
  have hReads : ∀ x, (firstEnd.elim s (elseStart s)).reads x = s.reads x := by
    cases firstEnd with
    | none => exact fun _ => rfl
    | some e => exact reads_elseStart_of_grows hFirst.grows
  refine ⟨?_, fun x hx => ?_, fun x hx => ?_, fun x hx => ?_⟩
  · cases firstEnd with
    | none => exact hSound
    | some e => exact hSound.elseStart hFirst.grows
  · obtain ⟨hNew, hNew'⟩ := Standing.hide_eq_new hx
    cases firstEnd with
    | none => exact h.new x hNew
    | some e =>
      rw [Option.elim_some, get?_elseStart, show e.get? x = none from hFirst.stands.new x hNew']
      rfl
  · rw [hReads]
    exact h.reads_eq_none (Standing.hide_eq_hidden hx)
  · rw [hReads]
    exact h.bound x (Standing.hide_eq_bound hx)

theorem carried_joinBranches (before : Scope) (thenEnd : Option Scope) (elseStart : Scope)
    (elseEnd : Option Scope) :
    (∀ b ∈ (joinBranches before thenEnd elseStart elseEnd).thenBridges,
      b.source = (thenEnd.getD before).reads b.name ∧ b.source ≠ some b.target) ∧
    ∀ b ∈ (joinBranches before thenEnd elseStart elseEnd).elseBridges,
      b.source = (elseEnd.getD before).reads b.name ∧ b.source ≠ some b.target := by
  constructor
  · intro b hb
    obtain ⟨⟨x, _⟩, hJoin, hBridge⟩ := List.mem_filterMap.mp hb
    obtain ⟨y, -, hEq⟩ := List.mem_map.mp hJoin
    cases hEq
    obtain rfl := VariableJoin.name_of_bridge (.inl hBridge)
    have hCarries := (VariableJoin.carries_of _ _ _ _ _).1 b hBridge
    cases thenEnd <;> exact hCarries
  · intro b hb
    obtain ⟨⟨x, _⟩, hJoin, hBridge⟩ := List.mem_filterMap.mp hb
    obtain ⟨y, -, hEq⟩ := List.mem_map.mp hJoin
    cases hEq
    obtain rfl := VariableJoin.name_of_bridge (.inr hBridge)
    have hCarries := (VariableJoin.carries_of _ _ _ _ _).2 b hBridge
    cases elseEnd <;> exact hCarries

/-- Two branches, each of which goes on from where it starts. One that is absent ends there. -/
structure Forks (s : Scope) (t : Standings) (firstEnd : Option Scope) (t' : Standings)
    (secondStart : Scope) (secondEnd : Option Scope) (t'' : Standings) : Prop where
  first : s.Onward t (firstEnd.getD s) t'
  starts : secondStart = firstEnd.elim s (elseStart s)
  second : secondStart.Onward (fun x => (t x).hide (t' x)) (secondEnd.getD secondStart) t''

namespace Forks

variable {firstEnd secondEnd : Option Scope} {secondStart : Scope}

theorem reads_start (h : s.Forks t firstEnd t' secondStart secondEnd t'') (x : Symbol) :
    secondStart.reads x = s.reads x := by
  rw [h.starts]
  cases firstEnd with
  | none => rfl
  | some e => exact reads_elseStart_of_grows h.first.grows x

theorem reads_secondEnd (h : s.Forks t firstEnd t' secondStart secondEnd t'') (x : Symbol) :
    (secondEnd.getD secondStart).reads x = (secondEnd.getD s).reads x := by
  cases secondEnd with
  | none => exact h.reads_start x
  | some e => rfl

theorem ends (h : s.Forks t firstEnd t' secondStart secondEnd t'') :
    BranchEnds {x | (t' x ≠ .lost ∧ t'' x ≠ .lost) ∨ (s.reads x).isSome} s firstEnd secondStart
      secondEnd where
  thenFollows x hx := h.first.follows x (hx.imp_left And.left)
  elseStarts := h.starts
  elseFollows e he x hx := by
    subst he
    refine h.second.follows x (hx.imp And.right fun hSome => ?_)
    rw [h.reads_start]
    exact hSome

theorem grow (h : s.Forks t firstEnd t' secondStart secondEnd t'') :
    BranchesGrow s firstEnd secondStart secondEnd where
  thenGrows e he := by
    subst he
    exact ⟨h.first.grows, h.first.sound⟩
  elseStarts := h.starts
  elseGrows e he := by
    subst he
    exact ⟨h.second.grows, h.second.sound⟩

theorem grows_start (h : s.Forks t firstEnd t' secondStart secondEnd t'') :
    s.Grows secondStart := by
  rw [h.starts]
  cases firstEnd with
  | none => exact .refl s
  | some e => exact h.first.grows.trans (grows_elseStart s e)

/-- What neither branch assigned is left alone. -/
theorem get?_join_of_unset (h : s.Forks t firstEnd t' secondStart secondEnd t'')
    (hFirst : (firstEnd.getD s).get? x = s.get? x)
    (hSecond : (secondEnd.getD secondStart).get? x = secondStart.get? x) :
    (joinBranches s firstEnd secondStart secondEnd).scope.get? x = s.get? x := by
  refine (joinBranches_of_same ?_ ?_ ?_).1
  · rintro e rfl
    exact hFirst
  · rw [h.starts]
    cases firstEnd with
    | none => rfl
    | some e => exact get?_elseStart_of_same hFirst
  · rintro e rfl
    exact hSecond

theorem onward_join (h : s.Forks t firstEnd t' secondStart secondEnd t'') (hSound : s.AllSound)
    (hStands : s.Stands t) :
    s.Onward t (joinBranches s firstEnd secondStart secondEnd).scope
      fun x => (t' x).join (t'' x) := by
  obtain ⟨hGrows, hJoined, -⟩ := h.grow.join hSound
  obtain ⟨hFollows, hFirst, hSecond⟩ := h.ends.meets
  have hUnset : ∀ x, (t' x).join (t'' x) = .new ∨ (t' x).join (t'' x) = .hidden →
      t x = (t' x).join (t'' x) ∧
        (joinBranches s firstEnd secondStart secondEnd).scope.get? x = s.get? x := by
    intro x hx
    obtain ⟨hBoth, hKind⟩ : t' x = t'' x ∧ (t' x = .new ∨ t' x = .hidden) := by
      revert hx
      cases t' x <;> cases t'' x <;> simp [Standing.join]
    obtain ⟨hEq, hFirst⟩ := h.first.unset x hKind
    obtain ⟨-, hSecond⟩ := h.second.unset x (hBoth ▸ hKind)
    refine ⟨?_, h.get?_join_of_unset hFirst hSecond⟩
    rw [hEq, ← hBoth]
    rcases hKind with hKind | hKind <;> rw [hKind] <;> rfl
  refine ⟨?_, fun x r hr => ?_, hJoined, ⟨fun x hx => ?_, fun x hx => ?_, fun x hx => ?_⟩, hUnset⟩
  · refine Grows.trans ?_ hGrows
    cases secondEnd with
    | some e => exact h.grows_start.trans h.second.grows
    | none => exact h.first.grows
  · exact (hFollows x (.inr (by simp [hr]))).reads_le hr
  · obtain ⟨hEq, hSame⟩ := hUnset x (.inl hx)
    rw [hSame]
    exact hStands.new x (hEq.trans hx)
  · obtain ⟨hEq, hSame⟩ := hUnset x (.inr hx)
    rw [reads, hSame]
    exact hStands.hidden x (hEq.trans hx)
  · obtain ⟨hKept, hBound⟩ : (t' x ≠ .lost ∧ t'' x ≠ .lost) ∧ (t' x = .bound ∨ t'' x = .bound) := by
      revert hx
      cases t' x <;> cases t'' x <;> simp [Standing.join]
    rcases hBound with hBound | hBound
    · exact hFirst.isSome_reads (.inl hKept) (h.first.stands.bound x hBound)
    · have hReads := h.second.stands.bound x hBound
      rw [h.reads_secondEnd] at hReads
      exact hSecond.isSome_reads (.inl hKept) hReads

end Forks

/-! ## Loops -/

/-- Once round a loop: the test leads from `s` to `s'`, the body to `s''`. -/
structure Circles (assignedInTest assignedInBody : Symbol → Bool) (s : Scope) (t : Standings)
    (s' : Scope) (t' : Standings) (s'' : Scope) (t'' : Standings) : Prop where
  test : s.Onward (fun x => (t x).again (assignedInTest x || assignedInBody x)) s' t'
  body : s'.Onward t' s'' t''
  spares : ∀ x, assignedInTest x = false → s'.get? x = s.get? x
  goesTest : Standings.Goes assignedInTest
    (fun x => (t x).again (assignedInTest x || assignedInBody x)) t'
  goesBody : t'.Goes assignedInBody t''

namespace Circles

variable {a b : Symbol → Bool}

/-- What the loop does not assign. -/
theorem unset (h : Circles a b s t s' t' s'' t'') (hx : t' x = .new ∨ t' x = .hidden) :
    t x = t' x ∧ t'' x = t' x ∧ s'.get? x = s.get? x ∧ s''.get? x = s'.get? x := by
  obtain ⟨hEq, hTest⟩ := h.test.unset x hx
  obtain ⟨hSame, hBody⟩ : t x = t' x ∧ b x = false := by
    rw [Standing.again] at hEq
    split at hEq
    · rw [← hEq] at hx
      rcases hx with hx | hx <;> cases hx
    · rename_i hNot
      refine ⟨hEq, ?_⟩
      have hBound : t x ≠ .bound := by
        rw [hEq]
        rcases hx with hx | hx <;> simp [hx]
      have hAssigned := not_and_not_right.mp hNot
      cases hb : b x with
      | false => rfl
      | true => exact absurd (hAssigned (by simp [hb])) hBound
  have hEnd := h.goesBody.same x hBody
  exact ⟨hSame, hEnd, hTest, (h.body.unset x (hEnd.symm ▸ hx)).2⟩

theorem unset_of_not_bound (h : Circles a b s t s' t' s'' t'')
    (hKept : (t x).again (a x || b x) ≠ .lost) (hBound : t x ≠ .bound) :
    t' x = .new ∨ t' x = .hidden := by
  have hAssigned : (a x || b x) = false := by
    cases hAny : a x || b x with
    | false => rfl
    | true =>
      rw [hAny, Standing.again, if_pos ⟨rfl, hBound⟩] at hKept
      exact absurd rfl hKept
  have hSame : t' x = t x := by
    rw [h.goesTest.same x (Bool.or_eq_false_iff.mp hAssigned).1, hAssigned, Standing.again,
      if_neg (by simp)]
  rw [hAssigned, Standing.again, if_neg (by simp)] at hKept
  rw [hSame]
  cases hStanding : t x with
  | new => exact .inl rfl
  | hidden => exact .inr rfl
  | bound => exact absurd hStanding hBound
  | lost => exact absurd hStanding hKept

theorem reads_behind (h : Circles a b s t s' t' s'' t'') (hx : t' x ≠ .lost) :
    (rewindLoop s' s'').reads x = s'.reads x := by
  cases hr : s'.reads x with
  | some r =>
    obtain ⟨r', hr', -⟩ := h.body.later x r hr
    obtain ⟨w, hw⟩ := reads_eq_some_iff.mp hr'
    rw [reads, get?_rewindLoop hr hw]
    rfl
  | none =>
    have hUnset : t' x = .new ∨ t' x = .hidden := by
      cases hStanding : t' x with
      | new => exact .inl rfl
      | hidden => exact .inr rfl
      | lost => exact absurd hStanding hx
      | bound =>
        have hBound := h.test.stands.bound x hStanding
        rw [hr] at hBound
        cases hBound
    obtain ⟨-, -, -, hBody⟩ := h.unset hUnset
    rw [reads, get?_rewindLoop_of_same hBody, ← reads, hr]

/-- A variable that is new to the loop's test is read behind the loop as at the end of the body. -/
theorem get?_behind (h : Circles a b s t s' t' s'' t'') (hStands : s.Stands t)
    (hNew : t x = .new) (hTest : a x = false) : (rewindLoop s' s'').get? x = s''.get? x := by
  rw [get?_rewindLoop_eq, h.spares x hTest, hStands.new x hNew]
  cases s''.get? x <;> rfl

theorem onward (h : Circles a b s t s' t' s'' t'') (hStands : s.Stands t) :
    s.Onward t (rewindLoop s' s'') fun x => (t x).leave (a x) (t' x) (t'' x) := by
  have hUnset : ∀ x, (t x).leave (a x) (t' x) (t'' x) = .new ∨
      (t x).leave (a x) (t' x) (t'' x) = .hidden → t' x = (t x).leave (a x) (t' x) (t'' x) := by
    intro x hx
    rw [Standing.leave] at hx ⊢
    split at hx
    · rcases hx with hx | hx <;> cases hx
    · rename_i hNot
      rw [if_neg hNot]
  have hSame : ∀ x, (t x).leave (a x) (t' x) (t'' x) = .new ∨
      (t x).leave (a x) (t' x) (t'' x) = .hidden →
      t x = (t x).leave (a x) (t' x) (t'' x) ∧ (rewindLoop s' s'').get? x = s.get? x := by
    intro x hx
    have hEq := hUnset x hx
    obtain ⟨hEntry, -, hTest, hBody⟩ := h.unset (by rwa [hEq])
    exact ⟨hEntry.trans hEq, (get?_rewindLoop_of_same hBody).trans hTest⟩
  refine ⟨?_, fun x r hr => ?_, ?_, ⟨fun x hx => ?_, fun x hx => ?_, fun x hx => ?_⟩, hSame⟩
  · exact (h.test.grows.trans h.body.grows).trans (grows_rewindLoop s' s'')
  · obtain ⟨r', hr', hLe⟩ := h.test.later x r hr
    obtain ⟨r'', hr'', -⟩ := h.body.later x r' hr'
    obtain ⟨w, hw⟩ := reads_eq_some_iff.mp hr''
    exact ⟨r', by rw [reads, get?_rewindLoop hr' hw]; rfl, hLe⟩
  · exact h.test.sound.rewindLoop h.body.grows h.body.sound
  · obtain ⟨hEq, hSame⟩ := hSame x (.inl hx)
    rw [hSame]
    exact hStands.new x (hEq.trans hx)
  · obtain ⟨hEq, hSame⟩ := hSame x (.inr hx)
    rw [reads, hSame]
    exact hStands.hidden x (hEq.trans hx)
  · rw [Standing.leave] at hx
    split at hx
    · rename_i hKept
      obtain ⟨hNew, hTest, hBound⟩ := hKept
      rw [reads, h.get?_behind hStands hNew hTest]
      exact h.body.stands.bound x hBound
    · rw [h.reads_behind (by simp [hx])]
      exact h.test.stands.bound x hx

def backBridges (s s' s'' : Scope) : List Bridge :=
  loopBridges s' s'' ++ (loopBridges s s'').filter (!(loopBridges s' s'').contains ·)

theorem name_ne_of_mem_backBridges {bridge : Bridge} (h : bridge ∈ backBridges s s' s'')
    (hEntry : s.reads x = none) (hTest : s'.reads x = none) : bridge.name ≠ x := by
  rintro rfl
  rcases List.mem_append.mp h with h | h
  · obtain ⟨target, _, hTarget, -⟩ := mem_loopBridges_iff.mp h
    rw [hTest] at hTarget
    cases hTarget
  · obtain ⟨target, _, hTarget, -⟩ := mem_loopBridges_iff.mp (List.mem_filter.mp h).1
    rw [hEntry] at hTarget
    cases hTarget

theorem eq_lost (h : Circles a b s t s' t' s'' t'') (hx : t'' x = .lost) :
    (t x).again (a x || b x) = .lost := by
  by_contra hKept
  by_cases hBound : t x = .bound
  · have hTest := h.goesTest.bound x (by simp [Standing.again, hBound])
    rw [h.goesBody.bound x hTest] at hx
    cases hx
  · have hUnset := h.unset_of_not_bound hKept hBound
    obtain ⟨-, hEnd, -, -⟩ := h.unset hUnset
    rw [← hEnd, hx] at hUnset
    rcases hUnset with hUnset | hUnset <;> cases hUnset

/-- The end of the body meets the test in every variable that is not lost there. -/
theorem meets (h : Circles a b s t s' t' s'' t'') (hStands : s.Stands t) :
    s''.Meets {x | (t x).again (a x || b x) ≠ .lost} (backBridges s s' s'') s := by
  have hMoves : s''.Meets {x | (s.reads x).isSome} (backBridges s s' s'') s := by
    refine meets_loop (fun x hx => hx) (fun x hx => h.test.follows x (.inr hx)) fun x hx => ?_
    obtain ⟨r, hr⟩ := Option.isSome_iff_exists.mp hx
    obtain ⟨r', hr', -⟩ := h.test.later x r hr
    exact h.body.follows x (.inr (by simp [hr']))
  constructor
  · intro bridge hBridge hx
    rcases List.mem_append.mp hBridge with hMem | hMem
    · exact carried_of_mem_loopBridges hMem
    · exact carried_of_mem_loopBridges (List.mem_filter.mp hMem).1
  · intro x hx
    by_cases hRead : (s.reads x).isSome
    · exact hMoves.lands x hRead
    · have hEntry : s.reads x = none := by simpa using hRead
      obtain ⟨-, -, hTest, hBody⟩ := h.unset (h.unset_of_not_bound hx fun hBound =>
        hRead (hStands.bound x hBound))
      refine .inr ⟨fun bridge hMem => name_ne_of_mem_backBridges hMem hEntry ?_, ?_⟩
      · rw [reads, hTest, ← reads, hEntry]
      · rw [reads, reads, hBody, hTest]

end Circles

end Scope

end CoreTree

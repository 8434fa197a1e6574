import CoreTree.Proofs.Flow.Ends
import CoreTree.Proofs.Runs.Termination

/-! # One flag for all calls

A normalizer can do without the answer of each call whether its tree ends: it keeps one flag, sets
it back as each call starts, and leaves in it what the tree's kind says, or else what the call
before left. Whatever is in the flag at the start, such a run gives what every other run gives, and
the flag holds at its end whether the tree ends.
-/
namespace CoreTree
set_option autoImplicit false

/-- What a call leaves in the flag. `left` is what its last inner call left there. -/
def Node.settle (left : Bool) (o : Outcome) : Node → Bool
  | .jump .. => true
  | .cond .. => o.ends
  | .seq .. | .choose .. | .logic .. => left
  | _ => false

/-- A run that succeeds, with the flag before it and behind it. Each call answers with the flag. -/
inductive Flagged : Option SourcePath → {α : Type} → Code α → NormalState → Bool → α →
    NormalState → Bool → Prop where
  | pure {file : Option SourcePath} {α : Type} (a : α) (st : NormalState) (flag : Bool) :
    Flagged file (.pure a) st flag a st flag
  | act {file : Option SourcePath} {α : Type} {a : Act α} {b : α} {st st' : NormalState}
    (h : a.run.run st = .ok b st') (flag : Bool) : Flagged file (.act a) st flag b st' flag
  | bind {file : Option SourcePath} {α β : Type} {c : Code α} {f : α → Code β}
    {st mid st' : NormalState} {flag left flag' : Bool} {a : α} {b : β}
    (h : Flagged file c st flag a mid left) (hNext : Flagged file (f a) mid left b st' flag') :
    Flagged file (.bind c f) st flag b st' flag'
  | transform {file : Option SourcePath} {n : Node} {st st' : NormalState} {o : Outcome}
    {left : Bool} (flag : Bool) (h : Flagged file n.code st false o st' left) :
    Flagged file (.transform n) st flag ⟨o.node, n.settle left o⟩ st' (n.settle left o)
  | apart {file : Option SourcePath} {params : List Symbol} {n : Node} {st st' : NormalState}
    {flag flag' : Bool} {o : Outcome}
    (h : Flagged file (.transform n) ⟨st.program, Scope.ofParams params⟩ flag o st' flag') :
    Flagged file (.apart params n) st flag o.node ⟨st'.program, st.scope⟩ flag'
  | loaded {file : Option SourcePath} {s : Span} {path : Symbol} {st : NormalState}
    {program : Program} (flag : Bool)
    (h : st.program.resolve (st.program.names.text path) file = (.ok none, program)) :
    Flagged file (.require s path) st flag (.nop s) ⟨program, st.scope⟩ flag
  | found {file : Option SourcePath} {s : Span} {path : Symbol} {st st' : NormalState}
    {target : Location} {root : Node} {program : Program} {flag flag' : Bool} {o : Outcome}
    (h : st.program.resolve (st.program.names.text path) file =
      (.ok (some ⟨target, root⟩), program))
    (hRoot : Flagged (some (.ofLocation target)) (.transform root) ⟨program, .empty⟩ flag o st'
      flag') :
    Flagged file (.require s path) st flag o.node ⟨st'.program.finish target, st.scope⟩ flag'

/-- All that such a run can be, where the code calls trees and nothing else. -/
def Code.CanFlag (file : Option SourcePath) : {α : Type} → Code α → NormalState → Bool → α →
    NormalState → Bool → Prop
  | _, .pure a, st, flag, b, st', flag' => b = a ∧ st' = st ∧ flag' = flag
  | _, .act a, st, flag, b, st', flag' => a.run.run st = .ok b st' ∧ flag' = flag
  | _, .bind c f, st, flag, b, st', flag' =>
    ∃ a mid left, Flagged file c st flag a mid left ∧ Flagged file (f a) mid left b st' flag'
  | _, .transform n, st, _, b, st', flag' =>
    ∃ o left, Flagged file n.code st false o st' left ∧ flag' = n.settle left o ∧
      b = ⟨o.node, flag'⟩
  | _, .apart .., _, _, _, _, _ | _, .require .., _, _, _, _, _ => True

namespace Flagged

variable {file : Option SourcePath} {α β : Type} {c : Code α} {a : α} {st st' : NormalState}
  {flag flag' : Bool}

theorem canFlag (h : Flagged file c st flag a st' flag') :
    c.CanFlag file st flag a st' flag' := by
  cases h with
  | pure => exact ⟨rfl, rfl, rfl⟩
  | act h => exact ⟨h, rfl⟩
  | bind h hNext => exact ⟨_, _, _, h, hNext⟩
  | transform _ h => exact ⟨_, _, h, rfl, rfl⟩
  | apart | loaded | found => trivial

theorem of_bind {f : α → Code β} {b : β} (h : Flagged file (c >>= f) st flag b st' flag') :
    ∃ a mid left, Flagged file c st flag a mid left ∧ Flagged file (f a) mid left b st' flag' :=
  h.canFlag

theorem eq_ends {n : Node} {o : Outcome} (h : Flagged file (.transform n) st flag o st' flag') :
    flag' = o.ends := by
  obtain ⟨_, _, _, _, rfl⟩ := h.canFlag
  rfl

/-! ## What the last call leaves -/

/-- A statement is followed by another one only if it left the flag as it was. -/
theorem of_statements {ns : List Node} {r : List Node × Bool}
    (h : Flagged file (Code.statements ns) st false r st' flag') : flag' = r.2 := by
  induction ns generalizing st r st' flag' with
  | nil =>
    obtain ⟨rfl, -, rfl⟩ := h.canFlag
    rfl
  | cons n ns ih =>
    obtain ⟨o, mid, left, hHead, hRest⟩ := h.of_bind
    obtain rfl := hHead.eq_ends
    cases hEnds : o.ends with
    | true =>
      simp only [hEnds, if_true] at hRest
      obtain ⟨rfl, -, rfl⟩ := hRest.canFlag
      rfl
    | false =>
      simp only [hEnds, Bool.false_eq_true, if_false] at hRest
      obtain ⟨rest, last, left, hRest, hPure⟩ := hRest.of_bind
      obtain rfl := ih hRest
      obtain ⟨rfl, -, rfl⟩ := hPure.canFlag
      rfl

theorem of_unfolded {saves : Bool} {meaning : Symbol → Node} {o : Outcome}
    (h : Flagged file (Code.unfolded saves meaning) st flag o st' flag') : flag' = o.ends := by
  unfold Code.unfolded at h
  split at h
  · obtain ⟨_, _, _, _, hMeaning⟩ := h.of_bind
    exact hMeaning.eq_ends
  · exact h.eq_ends

/-- What is left in the flag is what every other run answers. -/
theorem settle_eq {n : Node} {o : Outcome} {left : Bool} (hEnds : o.ends = n.ends)
    (h : Flagged file n.code st false o st' left) : n.settle left o = o.ends := by
  cases n with
  | seq s stmts =>
    obtain ⟨r, mid, left, hStatements, hPure⟩ := h.of_bind
    obtain rfl := hStatements.of_statements
    obtain ⟨rfl, -, rfl⟩ := hPure.canFlag
    rfl
  | choose | logic => exact h.of_unfolded
  | cond => rfl
  | _ => exact hEnds.symm

end Flagged

/-! ## The flag and every other run -/

variable {file : Option SourcePath} {α : Type} {c : Code α} {n : Node} {o : Outcome}
  {st st' : NormalState} {moves : List Move}

theorem Runs.ends_eq (h : Runs file (.transform n) st moves (.ok o st')) : o.ends = n.ends :=
  n.tells_pending _ st o st' (h.eq_denote st.program.fits_length).symm

theorem Runs.outcome_settle {left : Bool} (h : Runs file n.code st moves (.ok o st'))
    (hFlag : Flagged file n.code st false o st' left) : ⟨o.node, n.settle left o⟩ = o := by
  rw [hFlag.settle_eq (Runs.transform h).ends_eq]

theorem Flagged.exists_runs {a : α} {flag flag' : Bool} (h : Flagged file c st flag a st' flag') :
    ∃ moves, Runs file c st moves (.ok a st') := by
  induction h with
  | pure a st => exact ⟨_, .pure a st⟩
  | @act file α a b st st' h =>
    have hRuns : Runs file (.act a) st (a.moves st) (a.run.run st) := .act a st
    rw [h] at hRuns
    exact ⟨_, hRuns⟩
  | bind _ _ ih ihNext =>
    obtain ⟨_, h⟩ := ih
    obtain ⟨_, hNext⟩ := ihNext
    exact ⟨_, .bind h hNext⟩
  | transform _ hFlag ih =>
    obtain ⟨_, h⟩ := ih
    rw [h.outcome_settle hFlag]
    exact ⟨_, .transform h⟩
  | apart _ ih =>
    obtain ⟨_, h⟩ := ih
    exact ⟨_, .apart h⟩
  | loaded _ h => exact ⟨_, .loaded h⟩
  | found h _ ih =>
    obtain ⟨_, hRoot⟩ := ih
    exact ⟨_, .found h hRoot⟩

theorem Runs.exists_flagged {result : EStateM.Result NormalizeError NormalState α}
    (h : Runs file c st moves result) : ∀ a st', result = .ok a st' → ∀ flag,
      ∃ flag', Flagged file c st flag a st' flag' := by
  induction h with
  | pure a st =>
    rintro _ _ ⟨⟩ flag
    exact ⟨_, .pure a st flag⟩
  | act a st => exact fun b st' hOk flag => ⟨_, .act hOk flag⟩
  | bind _ _ ih ihNext =>
    intro b st' hOk flag
    obtain ⟨left, h⟩ := ih _ _ rfl flag
    obtain ⟨flag', hNext⟩ := ihNext b st' hOk left
    exact ⟨_, .bind h hNext⟩
  | transform h ih =>
    rintro o st' rfl flag
    obtain ⟨left, hFlag⟩ := ih _ _ rfl false
    have hTransform := Flagged.transform flag hFlag
    rw [h.outcome_settle hFlag] at hTransform
    exact ⟨_, hTransform⟩
  | apart _ ih =>
    rintro _ _ ⟨⟩ flag
    obtain ⟨_, h⟩ := ih _ _ rfl flag
    exact ⟨_, .apart h⟩
  | loaded h =>
    rintro _ _ ⟨⟩ flag
    exact ⟨_, .loaded flag h⟩
  | found h _ ih =>
    rintro _ _ ⟨⟩ flag
    obtain ⟨_, hRoot⟩ := ih _ _ rfl flag
    exact ⟨_, .found h hRoot⟩
  | bind_error | apart_error | refused | found_error => exact nofun

theorem Flagged.ends_eq {flag flag' : Bool}
    (h : Flagged file (.transform n) st flag o st' flag') : flag' = n.ends := by
  obtain ⟨moves, hRuns⟩ := h.exists_runs
  exact h.eq_ends.trans hRuns.ends_eq

/-- The flag is no part of what a run depends on. -/
theorem flagged_iff (flag flag' : Bool) : Flagged file (.transform n) st flag o st' flag' ↔
    flag' = n.ends ∧
      (n.pending (answerRequire st.program.loader.files.length file)).run.run st = .ok o st' := by
  constructor
  · intro h
    obtain ⟨moves, hRuns⟩ := h.exists_runs
    exact ⟨h.ends_eq, (hRuns.eq_denote st.program.fits_length).symm⟩
  · rintro ⟨rfl, hRun⟩
    obtain ⟨moves, hRuns⟩ := exists_runs_eq file n st
    obtain ⟨flag', h⟩ := hRuns.exists_flagged _ _ hRun flag
    rwa [h.ends_eq] at h

end CoreTree

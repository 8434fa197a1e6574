import CoreTree.Proofs.Simulation.Calls
import CoreTree.Proofs.Simulation.Conditionals

/-! # Clauses that simulate

A `case` is a chain of conditionals. The test of a clause is an `or` of its patterns, nested to
the left, and holds if one of them matches, tried in order.
-/
namespace CoreTree
set_option autoImplicit false

variable {V : Type} {E : Escape V} {S : Scope → Prop} {C : Setting V} {held : Held V}

/-! ## Tests in order -/

namespace Eval

variable {K : Type}

def anyTrue (I : Interp V) : List (Eval K V V) → Eval K V Bool
  | [] => return false
  | c :: cs => do
    if I.truthy (← c) then return true else anyTrue I cs

theorem anyMatch_eq_anyTrue (I : Interp V) (rounds : Nat) (subject : Eval K V V)
    (patterns : List (Eval K V V)) :
    anyMatch I rounds subject patterns =
      anyTrue I (patterns.map fun p => call I rounds (some p) .caseEq [subject] none) := by
  induction patterns with
  | nil => rfl
  | cons p ps ih => rw [List.map_cons, anyMatch, anyTrue, ih]

/-- It makes no difference that `or` is nested to the left. -/
theorem truthy_foldl_or (I : Interp V) (c : Eval K V V) (cs : List (Eval K V V)) :
    (cs.foldl (logic I .or) c >>= fun v => pure (I.truthy v)) = anyTrue I (c :: cs) := by
  induction cs generalizing c with
  | nil =>
    rw [List.foldl_nil, anyTrue, anyTrue]
    congr 1
    funext v
    cases I.truthy v <;> rfl
  | cons d ds ih =>
    rw [List.foldl_cons, ih, anyTrue, anyTrue, logic, bind_assoc]
    congr 1
    funext v
    cases h : I.truthy v
    · simp [anyTrue]
    · simp [h]

end Eval

namespace Pending

theorem means_matchTest {scrutinee pattern : Pending} {c d : Eval Symbol V V}
    (hScrutinee : scrutinee.Means C held c) (hPattern : pattern.Means C held d) :
    (matchTest scrutinee pattern).Means C held
      (.call C.interp C.rounds (some d) .caseEq [c] none) :=
  means_call _ _ (.some hPattern) (.cons hScrutinee .nil)

theorem means_foldl_or {acc : Pending} {tests : List Pending} {c : Eval Symbol V V}
    {cs : List (Eval Symbol V V)} (hAcc : acc.Means C held c)
    (hOnce : isRepeatable acc.source = false) (hTests : C.ListMeans held tests cs) :
    (tests.foldl (fun acc test => or (acc.span.merge test.span) acc test) acc).Means C held
      (cs.foldl (Eval.logic C.interp .or) c) := by
  induction hTests generalizing acc c with
  | nil => exact hAcc
  | cons hTest _ ih =>
    refine ih (meansIn_or _ (fun hRepeat => ?_) hAcc leads_true hTest) rfl
    rw [hOnce] at hRepeat
    cases hRepeat

/-- What the test of a clause gives is true if one of the patterns matches. -/
theorem exists_means_clauseTest (s : Span) {scrutinee : Pending} {patterns : List Pending}
    {c : Eval Symbol V V} {cs : List (Eval Symbol V V)} (hScrutinee : scrutinee.Means C held c)
    (hPatterns : C.ListMeans held patterns cs) :
    ∃ d, (clauseTest s scrutinee patterns).Means C held d ∧
      (d >>= fun v => pure (C.interp.truthy v)) = Eval.anyMatch C.interp C.rounds c cs := by
  cases hPatterns with
  | nil =>
    refine ⟨_, means_atom s (a := .bool false) nofun nofun, ?_⟩
    show (pure (C.interp.truthy _) : Eval Symbol V Bool) = pure false
    rw [C.interp.truthy_false]
  | @cons p d ps ds hp hps =>
    have hTests : C.ListMeans held (ps.map (matchTest scrutinee))
        (ds.map fun d => .call C.interp C.rounds (some d) .caseEq [c] none) :=
      List.forall₂_map_left_iff.mpr (List.forall₂_map_right_iff.mpr
        (hps.imp fun _ _ h => means_matchTest hScrutinee h))
    refine ⟨_, means_foldl_or (means_matchTest hScrutinee hp) rfl hTests, ?_⟩
    rw [Eval.truthy_foldl_or, Eval.anyMatch_eq_anyTrue]
    rfl

/-! ## Chains of clauses -/

/-- The body of a clause may escape. -/
def WhenMeansIn (E : Escape V) (S : Scope → Prop) (C : Setting V) (held : Held V)
    (w : When Pending) (k : When (Eval Symbol V V)) : Prop :=
  C.ListMeans held w.patterns k.patterns ∧ C.OptionMeansIn E S held w.body k.body

theorem WhenMeansIn.extend {held' : Held V} {w : When Pending} {k : When (Eval Symbol V V)}
    (h : WhenMeansIn E S C held w k) (hExtends : held.Extends held') :
    WhenMeansIn E S C held' w k :=
  ⟨h.1.extend hExtends, h.2.extend hExtends⟩

/-- No test of a clause leads out of the scopes that `S` tells. -/
def TestsLead (C : Setting V) (S : Scope → Prop) (s : Span) (scrutinee : Pending)
    (whens : List (When Pending)) : Prop :=
  ∀ w ∈ whens, (clauseTest s scrutinee w.patterns).Leads C S S

theorem exists_optionMeansIn_clauses (s : Span) {scrutinee : Pending} {whens : List (When Pending)}
    {other : Option Pending} {c : Eval Symbol V V} {ks : List (When (Eval Symbol V V))}
    {k : Option (Eval Symbol V V)} (hScrutinee : scrutinee.Means C held c)
    (hTests : TestsLead C S s scrutinee whens)
    (hWhens : List.Forall₂ (WhenMeansIn E S C held) whens ks)
    (hOther : C.OptionMeansIn E S held other k) :
    ∃ d, C.OptionMeansIn E S held (whens.foldr (fun w rest => some
        (cond s .whenTrue (clauseTest s scrutinee w.patterns) w.body rest)) other) d ∧
      Eval.branch C.interp d = Eval.clauses C.interp C.rounds c ks k := by
  induction hWhens with
  | nil => exact ⟨k, hOther, rfl⟩
  | @cons w kw ws ks hw _ ih =>
    obtain ⟨hFirst, hRest⟩ := List.forall_mem_cons.mp hTests
    obtain ⟨rest, hRest, hRestEq⟩ := ih hRest
    obtain ⟨test, hTest, hTestEq⟩ := exists_means_clauseTest s hScrutinee hw.1
    refine ⟨_, .some (meansIn_cond s .whenTrue hTest hFirst hw.2 hRest), ?_⟩
    rw [Eval.clauses, ← hTestEq, ← hRestEq, bind_assoc]
    rfl

theorem meansIn_clauseChain (s : Span) {scrutinee : Pending} {whens : List (When Pending)}
    {other : Option Pending} {c : Eval Symbol V V} {ks : List (When (Eval Symbol V V))}
    {k : Option (Eval Symbol V V)} (hScrutinee : scrutinee.Means C held c)
    (hTests : TestsLead C S s scrutinee whens)
    (hWhens : List.Forall₂ (WhenMeansIn E S C held) whens ks)
    (hOther : C.OptionMeansIn E S held other k) :
    (clauseChain s scrutinee whens other).MeansIn E S C held
      (.clauses C.interp C.rounds c ks k) := by
  obtain ⟨d, hMeans, hEq⟩ := exists_optionMeansIn_clauses s hScrutinee hTests hWhens hOther
  rw [← hEq, clauseChain]
  revert hMeans
  generalize whens.foldr _ other = chain
  intro hMeans
  cases hMeans with
  | none => exact (means_atom s (a := .nil) nofun nofun).anywhere
  | some h => exact h

theorem SimulatesIn.weaken {held' : Held V} {p : Pending} {c : Eval Symbol V V}
    {st : NormalState} (h : p.SimulatesIn E C held' c (fun _ => held') st)
    (hExtends : held.Extends held') : p.SimulatesIn E C held' c (fun _ => held) st := by
  refine h.mono id fun o st' ⟨hAdv, hSplices, hRun⟩ => ⟨hAdv, hSplices, fun m w hAgree => ?_⟩
  exact (hRun m w hAgree).mono fun _ _ _ ⟨hGoes, hAgree'⟩ => ⟨hGoes, hAgree'.weaken hExtends⟩

theorem meansIn_choose (s : Span) {subject : Pending} {whens : List (When Pending)}
    {other : Option Pending} {c : Eval Symbol V V} {ks : List (When (Eval Symbol V V))}
    {k : Option (Eval Symbol V V)} (hSubject : subject.Means C held c)
    (hLeads : subject.Leads C S S) (hTests : TestsLead C S s subject whens)
    (hSavedTests : ∀ t, TestsLead C S s (temp subject.span t) whens)
    (hWhens : List.Forall₂ (WhenMeansIn E S C held) whens ks)
    (hOther : C.OptionMeansIn E S held other k) :
    (choose s subject whens other).MeansIn E S C held
      (.choose C.interp C.rounds (isScrutinee subject.source) c ks k) := by
  intro held' hExtends st hReady hStart
  have hSubject' := hSubject.extend hExtends
  by_cases hKind : isScrutinee subject.source = true
  · -- a variable is read again by every test
    have hRun : (choose s subject whens other).run = (clauseChain s subject whens other).run :=
      if_pos hKind
    rw [SimulatesIn, hRun, Eval.choose, if_pos hKind]
    exact (meansIn_clauseChain s hSubject hTests hWhens hOther) held' hExtends st hReady hStart
  · -- any other subject is saved, and every test reads the temporary
    rw [Eval.choose, if_neg hKind]
    refine simulatesIn_fresh (fun t => seq s [save t subject,
      clauseChain s (temp subject.span t) whens other]) hReady hStart (if_neg hKind)
      fun t st' hFree hTemp hReady' hStart' => simulatesIn_seq ?_
    apply statementsIn_cons (simulatesFrom_save hSubject' hReady').simulatesIn
    intro v _ st'' hOk hAdv
    have hKeep := Held.extends_keep hFree v
    have hSaved : (temp subject.span t).Means C (held'.keep t v) (pure v) :=
      means_temp _ (by simp [Held.keep])
    have hWhens' : List.Forall₂ (WhenMeansIn E S C (held'.keep t v)) whens ks :=
      hWhens.imp fun _ _ hw => hw.extend (hExtends.trans hKeep)
    have hChain := meansIn_clauseChain s hSaved (hSavedTests t) hWhens'
      (hOther.extend (hExtends.trans hKeep))
    have hReady'' := (hReady'.advance hAdv).keep (hAdv.temps t hTemp) v
    have hStart'' : S st''.scope := hLeads.save t _ _ _ hStart' (run_node hOk) _ fun _ _ => rfl
    exact statementsIn_single
      ((hChain _ (.refl _) st'' hReady'' hStart'').weaken hKeep)

end Pending

end CoreTree

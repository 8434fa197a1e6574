import CoreTree.Proofs.Simulation.Actions

/-! # Splicing statements and bridges

How a sequence runs when it is put together from spliced parts, and what it adds to append
bridges to a branch: they run after the branch, and the value of the branch is still there
behind them.
-/
namespace CoreTree
set_option autoImplicit false

variable {V : Type}

/-! ## Parts of trees -/

theorem listMeaning_eq_map {K : Type} [DecidableEq K] (I : Interp V) (key : Var → K)
    (rounds : Nat) (ns : List Node) :
    listMeaning I key rounds ns = ns.map (Node.meaning I key rounds) := by
  induction ns with
  | nil => rfl
  | cons n ns ih => rw [List.map_cons, ← ih, listMeaning]

theorem optionMeaning_eq_map {K : Type} [DecidableEq K] (I : Interp V) (key : Var → K)
    (rounds : Nat) (n : Option Node) :
    optionMeaning I key rounds n = n.map (Node.meaning I key rounds) := by
  cases n <;> rfl

namespace Eval

theorem branch_eq_optional {K : Type} (I : Interp V) (c : Option (Eval K V V)) :
    branch I c = optional c >>= fun v => pure (v.getD I.nil) := by
  cases c with
  | none => rfl
  | some c => exact ((bind_assoc _ _ _).trans (bind_pure c)).symm

theorem seq_append {K : Type} (I : Interp V) (cs ds : List (Eval K V V)) (h : ds ≠ []) :
    seq I (cs ++ ds) = seq I cs >>= fun _ => seq I ds := by
  induction cs with
  | nil => exact (pure_bind _ _).symm
  | cons c cs ih =>
    obtain ⟨d, ds, rfl⟩ := List.exists_cons_of_ne_nil h
    cases cs with
    | nil => rfl
    | cons c' cs =>
      have hStep : seq I (c :: c' :: cs) = c >>= fun _ => seq I (c' :: cs) := rfl
      rw [hStep, bind_assoc, ← ih]
      rfl

end Eval

namespace Setting

variable (C : Setting V)

theorem run_seq (s : Span) (ns : List Node) :
    C.run (.seq s ns) = .seq C.interp (ns.map C.run) := by
  rw [run, Node.versioned, Node.meaning, listMeaning_eq_map]
  rfl

theorem run_statements (n : Node) : .seq C.interp (n.statements.map C.run) = C.run n := by
  unfold Node.statements
  split
  · rfl
  · exact (C.run_seq _ _).symm
  · rfl

theorem run_ofStatements (s : Span) (ns : List Node) :
    C.run (.ofStatements s ns) = .seq C.interp (ns.map C.run) := by
  match ns with
  | [] => rfl
  | [_] => rfl
  | _ :: _ :: _ => exact C.run_seq s _

def runBranch (n : Option Node) : Eval Cell V V := .branch C.interp (n.map C.run)

theorem run_branchStatements (n : Option Node) :
    .seq C.interp ((branchStatements n).map C.run) = C.runBranch n := by
  cases n with
  | none => rfl
  | some n => exact C.run_statements n

/-! ## Bridges -/

theorem run_bridge (s : Span) (b : Bridge) (w : Machine Cell V) :
    (C.run (b.node s)).on w = (.ok (b.value C.interp w.locals),
      { w with locals := b.write C.interp w.locals }) := by
  obtain ⟨name, target, _ | source⟩ := b <;> rfl

theorem run_bridges (s : Span) {bridges : List Bridge} (h : bridges ≠ []) (w : Machine Cell V) :
    ∃ v, (Eval.seq C.interp ((bridges.map (·.node s)).map C.run)).on w =
      (.ok v, { w with locals := runBridges C.interp bridges w.locals }) := by
  induction bridges generalizing w with
  | nil => exact absurd rfl h
  | cons b bs ih =>
    cases bs with
    | nil => exact ⟨_, C.run_bridge s b w⟩
    | cons b' bs =>
      obtain ⟨v, hv⟩ := ih (by simp) { w with locals := b.write C.interp w.locals }
      exact ⟨v, (Eval.on_bind_of_ok (C.run_bridge s b w)).trans hv⟩

theorem run_bridges_append (s : Span) (bridges : List Bridge) {cs : List (Eval Cell V V)}
    (h : cs ≠ []) (w : Machine Cell V) :
    (Eval.seq C.interp ((bridges.map (·.node s)).map C.run ++ cs)).on w =
      (Eval.seq C.interp cs).on { w with locals := runBridges C.interp bridges w.locals } := by
  rw [Eval.seq_append _ _ _ h]
  by_cases hNil : bridges = []
  · subst hNil
    rfl
  · obtain ⟨v, hv⟩ := C.run_bridges s hNil w
    exact Eval.on_bind_of_ok hv

/-- A pure tree leaves the machine as it is, and only an ordinary variable sees the locals. -/
theorem on_of_isPure {n : Node} (h : n.isPure = true) (w : Machine Cell V) :
    (∀ w', (C.run n).on w' = (.error .cut, w')) ∨
    ∃ v, (C.run n).on w = (.ok v, w) ∧
      ∀ locals, (∀ span x, n = .var span x → locals x.cell = w.locals x.cell) →
        (C.run n).on { w with locals } = (.ok v, { w with locals }) := by
  unfold Node.isPure at h
  split at h
  · rename_i span x
    rw [run, Node.versioned, Node.meaning]
    split
    · exact .inl fun _ => rfl
    · refine .inr ⟨w.locals x.cell, rfl, fun locals hSame => ?_⟩
      rw [← hSame span x rfl]
      rfl
  · cases h
  · cases h
  · rename_i span a hField hNop
    right
    cases a with
    | nop => exact (hNop rfl).elim
    | field => exact (hField _ rfl).elim
    | _ => exact ⟨_, rfl, fun _ _ => rfl⟩
  · cases h

end Setting

end CoreTree

import CoreTree.Proofs.Frame.Requires

/-! # What a block does to the variables that its parameters hide

The scope has back what the parameters hid, and version 0, by which a parameter is bound, is put
back after each run. A write of a parameter in the block makes a version after 0 all the same, and
nothing puts that back: if the hidden variable goes by it, the write is seen behind the call.
-/
namespace CoreTree
set_option autoImplicit false

variable {x : Symbol} {params : List Symbol}

theorem Norm.ensures_trivial {α : Type} (act : Norm α) (st : NormalState) :
    act.Ensures st True fun _ _ => True := by
  unfold Ensures
  split <;> trivial

theorem BranchEnd.scope_close (s : Span) (e : Option BranchEnd) (bridges : List Bridge)
    (st : NormalState) : (close s e bridges).Ensures st True fun _ st' => st'.scope = st.scope := by
  have hAppend : ∀ branch : Option Node,
      (appendBridges s branch bridges).Ensures st True fun _ st' => st'.scope = st.scope := by
    intro branch
    unfold appendBridges
    split
    · exact Norm.ensures_pure rfl
    · dsimp only
      split
      · exact Norm.ensures_pure rfl
      · split
        · exact Norm.ensures_pure rfl
        · exact Norm.ensures_freshTemp_bind (Norm.ensures_pure rfl)
  cases e with
  | none => exact hAppend none
  | some b =>
    unfold close
    dsimp only
    split
    · exact Norm.ensures_pure rfl
    · exact hAppend b.node

/-- Whatever the block does, the scope has back what a parameter hid. -/
theorem Pending.ensures_runBlock_of_mem_params (s : Span) (body : Option Pending)
    (hx : x ∈ params) (st : NormalState) :
    (runBlock s ⟨params, body⟩).Ensures st True fun b st' =>
      b.params = params ∧ st'.scope.get? x = st.scope.get? x := by
  apply Norm.ensures_getScope_bind
  apply Norm.ensures_setScope_bind
  apply Norm.Ensures.bind (Norm.ensures_trivial _ _)
  intro bodyEnd st₁ _
  have hNow : (Scope.unbindParams st₁.scope (Scope.bindParams st.scope params).1).get? x =
      st.scope.get? x := by
    rw [Scope.get?_unbindParams_bindParams, if_pos hx]
  apply Norm.ensures_getScope_bind
  apply Norm.ensures_setScope_bind
  apply Norm.Ensures.bind (BranchEnd.scope_close s bodyEnd _ _)
  intro n st₂ hScope
  exact Norm.ensures_pure ⟨rfl, by rw [hScope, Scope.get?_rewindBlock_of_same hNow]⟩

/-- Behind a block a variable that one of its parameters hid goes by the version by which it went
before. However often the block ran, this version holds what it held, if it is version 0 or if
nothing in the block assigns the parameter. -/
theorem block_parameter_keeps {V : Type} (I : Interp V) (rounds : Nat) {depth : Nat}
    {file : Option SourcePath} {s : Span} {body : Option Node} {st st' : NormalState}
    {b : Block Node}
    (h : (Pending.runBlock s ⟨params, pendingOption (answerRequire depth file) body⟩).run st =
      .ok b st')
    (hx : x ∈ params) :
    st'.scope.get? x = st.scope.get? x ∧ ∀ r, st.scope.readVersion? x = some r →
      (r = 0 ∨ ∀ n ∈ body, n.Spares (fun _ _ => st.program.loader.Spares x) x) →
      ∀ made m, ((Eval.finishCall I rounds made (some (Eval.runBlock I
        (b.params.map fun p => (p, 0)) (optionMeaning I Var.cell rounds b.body)))).on m).2.locals
          (x, r) = m.locals (x, r) := by
  obtain ⟨rfl, hScope⟩ := (Pending.ensures_runBlock_of_mem_params s _ hx st).of_ok h
  refine ⟨hScope, fun r _ hCase made => Eval.keeps_finishCall I rounds made ?_⟩
  rintro _ ⟨⟩
  apply Eval.keeps_runBlock
  rcases hCase with rfl | hSpares
  · exact .inl (List.mem_map.mpr ⟨x, hx, rfl⟩)
  · right
    have hAnswer : AnswersSpare (answerRequire depth file)
        (fun _ _ => st.program.loader.Spares x) st.program.loader x :=
      ⟨keepsLoader_answerRequire depth file, fun s path hFiles =>
        (answersSpare_answerRequire hFiles depth file).spares s path trivial⟩
    have hBody := (Pending.spares_runBlock s (optionSpares_pendingOption hAnswer body hSpares)
      st rfl).of_ok h
    refine keeps_optionMeaning (x := x) I ?_ rounds b.body hBody.2.2
    rintro _ ⟨⟩
    rfl

namespace Sample

/-- A block `{ |total| total = 9 }`. -/
def shadowing : Block Node := ⟨[total], some (write total (.int .nowhere 9))⟩

theorem shadowing_keeps_total : total ∈ shadowing.params ∧ ∃ b st',
    (Pending.runBlock .nowhere
        ⟨shadowing.params, pendingOption (answerRequire 0 none) shadowing.body⟩).run
      ⟨program, .ofParams [flag, total]⟩ = .ok b st' ∧
    st'.scope.get? total = (Scope.ofParams [flag, total]).get? total ∧
    ∀ made m, ((Eval.finishCall interp 3 made (some (Eval.runBlock interp
      (b.params.map fun p => (p, 0)) (optionMeaning interp Var.cell 3 b.body)))).on m).2.locals
        (total, 0) = m.locals (total, 0) := by
  obtain ⟨b, st', h⟩ : ∃ b st', (Pending.runBlock .nowhere
      ⟨shadowing.params, pendingOption (answerRequire 0 none) shadowing.body⟩).run
    ⟨program, .ofParams [flag, total]⟩ = .ok b st' := ⟨_, _, rfl⟩
  obtain ⟨hScope, hKeeps⟩ := block_parameter_keeps interp 3 h (.head _)
  exact ⟨.head _, b, st', h, hScope, hKeeps 0 rfl (.inl rfl)⟩

/-- `total = 5 ; total = 6 ; ask() { |total| total = 9 } ; total` -/
def captured : Node := .seq .nowhere [write total (.int .nowhere 5), write total (.int .nowhere 6),
  .call .nowhere none .append [] (some shadowing), readVar total]

/-- The block writes the version by which the hidden variable goes: as it is written, the tree
gives `6`, and as it is normalized, `9`. -/
theorem captured_overwrites_total : ∃ n p', program.normalize none captured = (.ok n, p') ∧
    ((captured.named interp 3).on (start id)).1 = .ok (.int 6) ∧
    ((n.versioned interp 3).on (start Prod.fst)).1 = .ok (.int 9) :=
  ⟨_, _, rfl, rfl, rfl⟩

end Sample

end CoreTree

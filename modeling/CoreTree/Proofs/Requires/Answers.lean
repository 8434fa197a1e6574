import CoreTree.Normal.Normalize
import CoreTree.Proofs.Requires.Locations
import CoreTree.Proofs.Requires.MadeOf

/-! # What answering a require does

To resolve a request puts at most one file in flight, one that was idle and not loaded before.
The answer to a require resolves it, normalizes the file's tree, and then finishes the file.
-/
namespace CoreTree
set_option autoImplicit false

namespace Tracker

theorem abort_start {t u : Tracker} {file : Location} (h : t.start file = .ok u) :
    u.abort file = t := by
  obtain ⟨hIdle, rfl⟩ := start_eq_ok_iff.mp h
  simp [abort, List.erase_append_right _ hIdle]

end Tracker

namespace Program

/-- All that a request can lead to. -/
inductive Resolves (p : Program) :
    Except RequireError (Option RequiredFile) → Program → Prop where
  | refused {e : RequireError} {q : Program} (hRequires : q.requires = p.requires)
    (hLoader : q.loader = p.loader) : p.Resolves (.error e) q
  | loaded : p.Resolves (.ok none) p
  | found {file : Location} {content : Content} {root : Node} {names : SymbolTable}
    (hNormal : file.normal = file) (hContent : p.loader.content? file = some content)
    (hLoad : p.loader.load p.names content = (.ok root, names))
    (hIdle : file ∉ p.requires.inFlight) (hNew : file ∉ p.requires.loaded) :
    p.Resolves (.ok (some ⟨file, root⟩))
      { p with names, requires := ⟨p.requires.inFlight ++ [file], p.requires.loaded⟩ }

theorem find?_eq_some {p : Program} {requested : String} {requestedFrom : Option SourcePath}
    {file : Location} {content : Content}
    (h : p.find? requested requestedFrom = some (file, content)) :
    file.normal = file ∧ p.loader.content? file = some content := by
  obtain ⟨candidate, hMem, hFound⟩ := List.exists_of_findSome?_eq_some h
  obtain ⟨found, hContent, hEq⟩ := Option.map_eq_some_iff.mp hFound
  cases hEq
  exact ⟨normal_of_mem_candidates hMem, hContent⟩

theorem resolves (p : Program) (requested : String) (requestedFrom : Option SourcePath) :
    p.Resolves (p.resolve requested requestedFrom).1 (p.resolve requested requestedFrom).2 := by
  unfold resolve
  split
  · exact .refused rfl rfl
  · rename_i file content hFound
    obtain ⟨hNormal, hContent⟩ := find?_eq_some hFound
    split
    · exact .loaded
    · rename_i hNew
      have hNew : file ∉ p.requires.loaded := by simpa [Tracker.isLoaded] using hNew
      split
      · exact .refused rfl rfl
      · rename_i requires hStart
        obtain ⟨hIdle, hRequires⟩ := Tracker.start_eq_ok_iff.mp hStart
        split
        · rename_i root names hLoad
          rw [hRequires]
          exact .found hNormal hContent hLoad hIdle hNew
        · exact .refused (Tracker.abort_start hStart) rfl

theorem exists_resolves (p : Program) (requested : String) (requestedFrom : Option SourcePath) :
    ∃ answer q, p.resolve requested requestedFrom = (answer, q) ∧ p.Resolves answer q :=
  ⟨_, _, rfl, p.resolves requested requestedFrom⟩

end Program

theorem run_resolveRequire (file : Option SourcePath) (path : Symbol) (st : NormalState) :
    (resolveRequire file path).run st =
      match st.program.resolve (st.program.names.text path) file with
      | (.ok found, program) => .ok found { st with program }
      | (.error e, program) => .error (.require e) { st with program } := by
  unfold resolveRequire
  simp only [EStateM.run_bind, EStateM.run_get]
  generalize st.program.resolve (st.program.names.text path) file = r
  obtain ⟨_ | _, _⟩ := r <;> rfl

theorem Norm.run_inScope {α : Type} (scope : Scope) (act : Norm α) (st : NormalState) :
    (inScope scope act).run st = match act.run { st with scope } with
      | .error e st' => .error e st'
      | .ok a st' => .ok a { st' with scope := st.scope } := by
  show (act >>= fun a => setScope st.scope >>= fun _ => pure a).run { st with scope } = _
  rw [EStateM.run_bind]
  cases act.run { st with scope } <;> rfl

/-- A file is normalized in an empty scope, and the scope of the require is back afterwards. -/
theorem run_answerRequire (depth : Nat) (file : Option SourcePath) (s : Span) (path : Symbol)
    (st : NormalState) : (answerRequire (depth + 1) file s path).run st =
      match st.program.resolve (st.program.names.text path) file with
      | (.error e, program) => .error (.require e) { st with program }
      | (.ok none, program) => .ok (.nop s) { st with program }
      | (.ok (some found), program) =>
        match (found.root.pending (answerRequire depth (some (.ofLocation found.file)))).node.run
            ⟨program, .empty⟩ with
        | .error e st' => .error e st'
        | .ok n st' => .ok n ⟨st'.program.finish found.file, st.scope⟩ := by
  rw [answerRequire, EStateM.run_bind, run_resolveRequire]
  generalize st.program.resolve (st.program.names.text path) file = r
  obtain ⟨_ | _ | found, program⟩ := r
  · rfl
  · rfl
  · dsimp only
    rw [EStateM.run_bind, Norm.run_inScope]
    dsimp only
    generalize (found.root.pending (answerRequire depth (some (.ofLocation found.file)))).node.run
      ⟨program, .empty⟩ = inner
    cases inner <;> rfl

/-! ## The loader -/

/-- There are the same files to load afterwards, whatever comes of the action. -/
def Norm.KeepsLoader {α : Type} (act : Norm α) : Prop :=
  act.Effects (fun p q => q.loader = p.loader) fun _ p q => q.loader = p.loader

theorem Norm.MadeOf.keepsLoader {α : Type} {act : Norm α} {answer : RequireHandler}
    (h : act.MadeOf answer) (hAnswer : ∀ s path, (answer s path).KeepsLoader) :
    act.KeepsLoader := by
  apply h.effects
  · exact fun p q h => h.loader
  · exact fun p q r h h' => h'.trans h
  · exact fun e p q r h h' => h'.trans h
  · exact fun name s p => rfl
  · exact hAnswer

theorem keepsLoader_resolveRequire (file : Option SourcePath) (path : Symbol) :
    (resolveRequire file path).KeepsLoader := by
  intro st
  obtain ⟨found, program, hResolve, hResolves⟩ :=
    st.program.exists_resolves (st.program.names.text path) file
  rw [run_resolveRequire, hResolve]
  cases hResolves with
  | refused _ hLoader => exact hLoader
  | loaded | found => rfl

theorem keepsLoader_answerRequire (depth : Nat) (file : Option SourcePath) (s : Span)
    (path : Symbol) : (answerRequire depth file s path).KeepsLoader := by
  have hTrans : ∀ p q r : Program, q.loader = p.loader → r.loader = q.loader →
      r.loader = p.loader := fun p q r h h' => h'.trans h
  induction depth generalizing file s path with
  | zero =>
    exact Norm.effects_bind hTrans (fun _ => hTrans) (keepsLoader_resolveRequire file path)
      fun _ _ => rfl
  | succ depth ih =>
    apply Norm.effects_bind hTrans (fun _ => hTrans) (keepsLoader_resolveRequire file path)
    intro found
    cases found with
    | none => exact fun _ => rfl
    | some found =>
      have hRoot := (((Node.madeOf_pending _ found.root).node.inScope .empty).keepsLoader
        (ih (some (.ofLocation found.file))))
      exact Norm.effects_bind hTrans (fun _ => hTrans) hRoot fun _ _ => rfl

end CoreTree

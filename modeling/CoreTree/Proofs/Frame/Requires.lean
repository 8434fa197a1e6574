import CoreTree.Proofs.Frame.OfNode
import CoreTree.Proofs.Frame.Running
import CoreTree.Proofs.Preservation
import CoreTree.Proofs.Requires.Failure

/-! # What a required file leaves alone

A required file is normalized in a scope of its own, and what it becomes runs where the require
stands. Versions are counted from 0 in both, so the two share the cells of every variable that both
of them assign. A variable that no required file assigns keeps its cells.
-/
namespace CoreTree
set_option autoImplicit false

variable {x : Symbol}

/-- Nothing that runs with a file's tree assigns the variable, in any file that can be loaded. -/
def Loader.Spares (files : Loader) (x : Symbol) : Prop :=
  ∀ place content names root names', files.content? place = some content →
    files.load names content = (.ok root, names') → root.Spares (fun _ _ => True) x

theorem spares_resolveRequire {files : Loader} (hFiles : files.Spares x) (file : Option SourcePath)
    (path : Symbol) : (resolveRequire file path).Spares files x fun found =>
      ∀ f ∈ found, f.root.Spares (fun _ _ => True) x := by
  intro st hLoader
  obtain ⟨found, program, hResolve, hResolves⟩ :=
    st.program.exists_resolves (st.program.names.text path) file
  unfold Norm.Ensures
  rw [run_resolveRequire, hResolve]
  cases hResolves with
  | refused => trivial
  | loaded => exact ⟨hLoader, rfl, nofun⟩
  | found hNormal hContent hLoad =>
    rw [hLoader] at hContent hLoad
    refine ⟨hLoader, rfl, ?_⟩
    rintro _ ⟨⟩
    exact hFiles _ _ _ _ _ hContent hLoad

/-- The answer to a require spares a variable that no file assigns, however deep files nest. -/
theorem answersSpare_answerRequire {files : Loader} (hFiles : files.Spares x) (depth : Nat)
    (file : Option SourcePath) :
    AnswersSpare (answerRequire depth file) (fun _ _ => True) files x := by
  refine ⟨keepsLoader_answerRequire depth file, fun s path _ => ?_⟩
  induction depth generalizing file s path with
  | zero =>
    exact (spares_resolveRequire hFiles file path).bind fun _ _ =>
      Norm.spares_pure (Node.spares_atom _)
  | succ depth ih =>
    apply (spares_resolveRequire hFiles file path).bind
    intro found hFound
    cases found with
    | none => exact Norm.spares_pure (Node.spares_atom _)
    | some found =>
      have hInner : AnswersSpare (answerRequire depth (some (.ofLocation found.file)))
          (fun _ _ => True) files x :=
        ⟨keepsLoader_answerRequire depth _, fun s path _ => ih _ s path⟩
      have hRoot := Node.spares_pending hInner found.root (hFound found rfl)
      refine Norm.Spares.bind (Norm.spares_inScope fun st hLoader => ?_) fun n hn =>
        Norm.Spares.bind (P := fun _ => True) (fun st hLoader => ⟨hLoader, rfl, trivial⟩)
          fun _ _ => Norm.spares_pure hn
      exact (hRoot.node st hLoader).mono id fun _ _ h => ⟨h.1, h.2.2⟩

namespace Sample

end Sample

end CoreTree

import CoreTree.Proofs.Preservation
import CoreTree.Proofs.Temps.OfNode

/-! # Temporaries of normalized trees

Each temporary that a normalization allocates is assigned at exactly one place in the result, and it
is never read before.
-/
namespace CoreTree
set_option autoImplicit false

open Node

variable {p q : Program} {root n : Node}

/-- A tree, or the tree of a main file, normalizes to another, and leaves behind a program. -/
inductive Program.NormalizesTo (p : Program) (root : Node) : Node → Program → Prop where
  | tree {n : Node} {q : Program} (file : Option SourcePath)
    (h : p.normalize file root = (.ok n, q)) : NormalizesTo p root n q
  | file {n : Node} {q : Program} (main : SourcePath)
    (h : p.normalizeFile main root = (.ok n, q)) : NormalizesTo p root n q

namespace Program

theorem grown_of_normalize (file : Option SourcePath) (hRoot : root.AllOwn p)
    (hFiles : p.TidyFiles) (h : p.normalize file root = (.ok n, q)) :
    n.AllCore ∧ p.Grown (fun _ => False) q [n] := by
  have hNone : ∀ t, False → p.Old t := fun _ => False.elim
  have hRun := (Node.shares (leadsTo_answerRequire p.loader.files.length file) root).node hNone
    (grown_nil p) hRoot.tidy hFiles .empty
  unfold normalize at h
  cases hCase : (root.pending (answerRequire p.loader.files.length file)).node ⟨p, .empty⟩ with
  | error e st =>
    rw [hCase] at h
    cases h
  | ok m st =>
    have hGrown := hRun.of_ok hCase
    rw [hCase] at h
    dsimp only at h
    split at h
    · cases h
    · rename_i hFault
      cases h
      rw [Option.orElse_eq_none] at hFault
      exact ⟨(Node.coreFault?_eq_none_iff _).mp hFault.1, hGrown.2⟩

theorem NormalizesTo.grown (hRoot : root.AllOwn p) (hFiles : p.TidyFiles)
    (h : p.NormalizesTo root n q) : n.AllCore ∧ p.Grown (fun _ => False) q [n] := by
  cases h with
  | tree file h => exact grown_of_normalize file hRoot hFiles h
  | file main h =>
    have hNone : ∀ (p : Program) (t : Symbol), False → p.Old t := fun _ _ => False.elim
    unfold normalizeFile beginFile at h
    cases hStart : p.requires.start main.location.normal with
    | error e =>
      rw [hStart] at h
      cases h
    | ok requires =>
      have hBegin : p.Later { p with requires } := later_of_same rfl rfl (List.prefix_refl _)
      have hOwn : root.AllOwn { p with requires } := fun t ht => (hRoot t ht).later hBegin
      have hGrown := fun n q =>
        grown_of_normalize (n := n) (q := q) (some main) hOwn (hFiles.later hBegin)
      rw [hStart] at h
      dsimp only [Except.map] at h
      revert h hGrown
      generalize Program.normalize _ (some main) root = r
      obtain ⟨failure | m, q'⟩ := r
      · rintro h -
        cases failure <;> cases h
      · intro h hGrown
        cases h
        obtain ⟨hCore, hm⟩ := hGrown _ q' rfl
        have hFinish : q'.Later (q'.finish main.location) :=
          later_of_same rfl rfl (List.prefix_refl _)
        have hStarted := (grown_nil p).quiet (hNone p) hBegin (tempsTo_of_same rfl)
        exact ⟨hCore, (hStarted.append hm (hNone p)).quiet (hNone p) hFinish (tempsTo_of_same rfl)⟩

end Program

/-- A definition is run by itself, and this is what it runs. -/
def Node.RunsBody (n body : Node) : Prop :=
  ∃ s kind name params, n.Has (.define s kind name params (some body))

/-- Temporaries are assigned once and never read early. If a tree and the files that it requires
have temporaries of their own names only, and the tree normalizes, then these and the ones allocated
meanwhile are all the temporaries in the result. Each one allocated is assigned at exactly one
place. Whatever holds this place reads the temporary only behind the assignment, on every path
through it, and so do the result as a whole and every body of a definition in it. -/
theorem Program.temps_assigned_once (hRoot : ∀ x, root.HasTemp x → p.names.Own x)
    (hFiles : p.TidyFiles) (h : p.NormalizesTo root n q) :
    n.AllCore ∧
    (∀ x, n.HasTemp x → x ∈ p.tempsTo q ∨ q.names.Own x) ∧
    ∀ x ∈ p.tempsTo q,
      (∃ k, p.temps < k ∧ k ≤ q.temps ∧ q.names.text? x = some s!"#temp_{k}") ∧
      n.saved.count x = 1 ∧
      (∀ m, n.Has m → x ∈ m.saved → m.traces.InOrder x) ∧
      n.traces.InOrder x ∧ ∀ body, n.RunsBody body → body.traces.InOrder x := by
  obtain ⟨hCore, hLater, hAllotted⟩ := h.grown hRoot hFiles
  refine ⟨hCore, fun x hx => ?_, fun x hx => ?_⟩
  · obtain hMade | hNone | hOwn := hAllotted.hasTemp (.head _) hx
    · exact .inl hMade
    · exact hNone.elim
    · exact .inr hOwn
  · have hSaves : n.Saves x := oneSaves_singleton.mp (hAllotted.saved x hx)
    refine ⟨text?_of_mem_tempsTo hLater hx, hSaves.count_saved, fun m hm hMem => ?_,
      hSaves.inOrder, ?_⟩
    · exact ((hSaves.of_has hm).resolve_right fun hReads => hReads.not_mem_saved hMem).inOrder
    · rintro body ⟨s, kind, name, params, hBody⟩
      exact hSaves.inOrder_body hBody

namespace Sample

/-- `ask() or [ask()]` -/
def saving : Node := .logic .nowhere .or (ask []) (.array .nowhere [ask []] none)

theorem not_hasTemp_saving (x : Symbol) : ¬ saving.HasTemp x := by
  have hAsk : ¬ (ask []).HasTemp x := not_hasTemp_of_parts rfl nofun
  have hArray : ¬ (Node.array .nowhere [ask []] none).HasTemp x :=
    not_hasTemp_of_parts rfl (List.forall_mem_singleton.mpr hAsk)
  exact not_hasTemp_of_parts rfl (List.forall_mem_cons.mpr
    ⟨hAsk, List.forall_mem_singleton.mpr hArray⟩)

theorem saving_assigned_once : (∀ x, saving.HasTemp x → program.names.Own x) ∧ program.TidyFiles ∧
    ∃ n q, program.NormalizesTo saving n q ∧ program.tempsTo q = [⟨14⟩, ⟨15⟩] ∧
      n.saved.count ⟨14⟩ = 1 ∧ n.saved.count ⟨15⟩ = 1 ∧ n.traces.InOrder ⟨14⟩ := by
  have hRoot : ∀ x, saving.HasTemp x → program.names.Own x := fun x hx =>
    absurd hx (not_hasTemp_saving x)
  have hFiles : program.TidyFiles := fun _ _ _ _ _ hContent => nomatch hContent
  obtain ⟨n, q, h, hTemps⟩ : ∃ n q, program.NormalizesTo saving n q ∧
      program.tempsTo q = [⟨14⟩, ⟨15⟩] := ⟨_, _, .tree none rfl, by decide⟩
  obtain ⟨-, -, hAssigned⟩ := Program.temps_assigned_once hRoot hFiles h
  rw [hTemps] at hAssigned
  obtain ⟨-, hFirst, -, hOrder, -⟩ := hAssigned ⟨14⟩ (by simp)
  exact ⟨hRoot, hFiles, n, q, h, hTemps, hFirst, (hAssigned ⟨15⟩ (by simp)).2.1, hOrder⟩

end Sample

end CoreTree

import CoreTree.Normal.Normalize
import CoreTree.Proofs.CoreForm.Sugar
import CoreTree.Proofs.Requires.Answers

/-! # Normalization yields core form

Every tree, with sugar anywhere in it, normalizes to a tree in core form, and so do the trees
of the files that it requires, however deep they nest. The check of the result never fails.
-/
namespace CoreTree
set_option autoImplicit false

namespace Pending

theorem inherited_yieldsCore {answer : RequireHandler}
    (hAnswer : ∀ s path, (answer s path).Yields Node.AllCore) : Inherited answer YieldsCore where
  atom := yieldsCore_atom
  var := yieldsCore_var
  seq := yieldsCore_seq
  cond := yieldsCore_cond
  loop := yieldsCore_loop
  choose := yieldsCore_choose
  logic s op _ _ := by
    cases op with
    | and => exact yieldsCore_and s
    | or => exact yieldsCore_or s
  jump := yieldsCore_jump
  assign := yieldsCore_assign
  multi := yieldsCore_multi
  call := yieldsCore_call
  isA := yieldsCore_isA
  define := yieldsCore_define
  interp := yieldsCore_interp
  range := yieldsCore_range
  regex := yieldsCore_regex
  array := yieldsCore_array
  hash := yieldsCore_hash
  require s path := (hAnswer s path).bind fun _ hn => Norm.yields_pure hn

end Pending

theorem Node.yieldsCore_pending {answer : RequireHandler}
    (hAnswer : ∀ s path, (answer s path).Yields Node.AllCore) :
    ∀ n : Node, (n.pending answer).YieldsCore :=
  Node.inherits_pending (Pending.inherited_yieldsCore hAnswer)

/-! ## Requires -/

theorem Program.types_resolve (p : Program) (requested : String)
    (requestedFrom : Option SourcePath) :
    (p.resolve requested requestedFrom).2.types = p.types := by
  unfold resolve
  split
  · rfl
  · split
    · rfl
    · split
      · rfl
      · split <;> rfl

theorem yields_resolveRequire (file : Option SourcePath) (path : Symbol) :
    (resolveRequire file path).Yields fun _ => True := by
  intro st hTypes
  have hResolved : (st.program.resolve (st.program.names.text path) file).2.TypesCore := by
    rw [Program.TypesCore, Program.types_resolve]
    exact hTypes
  rw [run_resolveRequire]
  revert hResolved
  generalize st.program.resolve (st.program.names.text path) file = r
  obtain ⟨_ | found, program⟩ := r
  · exact id
  · exact fun hResolved => ⟨hResolved, trivial⟩

/-- A required file is normalized as any tree is, with one level less to go. -/
theorem yields_answerRequire (depth : Nat) (file : Option SourcePath) (s : Span) (path : Symbol) :
    (answerRequire depth file s path).Yields Node.AllCore := by
  induction depth generalizing file s path with
  -- at depth 0 the answer is an empty tree, whatever is found
  | zero =>
    exact (yields_resolveRequire file path).bind fun _ _ => Norm.yields_pure (Node.allCore_atom _)
  | succ depth ih =>
    apply (yields_resolveRequire file path).bind
    intro found _
    cases found with
    | none => exact Norm.yields_pure (Node.allCore_atom _)
    | some found =>
      have hRoot := (Node.yieldsCore_pending (ih (some (.ofLocation found.file))) found.root).node
      apply (hRoot.inScope .empty).bind
      intro n hn
      refine Norm.Yields.bind (P := fun _ => True) ?_ fun _ _ => Norm.yields_pure hn
      exact Norm.yields_onProgram fun _ hTypes => hTypes

/-! ## The result -/

theorem RegexConstant.allCore_value (c : RegexConstant) : c.value.AllCore :=
  Pending.allCore_send _ _ (Node.allCore_atom _) (by simp)

namespace Program

variable {p : Program} {file : Option SourcePath} {root n : Node} {st : NormalState}

theorem core_of_run (hTypes : p.types.coreFault? = none)
    (hRun : (root.pending (answerRequire p.loader.files.length file)).node.run ⟨p, .empty⟩ =
      .ok n st) : st.program.TypesCore ∧ n.AllCore :=
  (Node.yieldsCore_pending (yields_answerRequire p.loader.files.length file) root).node.of_ok
    ((TypePool.coreFault?_eq_none_iff _).mp hTypes) hRun

/-- The check of a result finds no fault. -/
theorem normalize_eq_of_run (hTypes : p.types.coreFault? = none)
    (hRun : (root.pending (answerRequire p.loader.files.length file)).node.run ⟨p, .empty⟩ =
      .ok n st) : p.normalize file root = (.ok n, st.program) := by
  obtain ⟨hPool, hNode⟩ := core_of_run hTypes hRun
  unfold normalize
  rw [EStateM.run] at hRun
  simp only [hRun, n.coreFault?_eq_none_iff.mpr hNode,
    (TypePool.coreFault?_eq_none_iff st.program.types).mpr hPool]
  rfl

/-- Normalization gives what the action gives. -/
theorem normalize_eq_run (hTypes : p.types.coreFault? = none) (file : Option SourcePath)
    (root : Node) : p.normalize file root =
      match (root.pending (answerRequire p.loader.files.length file)).node.run ⟨p, .empty⟩ with
      | .ok n st => (.ok n, st.program)
      | .error e st => (.error (.error e), st.program) := by
  cases hRun : (root.pending (answerRequire p.loader.files.length file)).node.run ⟨p, .empty⟩ with
  | ok n st => exact normalize_eq_of_run hTypes hRun
  | error e st =>
    rw [EStateM.run] at hRun
    rw [normalize, hRun]

/-- A result has come out of the action and has passed the check. -/
theorem run_of_normalize {q : Program} (h : p.normalize file root = (.ok n, q)) :
    (∃ st, (root.pending (answerRequire p.loader.files.length file)).node.run ⟨p, .empty⟩ =
      .ok n st ∧ st.program = q) ∧ n.coreFault? = none ∧ q.types.coreFault? = none := by
  unfold normalize at h
  cases hRun : (root.pending (answerRequire p.loader.files.length file)).node ⟨p, .empty⟩ with
  | error e st =>
    rw [hRun] at h
    cases h
  | ok m st =>
    rw [hRun] at h
    dsimp only at h
    split at h
    · cases h
    · rename_i hFault
      cases h
      rw [Option.orElse_eq_none] at hFault
      exact ⟨⟨st, hRun, rfl⟩, hFault⟩

/-- Whether the tree normalizes or not, the types are in core form afterwards. -/
theorem coreFault?_normalize (hTypes : p.types.coreFault? = none) (file : Option SourcePath)
    (root : Node) : (p.normalize file root).2.types.coreFault? = none := by
  have hPool : p.TypesCore := (TypePool.coreFault?_eq_none_iff _).mp hTypes
  have hYields := (Node.yieldsCore_pending
    (yields_answerRequire p.loader.files.length file) root).node
  rw [normalize_eq_run hTypes]
  cases hRun : (root.pending (answerRequire p.loader.files.length file)).node.run ⟨p, .empty⟩ with
  | ok n st => exact (TypePool.coreFault?_eq_none_iff _).mpr (hYields.of_ok hPool hRun).1
  | error e st => exact (TypePool.coreFault?_eq_none_iff _).mpr (hYields.of_error hPool hRun)

/-- The main file is put in flight, and what becomes of it is noted. -/
theorem exists_snd_normalizeFile (p : Program) (file : SourcePath) (root : Node) :
    (p.normalizeFile file root).2 = p ∨ ∃ requires requires' : Tracker,
      (p.normalizeFile file root).2 =
        { (({ p with requires } : Program).normalize (some file) root).2 with
          requires := requires' } := by
  unfold normalizeFile beginFile
  cases p.requires.start file.location.normal with
  | error e => exact .inl rfl
  | ok requires =>
    refine .inr ⟨requires, ?_⟩
    dsimp only [Except.map]
    generalize Program.normalize _ (some file) root = r
    obtain ⟨(_ | _) | _, q⟩ := r <;> exact ⟨_, rfl⟩

theorem coreFault?_normalizeFile (hTypes : p.types.coreFault? = none) (file : SourcePath)
    (root : Node) : (p.normalizeFile file root).2.types.coreFault? = none := by
  obtain hSame | ⟨requires, requires', hEq⟩ := p.exists_snd_normalizeFile file root
  · rw [hSame]
    exact hTypes
  · rw [hEq]
    exact coreFault?_normalize (p := { p with requires }) hTypes (some file) root

end Program

/-- From a program whose types are in core form, a tree that normalizes leaves nothing but core
form behind, in the result, in registered types and in constants, so the check of the result
finds no fault. -/
theorem Program.normalize_coreForm (p : Program) (hTypes : p.types.coreFault? = none)
    (file : Option SourcePath) (root : Node) :
    (∀ n st, (root.pending (answerRequire p.loader.files.length file)).node.run ⟨p, .empty⟩ =
        .ok n st →
      n.AllCore ∧ (∀ t ∈ st.program.types.types, ∀ e ∈ t.exprs, e.AllCore) ∧
        ∀ c ∈ st.program.constants, c.value.AllCore) ∧
    ∀ f, (p.normalize file root).1 ≠ .error (.fault f) := by
  constructor
  · intro n st hRun
    obtain ⟨hPool, hNode⟩ := core_of_run hTypes hRun
    exact ⟨hNode, hPool, fun c _ => c.allCore_value⟩
  · intro f hFault
    cases hRun : (root.pending (answerRequire p.loader.files.length file)).node.run
        ⟨p, .empty⟩ with
    | ok n st =>
      rw [normalize_eq_of_run hTypes hRun] at hFault
      cases hFault
    | error e st =>
      rw [EStateM.run] at hRun
      unfold normalize at hFault
      simp only [hRun] at hFault
      cases hFault

namespace Sample

/-- `def new(self = [nil unless self, self or nil])`, whose body is empty -/
def sugared : Node := .define .nowhere .method .newName [⟨.selfName, some (.array .nowhere [
  .cond .nowhere .whenFalse (.atom .nowhere .self) (some (.nil .nowhere)) none,
  .logic .nowhere .or (.atom .nowhere .self) (.nil .nowhere)] none)⟩] none

theorem sugared_coreForm : TypePool.empty.coreFault? = none ∧
    (∃ n st, (sugared.pending (answerRequire 0 none)).node.run
        ⟨.init .initial .empty [], .empty⟩ = .ok n st ∧
      n.AllCore ∧ (∀ t ∈ st.program.types.types, ∀ e ∈ t.exprs, e.AllCore) ∧
        ∀ c ∈ st.program.constants, c.value.AllCore) ∧
    ∀ f, ((Program.init .initial .empty []).normalize none sugared).1 ≠ .error (.fault f) := by
  have hOk : ((Program.init .initial .empty []).normalize none sugared).1.isOk = true := by
    decide +kernel
  obtain ⟨hCore, hFault⟩ := Program.normalize_coreForm (.init .initial .empty []) rfl none sugared
  refine ⟨rfl, ?_, hFault⟩
  cases hNormal : (Program.init .initial .empty []).normalize none sugared with
  | mk result q =>
    rw [hNormal] at hOk
    cases result with
    | error e => cases hOk
    | ok n =>
      obtain ⟨⟨st, hRun, -⟩, -⟩ := Program.run_of_normalize hNormal
      exact ⟨n, st, hRun, hCore n st hRun⟩

end Sample

end CoreTree

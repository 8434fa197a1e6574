import CoreTree.Proofs.Flow.Ends
import CoreTree.Proofs.Literals.Forms
import CoreTree.Proofs.Literals.Fresh
import CoreTree.Proofs.Preservation

/-! # Literals build what they list

The components of a literal are normalized in turn, and what they come to is put into the form of
the literal. The temporary that an array or a hash is kept in is allocated behind the components,
so none of them mentions it.
-/
namespace CoreTree
set_option autoImplicit false

open CoreTree.Norm Pending

namespace Norm

variable {α : Type} {whole : Norm Outcome} {components : Norm α} {st : NormalState}
  {R R' : α → NormalState → Node → Prop}

/-- The whole normalizes if its components do, to a tree that `R` relates to what they come to and
to the state behind them. Where they fail, the whole fails as well. -/
def Over (whole : Norm Outcome) (components : Norm α) (st : NormalState)
    (R : α → NormalState → Node → Prop) : Prop :=
  match components.run st with
  | .error e st' => whole.run st = .error e st'
  | .ok a st₁ => ∃ n st', whole.run st = .ok ⟨n, false⟩ st' ∧ R a st₁ n

theorem over_bind {rest : α → Norm Outcome}
    (h : ∀ a st₁, components.run st = .ok a st₁ →
      ∃ n st', (rest a).run st₁ = .ok ⟨n, false⟩ st' ∧ R a st₁ n) :
    Over (components >>= rest) components st R := by
  unfold Over
  rw [EStateM.run_bind]
  cases hRun : components.run st with
  | error e st' => rfl
  | ok a st₁ => exact h a st₁ hRun

theorem Over.of_ok (h : whole.Over components st R) {a : α} {st₁ : NormalState}
    (hRun : components.run st = .ok a st₁) :
    ∃ n st', whole.run st = .ok ⟨n, false⟩ st' ∧ R a st₁ n := by
  unfold Over at h
  rwa [hRun] at h

theorem Over.mono (h : whole.Over components st R)
    (hR : ∀ a st₁ n, components.run st = .ok a st₁ → R a st₁ n → R' a st₁ n) :
    whole.Over components st R' := by
  unfold Over at h ⊢
  cases hRun : components.run st with
  | error e st' =>
    rw [hRun] at h
    exact h
  | ok a st₁ =>
    rw [hRun] at h
    obtain ⟨n, st', hWhole, hn⟩ := h
    exact ⟨n, st', hWhole, hR a st₁ n hRun hn⟩

end Norm

namespace Pending

theorem gives_nodes_length (ps : List Pending) :
    (nodes ps).Gives fun ns => ns.length = ps.length := by
  induction ps with
  | nil => exact gives_pure rfl
  | cons p ps ih =>
    exact gives_bind fun _ => ih.bind fun _ hLength => gives_pure (congrArg (· + 1) hLength)

theorem gives_entryNodes_length (es : List (HashEntry Pending)) :
    (entryNodes es).Gives fun fs => fs.length = es.length := by
  induction es with
  | nil => exact gives_pure rfl
  | cons e es ih =>
    exact gives_bind fun _ => gives_bind fun _ => ih.bind fun _ hLength =>
      gives_pure (congrArg (· + 1) hLength)

variable {st : NormalState}

/-- An array literal takes its form in a temporary that is allocated behind the elements. -/
theorem over_array (s : Span) {ps : List Pending} {type : Option ConstPath}
    (hTyped : ps = [] → type = none) :
    (array s ps type).run.Over (nodes ps) st fun ns st₁ n => ∃ id, ∃ q : Program,
      st₁.program.Later q ∧
        n = .seq s (arrayStatements s (.atom s (.generic id)) q.freshTemp.1 ns) := by
  refine over_bind fun ns st₁ hRun => ?_
  have hIf : ¬ (type.isSome && ns.isEmpty) = true := by
    rw [Bool.and_eq_true, List.isEmpty_iff]
    rintro ⟨hSome, rfl⟩
    have hNil := hTyped (List.eq_nil_of_length_eq_zero (gives_nodes_length ps st [] st₁ hRun).symm)
    rw [hNil] at hSome
    cases hSome
  simp only [if_neg hIf]
  exact ⟨_, _, rfl, _, _, Program.later_genericType .., rfl⟩

theorem over_hash (s : Span) {es : List (HashEntry Pending)} (types : Option HashTypes)
    (hNonempty : es ≠ []) :
    (hash s es types).run.Over (entryNodes es) st fun fs st₁ n => ∃ id, ∃ q : Program,
      st₁.program.Later q ∧ n = .seq s
        (hashStatements s (.send s (.atom s (.generic id)) .newName []) q.freshTemp.1 fs) := by
  refine over_bind fun fs st₁ hRun => ?_
  have hIf : ¬ fs.isEmpty = true := by
    rw [List.isEmpty_iff]
    rintro rfl
    exact hNonempty
      (List.eq_nil_of_length_eq_zero (gives_entryNodes_length es st [] st₁ hRun).symm)
  simp only [if_neg hIf]
  exact ⟨_, _, rfl, _, _, Program.later_genericType .., rfl⟩

theorem over_interp (s : Span) (ps : List Pending) :
    (interp s ps).run.Over (nodes ps) st fun ns _ n => n = Node.textForm s ns :=
  over_bind fun _ _ _ => ⟨_, _, rfl, rfl⟩

end Pending

theorem length_pendingList (answer : RequireHandler) (ns : List Node) :
    (pendingList answer ns).length = ns.length := by
  have hLength := congrArg List.length (map_source_pendingList answer ns)
  rwa [List.length_map] at hLength

theorem length_pendingEntries (answer : RequireHandler) (es : List (HashEntry Node)) :
    (pendingEntries answer es).length = es.length := by
  have hLength := congrArg List.length (map_source_pendingEntries answer es)
  rwa [List.length_map] at hLength

section

variable {st : NormalState} {depth : Nat} {file : Option SourcePath}

theorem array_builds (s : Span) {elements : List Node} {type : Option ConstPath}
    (hTyped : elements = [] → type = none)
    (hFiles : st.program.FilesBelow st.program.temps)
    (hOld : ∀ e ∈ elements, st.program.AllOld e) :
    ((Node.array s elements type).pending (answerRequire depth file)).run.Over
      (nodes (pendingList (answerRequire depth file) elements)) st fun ns _ n =>
        ns.length = elements.length ∧ n.BuildsArray s ns := by
  have hLength := length_pendingList (answerRequire depth file) elements
  refine (over_array s fun hNil => hTyped ?_).mono ?_
  · rw [hNil] at hLength
    exact List.eq_nil_of_length_eq_zero hLength.symm
  · rintro ns st₁ _ hRun ⟨id, q, hLater, rfl⟩
    refine ⟨(gives_nodes_length _ st ns st₁ hRun).trans hLength, ?_⟩
    refine Node.buildsArray s id fun e he => Program.AllOld.not_hasTemp ?_
    exact ((allOld_nodes hFiles depth file hOld hRun).2 e he).later hLater

theorem hash_builds (s : Span) {entries : List (HashEntry Node)} (types : Option HashTypes)
    (hNonempty : entries ≠ []) (hFiles : st.program.FilesBelow st.program.temps)
    (hOld : ∀ e ∈ entries, st.program.AllOld e.key ∧ st.program.AllOld e.value) :
    ((Node.hash s entries types).pending (answerRequire depth file)).run.Over
      (entryNodes (pendingEntries (answerRequire depth file) entries)) st fun es _ n =>
        es.length = entries.length ∧ n.BuildsHash s es := by
  have hLength := length_pendingEntries (answerRequire depth file) entries
  refine (over_hash s types fun hNil => hNonempty ?_).mono ?_
  · rw [hNil] at hLength
    exact List.eq_nil_of_length_eq_zero hLength.symm
  · rintro es st₁ _ hRun ⟨id, q, hLater, rfl⟩
    refine ⟨(gives_entryNodes_length _ st es st₁ hRun).trans hLength, ?_⟩
    refine Node.buildsHash s id fun e he => ?_
    obtain ⟨hKey, hValue⟩ := (allOld_entryNodes hFiles depth file hOld hRun).2 e he
    exact ⟨(hKey.later hLater).not_hasTemp, (hValue.later hLater).not_hasTemp⟩

theorem interp_builds (s : Span) (pieces : List Node) :
    ((Node.interp s pieces).pending (answerRequire depth file)).run.Over
      (nodes (pendingList (answerRequire depth file) pieces)) st fun ns _ n =>
        ns.length = pieces.length ∧ n.BuildsText s ns := by
  refine (over_interp s _).mono ?_
  rintro ns st₁ _ hRun rfl
  exact ⟨(gives_nodes_length _ st ns st₁ hRun).trans (length_pendingList _ pieces),
    Node.buildsText s ns⟩

end

/-- Literals build what they list. A literal normalizes if its components do in turn, and fails
where they fail. Let the components of an array or a hash, and the files that may be required in
them, have no temporaries that are still to be allocated.

An array literal, unless it is empty and of a declared type, allocates one buffer of the least power
of two that has room for 16 elements and for all of its own, sets the length, and writes the
normalized elements at their indices. A hash literal with entries makes one hash and assigns the
entries to it. An interpolation appends its pieces to one builder and takes the text at the end.

In each case, whatever the interpretation, the value is made once, and each component is evaluated
once and in turn, a key before its value. An array and a hash are kept in a temporary meanwhile,
which no component mentions, and are the values of their literals. -/
theorem literals_build (st : NormalState) (depth : Nat) (file : Option SourcePath) (s : Span) :
    (∀ (elements : List Node) (type : Option ConstPath), (elements = [] → type = none) →
      st.program.FilesBelow st.program.temps → (∀ e ∈ elements, st.program.AllOld e) →
      ((Node.array s elements type).pending (answerRequire depth file)).run.Over
        (nodes (pendingList (answerRequire depth file) elements)) st fun ns _ n =>
          ns.length = elements.length ∧ n.BuildsArray s ns) ∧
    (∀ (entries : List (HashEntry Node)) (types : Option HashTypes), entries ≠ [] →
      st.program.FilesBelow st.program.temps →
      (∀ e ∈ entries, st.program.AllOld e.key ∧ st.program.AllOld e.value) →
      ((Node.hash s entries types).pending (answerRequire depth file)).run.Over
        (entryNodes (pendingEntries (answerRequire depth file) entries)) st fun es _ n =>
          es.length = entries.length ∧ n.BuildsHash s es) ∧
    ∀ pieces : List Node,
      ((Node.interp s pieces).pending (answerRequire depth file)).run.Over
        (nodes (pendingList (answerRequire depth file) pieces)) st fun ns _ n =>
          ns.length = pieces.length ∧ n.BuildsText s ns :=
  ⟨fun _ _ hTyped hFiles hOld => array_builds s hTyped hFiles hOld,
    fun _ types hNonempty hFiles hOld => hash_builds s types hNonempty hFiles hOld,
    fun pieces => interp_builds s pieces⟩

namespace Sample

/-- `{1 => ask()}` -/
def singleEntry : List (HashEntry Node) := [⟨.int .nowhere 1, ask []⟩]

/-- `[ask(), {1 => ask()}]` -/
def listed : List Node := [ask [], .hash .nowhere singleEntry none]

theorem filesBelow_program (k : Nat) : program.FilesBelow k :=
  fun _ _ _ _ _ hContent => nomatch hContent

theorem allOld_singleEntry : ∀ e ∈ singleEntry, program.AllOld e.key ∧ program.AllOld e.value := by
  refine List.forall_mem_singleton.mpr ⟨fun x hx => ?_, fun x hx => ?_⟩
  · exact absurd hx (Node.not_hasTemp_of_parts rfl nofun)
  · exact absurd hx (Node.not_hasTemp_of_parts rfl nofun)

theorem allOld_listed : ∀ e ∈ listed, program.AllOld e := by
  refine List.forall_mem_cons.mpr ⟨fun x hx => ?_, List.forall_mem_singleton.mpr fun x hx => ?_⟩
  · exact absurd hx (Node.not_hasTemp_of_parts rfl nofun)
  · obtain ⟨hKey, hValue⟩ := allOld_singleEntry _ (.head _)
    obtain hEq | ⟨part, hPart, hTemp⟩ := Node.hasTemp_iff.mp hx
    · cases hEq
    · obtain rfl | rfl : part = .int .nowhere 1 ∨ part = ask [] := by
        simpa [singleEntry] using hPart
      · exact hKey x hTemp
      · exact hValue x hTemp

theorem listed_build : program.FilesBelow program.temps ∧ (∀ e ∈ listed, program.AllOld e) ∧
    (∀ e ∈ singleEntry, program.AllOld e.key ∧ program.AllOld e.value) ∧
    (∃ ns n st', ((Node.array .nowhere listed none).pending (answerRequire 0 none)).run.run
      ⟨program, .empty⟩ = .ok ⟨n, false⟩ st' ∧ ns.length = 2 ∧ n.BuildsArray .nowhere ns) ∧
    ∃ es n st', ((Node.hash .nowhere singleEntry none).pending (answerRequire 0 none)).run.run
      ⟨program, .empty⟩ = .ok ⟨n, false⟩ st' ∧ es.length = 1 ∧ n.BuildsHash .nowhere es := by
  refine ⟨filesBelow_program _, allOld_listed, allOld_singleEntry, ?_, ?_⟩
  · obtain ⟨ns, st₁, hRun⟩ : ∃ ns st₁, (nodes (pendingList (answerRequire 0 none) listed)).run
        ⟨program, .empty⟩ = .ok ns st₁ := ⟨_, _, rfl⟩
    have hArray := (literals_build ⟨program, .empty⟩ 0 none .nowhere).1 listed none nofun
      (filesBelow_program _) allOld_listed
    obtain ⟨n, st', hLiteral, hBuilds⟩ := hArray.of_ok hRun
    exact ⟨ns, n, st', hLiteral, hBuilds⟩
  · obtain ⟨es, st₁, hRun⟩ : ∃ es st₁, (entryNodes (pendingEntries (answerRequire 0 none)
        singleEntry)).run ⟨program, .empty⟩ = .ok es st₁ := ⟨_, _, rfl⟩
    have hHash := (literals_build ⟨program, .empty⟩ 0 none .nowhere).2.1 singleEntry none nofun
      (filesBelow_program _) allOld_singleEntry
    obtain ⟨n, st', hLiteral, hBuilds⟩ := hHash.of_ok hRun
    exact ⟨es, n, st', hLiteral, hBuilds⟩

/-- The name of the first temporary is in the table already. -/
def reserving : Program := .init (SymbolTable.initial.intern "#temp_1").2 .empty []

/-- `#temp_1 = 5` -/
def overwriting : Node := .assign .nowhere (.temp .nowhere ⟨14⟩) (.int .nowhere 5)

/-- An element that assigns the temporary of its array is the value of the literal, and not the
array that was made. -/
theorem element_overwrites_array : ∃ n p',
    reserving.normalize none (.array .nowhere [overwriting] none) = (.ok n, p') ∧
    ((n.versioned interp 0).on (start Prod.fst)).1 = .ok (.int 5) ∧
    ∀ t type capacity, ((Eval.buildArray interp t type capacity
      [overwriting.versioned interp 0]).on (start Prod.fst)).1 = .ok (.int 1) :=
  ⟨_, _, rfl, rfl, fun _ _ _ => rfl⟩

end Sample

end CoreTree

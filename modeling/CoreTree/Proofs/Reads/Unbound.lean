import CoreTree.Proofs.CoreForm.OfNode
import CoreTree.Proofs.Reads.Follows
import CoreTree.Proofs.Reads.Sugar
import CoreTree.Proofs.Requires.Cycles
import CoreTree.Proofs.Runs.Weight

/-! # The first read of an unbound name

A tree without requires normalizes unless the walk through it stops at a read of a name that is not
bound, and then normalization fails at this read.
-/
namespace CoreTree
set_option autoImplicit false

open Code

variable {answer : RequireHandler}

/-- One call of the normalizer follows the walk, if the calls in it do. -/
theorem Node.follows_code {n : Node} (hFree : ∀ s path, n ≠ .require s path)
    (hParts : ∀ part ∈ n.parts, Walks answer part) (hMeans : ∀ m, n.Means m → Walks answer m)
    (st : NormalState) :
    n.code.Follows answer st n.walk fun o _ ends => o.ends = ends := by
  cases n with
  | atom s a =>
    rw [walk]
    exact follows_pure rfl
  | var s v =>
    rw [walk]
    exact (follows_useVar s v).bind fun _ _ _ _ => follows_pure rfl
  | seq s stmts =>
    rw [walk]
    exact (follows_statements hParts st).map fun _ _ _ h => h
  | cond s form test body other =>
    have hTest := hParts test (.head _)
    have hBody : ∀ m, body = some m → Walks answer m := fun m hm => hParts m (by simp [hm])
    have hOther : ∀ m, other = some m → Walks answer m := fun m hm => hParts m (by simp [hm])
    cases form with
    | whenTrue =>
      rw [walk]
      exact follows_ifElse hTest hBody hOther st
    | whenFalse =>
      rw [walk]
      exact follows_ifElse hTest hOther hBody st
  | loop s test body =>
    rw [walk]
    exact follows_loop (hParts test (.head _)) (fun m hm => hParts m (by simp [hm])) st
  | choose s subject whens other =>
    exact follows_unfolded (fun t => hMeans _ (.choose t)) (fun t => (Means.choose t).walk_eq) st
  | logic s op left right =>
    exact follows_unfolded (fun t => hMeans _ (.logic t)) (fun t => (Means.logic t).walk_eq) st
  | jump s kind value =>
    rw [walk]
    exact (follows_optionNode (fun m hm => hParts m (by simp [hm])) st).bind fun _ _ _ _ =>
      follows_pure rfl
  | assign s target value =>
    rw [walk]
    exact follows_assign (hParts target (by simp)) (hParts value (by simp)) st
  | multi s targets values =>
    rw [walk]
    refine (follows_nodes (fun m hm => hParts m (by simp [hm])) st).bind fun _ st₁ _ _ => ?_
    exact (follows_targets (fun m hm => hParts m (by simp [hm])) st₁).bind fun _ _ _ _ =>
      follows_pure rfl
  | call s receiver name args block =>
    have hReceiver : ∀ m, receiver = some m → Walks answer m := fun m hm => hParts m (by simp [hm])
    have hArgs : ∀ m ∈ args, Walks answer m := fun m hm => hParts m (by simp [hm])
    have hBlock : ∀ m, block.bind (·.body) = some m → Walks answer m := fun m hm =>
      hParts m (by simp only [parts, List.mem_append, Option.mem_toList]; exact .inr (.inr hm))
    have hCall := follows_call s name hReceiver hArgs hBlock st
    cases block with
    | none =>
      simp only [Option.elim_none, pure_bind] at hCall
      rw [walk]
      exact hCall
    | some b =>
      rw [walk]
      exact hCall
  | isA s subject type =>
    rw [walk]
    exact ((hParts subject (by simp)).node st).bind fun _ _ _ _ => follows_pure rfl
  | define s kind name params body =>
    show (Code.define s kind name params body).Follows answer st _ _
    unfold Code.define
    split
    · rename_i hDefault
      exact (Means.define hDefault).walk_eq ▸ hMeans _ (.define hDefault) st
    · rename_i hPlain
      have hNone : ∀ p ∈ params, p.default = none := by simpa using hPlain
      have hDefaults := walkDefaults_of_required hNone [] []
      rw [List.append_nil, walkDefaults] at hDefaults
      rw [walk, hDefaults, pure_bind]
      exact follows_definePlain (fun m hm => hParts m (by simp [hm])) st
  | interp s pieces =>
    rw [walk]
    exact (follows_nodes hParts st).bind fun _ _ _ _ => follows_pure rfl
  | range s first last exclusive =>
    rw [walk]
    exact ((hParts first (by simp)).node st).bind fun _ st₁ _ _ =>
      ((hParts last (by simp)).node st₁).bind fun _ _ _ _ => follows_pure rfl
  | regex s text =>
    rw [walk]
    exact follows_allocate_bind fun _ _ => follows_pure rfl
  | array s elements type =>
    rw [walk]
    refine (follows_nodes hParts st).bind fun ns st₁ _ _ => follows_allocate_bind fun id q => ?_
    dsimp only
    split
    · exact follows_pure rfl
    · exact follows_allocate_bind fun _ _ => follows_pure rfl
  | hash s entries types =>
    rw [walk]
    have hEntries : ∀ e ∈ entries, Walks answer e.key ∧ Walks answer e.value := fun e he =>
      ⟨hParts _ (List.mem_flatMap.mpr ⟨e, he, by simp⟩),
        hParts _ (List.mem_flatMap.mpr ⟨e, he, by simp⟩)⟩
    refine (follows_entryNodes hEntries st).bind fun es st₁ _ _ =>
      follows_allocate_bind fun id q => ?_
    dsimp only
    split
    · exact follows_pure rfl
    · exact follows_allocate_bind fun _ _ => follows_pure rfl
  | require s path => exact absurd rfl (hFree s path)

/-- From any state, normalizing a tree without requires follows the walk through it. -/
theorem Node.walks (answer : RequireHandler) {n : Node}
    (hFree : n.Everywhere true fun m => ∀ s path, m ≠ .require s path) :
    Walks answer n := by
  generalize hWeight : n.weight = weight
  induction weight using Nat.strong_induction_on generalizing n with
  | _ weight ih =>
    subst hWeight
    have hGlue : ∀ m : Node, m.IsGlue → ∀ s path, m ≠ .require s path := by
      rintro _ h s path rfl
      exact h
    obtain ⟨hRoot, hOpen⟩ := (everywhere_iff n).mp hFree
    have hParts : ∀ part ∈ n.parts, Walks answer part := fun part hPart =>
      ih _ (weight_lt_of_mem_parts hPart) (hOpen (.inl rfl) part hPart) rfl
    have hMeans : ∀ m, n.Means m → Walks answer m := fun m hm =>
      ih _ hm.weight_lt (everywhere_of_means hGlue hm hFree) rfl
    intro st
    refine (follows_code hRoot hParts hMeans st).of_step (.refl _) ?_ rfl
    rw [denote_code]
    rfl

theorem Node.everywhere_of_not_requests {n : Node} (hFree : ∀ path, ¬ n.Requests path) :
    n.Everywhere true fun m => ∀ s path, m ≠ .require s path := by
  rintro _ hReaches s path rfl
  exact hFree path ⟨s, Node.reaches_true_iff.mp hReaches⟩

/-- How normalization comes out is told by the walk from the empty set. -/
theorem Program.normalize_of_walk (p : Program) (file : Option SourcePath) {root : Node}
    (hFree : ∀ path, ¬ root.Requests path) :
    match root.walk.run ∅ with
    | .error read => ∃ q, p.Extends q ∧
      p.normalize file root = (.error (.error (.unbound (q.names.text read.name) read.span)), q)
    | .ok _ => ∃ n st, (root.pending (answerRequire p.loader.files.length file)).node.run
        ⟨p, .empty⟩ = .ok n st ∧
      (p.normalize file root = (.ok n, st.program) ∨
        ∃ fault, p.normalize file root = (.error (.fault fault), st.program)) := by
  have hFollows := Node.walks (answerRequire p.loader.files.length file)
    (Node.everywhere_of_not_requests hFree) ⟨p, .empty⟩
  rw [← Scope.known_empty]
  obtain ⟨moves, hRuns⟩ : ∃ moves, Runs file (.transform root) ⟨p, .empty⟩ moves
      ((root.pending (answerRequire p.loader.files.length file)).run.run ⟨p, .empty⟩) :=
    exists_runs_eq file root ⟨p, .empty⟩
  cases hRun : (root.pending (answerRequire p.loader.files.length file)).run.run ⟨p, .empty⟩ with
  | ok o st =>
    obtain ⟨-, ends, hWalk, -⟩ := hFollows.ok o st hRun
    rw [hRun] at hRuns
    rw [hWalk]
    exact ⟨o.node, st, run_node_of_ok hRun, normalize_of_runs hRuns⟩
  | error e st =>
    obtain ⟨hExtends, read, hWalk, rfl⟩ := hFollows.error e st hRun
    rw [hRun] at hRuns
    rw [hWalk]
    exact ⟨st.program, hExtends, normalize_of_runs hRuns⟩

/-- A tree without requires fails exactly at its first read of an unbound name. The walk that meets
this read sees no versions. It starts from the empty set of names, and it takes sugar as the simpler
tree that the sugar stands for. Normalization fails if and only if the walk stops at a read, and
then it fails for this read, by the text that its name has in the program. Otherwise there is a
normalized tree, as long as the types registered before are in core form. -/
theorem unbound_at_first_read (p : Program) (file : Option SourcePath) (root : Node)
    (hFree : ∀ path, ¬ root.Requests path) :
    (∀ n m : Node, n.Means m → m.walk = n.walk) ∧
    ((∃ e, (p.normalize file root).1 = .error (.error e)) ↔
      ∃ read, root.walk.run ∅ = .error read) ∧
    (∀ read, root.walk.run ∅ = .error read → ∃ q, p.Extends q ∧
      p.normalize file root =
        (.error (.error (.unbound (q.names.text read.name) read.span)), q)) ∧
    (p.types.coreFault? = none → ((∃ n, (p.normalize file root).1 = .ok n) ↔
      ∃ result, root.walk.run ∅ = .ok result)) := by
  have hOutcome := p.normalize_of_walk file hFree
  refine ⟨fun n m h => h.walk_eq, ?_⟩
  cases hWalk : root.walk.run ∅ with
  | error read =>
    simp only [hWalk] at hOutcome
    obtain ⟨q, hExtends, hFails⟩ := hOutcome
    refine ⟨⟨fun _ => ⟨read, rfl⟩, fun _ => ⟨_, congrArg Prod.fst hFails⟩⟩, ?_, fun _ => ?_⟩
    · rintro _ ⟨⟩
      exact ⟨q, hExtends, hFails⟩
    · rw [hFails]
      exact ⟨nofun, nofun⟩
  | ok result =>
    simp only [hWalk] at hOutcome
    obtain ⟨n, st, hRun, hNormalize⟩ := hOutcome
    refine ⟨⟨?_, nofun⟩, nofun, fun hTypes => ⟨fun _ => ⟨result, rfl⟩, fun _ => ?_⟩⟩
    · rintro ⟨e, hError⟩
      obtain hOk | ⟨fault, hFault⟩ := hNormalize
      · rw [hOk] at hError
        cases hError
      · rw [hFault] at hError
        cases hError
    · exact ⟨n, congrArg Prod.fst (Program.normalize_eq_of_run hTypes hRun)⟩

theorem Node.not_requests_of_parts {n : Node} {path : Symbol} (hRoot : ∀ s, n ≠ .require s path)
    (hParts : ∀ part ∈ n.parts, ¬ part.Requests path) : ¬ n.Requests path := by
  rintro ⟨s, h⟩
  obtain h | ⟨part, hPart, hHas⟩ := h.cases_root
  · exact hRoot s h.symm
  · exact hParts part hPart ⟨s, hHas⟩

namespace Sample

def unboundItem : Read := ⟨⟨14⟩, ⟨30, 34⟩⟩

/-- `ask() { |item| total = item } ; total ; item`. Behind the block, what it has bound is bound,
but its parameter is not. -/
def leaking : Node := .seq .nowhere [
  .call .nowhere none .append [] (some ⟨[unboundItem.name],
    some (write total (readVar unboundItem.name))⟩),
  readVar total, .var unboundItem.span ⟨unboundItem.name, 0, false⟩]

def itemNames : SymbolTable := (SymbolTable.initial.intern "item").2

theorem leaking_unbound : (∀ path, ¬ leaking.Requests path) ∧
    leaking.walk.run ∅ = .error unboundItem ∧
    ((Program.init itemNames .empty []).normalize none leaking).1 =
      .error (.error (.unbound "item" unboundItem.span)) := by
  have hVar : ∀ s v path, ¬ (Node.var s v).Requests path := fun s v path =>
    Node.not_requests_of_parts nofun nofun
  have hFree : ∀ path, ¬ leaking.Requests path := by
    refine fun path => Node.not_requests_of_parts nofun (List.forall_mem_cons.mpr ⟨?_,
      List.forall_mem_cons.mpr ⟨hVar _ _ path, List.forall_mem_singleton.mpr (hVar _ _ path)⟩⟩)
    refine Node.not_requests_of_parts nofun (List.forall_mem_singleton.mpr ?_)
    exact Node.not_requests_of_parts nofun (List.forall_mem_cons.mpr ⟨hVar _ _ path,
      List.forall_mem_singleton.mpr (hVar _ _ path)⟩)
  obtain ⟨-, -, hFails, -⟩ := unbound_at_first_read (.init itemNames .empty []) none leaking hFree
  obtain ⟨q, hExtends, hNormalize⟩ := hFails unboundItem rfl
  have hText : q.names.text unboundItem.name = "item" :=
    congrArg (·.getD "") (hExtends.names unboundItem.name "item" rfl)
  rw [hText] at hNormalize
  exact ⟨hFree, rfl, congrArg Prod.fst hNormalize⟩

/-- `case total when total = 1 end`. The pattern binds the subject before it is read. -/
example : (Node.choose .nowhere (readVar total) [⟨[write total (.int .nowhere 1)], none⟩]
    none).walk.run ∅ = .ok (false, {total}) := rfl

end Sample

end CoreTree

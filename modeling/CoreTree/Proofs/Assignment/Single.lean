import CoreTree.Proofs.Assignment.Straight
import CoreTree.Proofs.Preservation
import CoreTree.Proofs.Requires.Cycles

/-! # Single assignment

In each method scope, the source writes of a variable make ever higher versions and none that a
bridge has written before, and where nothing repeats, a path through the normalized code assigns
each version once.
-/
namespace CoreTree
set_option autoImplicit false

open Move

variable {file : Option SourcePath}

/-! ## Method scopes -/

/-- A tree that was normalized apart along the moves, at any depth, with its moves and result. -/
inductive Move.Inner : List Move → Node → List Move → Node → Prop where
  | here {moves inner : List Move} {source result : Node}
    (h : .apart source inner (some result) ∈ moves) : Inner moves source inner result
  | deeper {moves moves' inner : List Move} {source source' result : Node}
    {result' : Option Node} (h : .apart source' moves' result' ∈ moves)
    (hIn : Inner moves' source inner result) : Inner moves source inner result

theorem Move.inner_append {moves moves' inner : List Move} {source result : Node}
    (h : Inner (moves ++ moves') source inner result) :
    Inner moves source inner result ∨ Inner moves' source inner result := by
  cases h with
  | here h => exact (List.mem_append.mp h).imp .here .here
  | deeper h hIn => exact (List.mem_append.mp h).imp (.deeper · hIn) (.deeper · hIn)

theorem Act.not_inner {α : Type} {a : Act α} {st : NormalState} {inner : List Move}
    {source result : Node} : ¬ Inner (a.moves st) source inner result := by
  have hMem : ∀ {n ms r}, Move.apart n ms r ∉ a.moves st := by
    intro n ms r h
    cases a <;> simp [Act.moves] at h
  rintro (h | ⟨h, -⟩)
  · exact hMem h
  · exact hMem h

/-- The tree was normalized along these moves, in a scope that knows some parameters and nothing
else, and this is what it became. -/
def Node.Became (file : Option SourcePath) (source : Node) (inner : List Move) (result : Node) :
    Prop :=
  ∃ p params o st, CoreTree.Runs file (.transform source) ⟨p, .ofParams params⟩ inner (.ok o st) ∧
    o.node = result

/-- What is normalized apart is part of the code, or of what its sugar stands for. -/
theorem Runs.became {P : Node → Prop} (hGlue : ∀ n, n.IsGlue → P n)
    (hRequire : ∀ s path, ¬ P (.require s path)) {α : Type} {c : Code α} {st : NormalState}
    {moves : List Move} {r : EStateM.Result NormalizeError NormalState α}
    (h : Runs file c st moves r) (hCalls : ∀ m, c.Calls m → m.Everywhere true P)
    (hAsks : ∀ path, ¬ c.Asks path) {source result : Node} {inner : List Move}
    (hInner : Inner moves source inner result) :
    source.Became file inner result ∧ source.Everywhere true P := by
  induction h with
  | pure => rcases hInner with h | ⟨h, -⟩ <;> cases h
  | act => exact absurd hInner Act.not_inner
  | bind _ _ ih ihNext =>
    obtain h | h := inner_append hInner
    · exact ih (fun m hm => hCalls m (.inl hm)) (fun path hAsk => hAsks path (.inl hAsk)) h
    · exact ihNext (fun m hm => hCalls m (.inr ⟨_, hm⟩))
        (fun path hAsk => hAsks path (.inr ⟨_, hAsk⟩)) h
  | bind_error _ ih =>
    exact ih (fun m hm => hCalls m (.inl hm)) (fun path hAsk => hAsks path (.inl hAsk)) hInner
  | @transform _ n _ _ _ _ ih =>
    have hRoot : n.Everywhere true P := hCalls n rfl
    refine ih (fun m hm => Node.everywhere_of_calls hGlue hm (.inl rfl) hRoot)
      (fun path hAsk => ?_) hInner
    obtain ⟨s, rfl⟩ := Node.eq_require_of_asks hAsk
    exact hRequire s path (hRoot _ .root)
  | @apart _ params n _ _ _ o hRun ih =>
    cases hInner with
    | here h =>
      cases List.mem_singleton.mp h
      exact ⟨⟨_, _, o, _, hRun, rfl⟩, hCalls _ rfl⟩
    | deeper h hIn =>
      cases List.mem_singleton.mp h
      exact ih (fun m hm => hm ▸ hCalls n rfl) (fun _ => id) hIn
  | @apart_error _ params n _ _ _ _ _ ih =>
    cases hInner with
    | here h => cases List.mem_singleton.mp h
    | deeper h hIn =>
      cases List.mem_singleton.mp h
      exact ih (fun m hm => hm ▸ hCalls n rfl) (fun _ => id) hIn
  | refused | loaded | found | found_error => exact absurd rfl (hAsks _)

/-! ## What holds in a scope -/

/-- The source writes of the variable make ever higher versions, none of which a bridge has
written before, and its next write never goes back. -/
structure Move.AssignsOnce (x : Symbol) (moves : List Move) : Prop where
  writes : (writes x moves).Pairwise (· < ·)
  bridges : ∀ before after bridges, moves = before ++ .bridged bridges :: after →
    ∀ b ∈ bridges, b.name = x → b.target ∉ Move.writes x after
  next : ((scopes moves).map (·.next x)).Pairwise (· ≤ ·)

theorem Timeline.assignsOnce {x : Symbol} {low high : Nat} {moves : List Move}
    (h : Timeline x low moves high) : AssignsOnce x moves :=
  ⟨h.pairwise_writes, fun _ _ _ hMoves => h.target_not_mem_writes hMoves, h.pairwise_scopes⟩

theorem Scope.allSound_ofParams (params : List Symbol) : (ofParams params).AllSound := by
  intro x _ v r hv hr
  rw [get?_ofParams] at hv
  split at hv <;> cases hv
  cases hr
  exact Nat.one_pos

theorem Node.Reaches.anywhere {inner : Bool} {root n : Node} (h : root.Reaches inner n) :
    root.Reaches true n := by
  induction h with
  | root => exact .root
  | part _ _ hPart ih => exact .part ih (.inl rfl) hPart

/-- One method scope: how its variables are written, what is known where it leads, and the paths
through what becomes of it. -/
theorem Node.Became.assignsOnce {source result : Node} {inner : List Move}
    (h : source.Became file inner result) (hOwn : source.Everywhere true IsOwn) :
    (∀ x ∉ blockParams inner, AssignsOnce x inner) ∧ (∀ s ∈ scopes inner, s.AllSound) ∧
      ((source.Everywhere false fun m => m.IsStraight ∧ m.HasTargets) →
        ∀ π leaves, result.Path π leaves → π.Nodup) := by
  obtain ⟨p, params, o, st, hRuns, rfl⟩ := h
  have hAdvances := steady_transform hOwn _ _ _ _ _ hRuns (Scope.allSound_ofParams params)
  refine ⟨fun x hx => (hAdvances.timeline x hx).assignsOnce, hAdvances.reached,
    fun hStraight π leaves hPath => ?_⟩
  have hFlat : source.Everywhere false IsFlat := fun n hn =>
    ⟨hOwn n hn.anywhere, hStraight n hn⟩
  obtain ⟨-, -, hFits⟩ := fits_of_everywhere hFlat _ _ _ _ _ hRuns
  exact (hFits _ (fun _ => le_rfl) (layout_fits.paths_nil _ _) π leaves
    (pathAll_singleton_iff.mpr hPath)).1

/-- The tree as a whole or a definition body in it, at any depth, with how it was normalized. -/
inductive Move.MethodScope (root : Node) (moves : List Move) (n : Node) :
    Node → List Move → Node → Prop where
  | top : MethodScope root moves n root moves n
  | body {source result : Node} {inner : List Move} (h : Inner moves source inner result) :
    MethodScope root moves n source inner result

/-- Single assignment. Let a tree without requires and assignments of constants be normalized, and
take any method scope of it. The source writes of a variable that is no parameter of a block there
are given ever higher versions, never one that a bridge has targeted before, and the next write
never goes back; in every scope that is reached, what is read has been written. If the method scope
has no loops and no blocks and no target of an assignment but a variable comes down to one, every
path through the normalized code assigns each version of each variable at most once, by source
writes and bridges together. -/
theorem versions_assigned_once {p p' : Program} {root n : Node}
    (hRoot : root.Everywhere true Node.IsOwn) (h : p.normalize file root = (.ok n, p')) :
    ∃ moves, (∃ o st, Runs file (.transform root) ⟨p, .empty⟩ moves (.ok o st) ∧ o.node = n) ∧
      ∀ source inner result, MethodScope root moves n source inner result →
        (∀ x ∉ blockParams inner, AssignsOnce x inner) ∧ (∀ s ∈ scopes inner, s.AllSound) ∧
        ((source.Everywhere false fun m => m.IsStraight ∧ m.HasTargets) →
          ∀ π leaves, result.Path π leaves → π.Nodup) := by
  obtain ⟨moves, result, hRuns⟩ := exists_runs_transform file root ⟨p, .empty⟩
  obtain ⟨o, st, rfl, rfl⟩ : ∃ o st, result = .ok o st ∧ o.node = n := by
    have hNormalize := Program.normalize_of_runs hRuns
    cases result with
    | error e st =>
      rw [hNormalize] at h
      cases h
    | ok o st =>
      obtain hOk | ⟨fault, hFault⟩ := hNormalize
      · rw [hOk] at h
        cases h
        exact ⟨o, st, rfl, rfl⟩
      · rw [hFault] at h
        cases h
  refine ⟨moves, ⟨o, st, hRuns, rfl⟩, fun source inner result hScope => ?_⟩
  cases hScope with
  | top => exact Node.Became.assignsOnce ⟨p, [], o, st, hRuns, rfl⟩ hRoot
  | body hInner =>
    obtain ⟨hBecame, hOwn⟩ := hRuns.became (fun _ hk => hk.isOwn) (fun _ _ => id)
      (fun m hm => hm ▸ hRoot) (fun _ => id) hInner
    exact hBecame.assignsOnce hOwn

namespace Sample

def versionOf (x : Symbol) (version : Nat) : Node := .var .nowhere ⟨x, version, false⟩

def writeVersion (x : Symbol) (version : Nat) (value : Node) : Node :=
  .assign .nowhere (versionOf x version) value

/-- `total = 1 ; if ask() then total = 2 ; total = 3 else total = 4 end`, and then
`def total() total = 1 end` -/
def branching : Node := .seq .nowhere [
  write total (.int .nowhere 1),
  .cond .nowhere .whenTrue (ask [])
    (some (.seq .nowhere [write total (.int .nowhere 2), write total (.int .nowhere 3)]))
    (some (write total (.int .nowhere 4))),
  .define .nowhere .method total [] (some (write total (.int .nowhere 1)))]

/-- Both branches keep their value in a temporary while they copy `total` to its version 4. -/
def branched : Node := .seq .nowhere [
  writeVersion total 0 (.int .nowhere 1),
  .cond .nowhere .whenTrue (ask [])
    (some (.seq .nowhere [writeVersion total 1 (.int .nowhere 2),
      .assign .nowhere (.temp .nowhere ⟨14⟩) (writeVersion total 2 (.int .nowhere 3)),
      writeVersion total 4 (versionOf total 2), .temp .nowhere ⟨14⟩]))
    (some (.seq .nowhere [
      .assign .nowhere (.temp .nowhere ⟨15⟩) (writeVersion total 3 (.int .nowhere 4)),
      writeVersion total 4 (versionOf total 3), .temp .nowhere ⟨15⟩])),
  .define .nowhere .method total [] (some (writeVersion total 0 (.int .nowhere 1)))]

theorem normalize_branching : ∃ p', program.normalize none branching = (.ok branched, p') := by
  have h : (program.normalize none branching).1 = .ok branched := by decide +kernel
  generalize program.normalize none branching = result at h ⊢
  exact ⟨result.2, by rw [← h]⟩

section

variable {inner : Bool} {P : Node → Prop} (hGlue : ∀ n, n.IsGlue → P n)
  (hWrite : ∀ target value, target.isVar = true → P (.assign .nowhere target value))
include hGlue hWrite

theorem everywhere_write (x : Symbol) (k : Int) :
    (write x (.int .nowhere k)).Everywhere inner P := by
  refine (Node.everywhere_iff _).mpr ⟨hWrite _ _ rfl, fun _ part hPart => ?_⟩
  obtain rfl | rfl : part = readVar x ∨ part = .int .nowhere k := by simpa [write] using hPart
  · exact Node.everywhere_of_parts hGlue trivial (List.forall_mem_nil _)
  · exact Node.everywhere_atom hGlue _ _

theorem everywhere_branching : branching.Everywhere inner P := by
  have hWrites : ∀ k, (write total (.int .nowhere k)).Everywhere inner P :=
    everywhere_write hGlue hWrite total
  refine Node.everywhere_of_parts hGlue trivial (List.forall_mem_cons.mpr ⟨hWrites 1,
    List.forall_mem_cons.mpr ⟨?_, List.forall_mem_singleton.mpr ?_⟩⟩)
  · have hNew : ∀ n : Node, n.IsNew (fun _ => False) (fun _ => False) → P n :=
      fun n hn => hGlue n hn.1
    refine Node.everywhere_cond hNew _ _ (Node.everywhere_of_parts hGlue trivial nofun) ?_ ?_
    · rintro _ ⟨⟩
      exact Node.everywhere_of_parts hGlue trivial (List.forall_mem_cons.mpr ⟨hWrites 2,
        List.forall_mem_singleton.mpr (hWrites 3)⟩)
    · rintro _ ⟨⟩
      exact hWrites 4
  · exact Node.everywhere_of_parts hGlue trivial (List.forall_mem_singleton.mpr (hWrites 1))

end

theorem path_writeVersion (x : Symbol) (version : Nat) {value : Node} {π : List (Symbol × Nat)}
    (h : value.Path π false) : (writeVersion x version value).Path (π ++ [(x, version)]) false :=
  .assign (.cons h (pathAll_singleton_iff.mpr (.write _ _ rfl)))

theorem branching_assigned_once : branching.Everywhere true Node.IsOwn ∧
    ∃ p' moves, program.normalize none branching = (.ok branched, p') ∧
      (∃ o st, Runs none (.transform branching) ⟨program, .empty⟩ moves (.ok o st) ∧
        o.node = branched) ∧
      (∀ x ∉ blockParams moves, AssignsOnce x moves) ∧
      branched.Path [(total, 0), (total, 1), (total, 2), (total, 4)] false ∧
      ∀ π leaves, branched.Path π leaves → π.Nodup := by
  have hOwn : branching.Everywhere true Node.IsOwn :=
    everywhere_branching (fun _ hk => hk.isOwn) fun target _ hVar => by
      cases target <;> trivial
  obtain ⟨p', hNormal⟩ := normalize_branching
  obtain ⟨moves, hRuns, hScopes⟩ := versions_assigned_once hOwn hNormal
  obtain ⟨hOnce, -, hPaths⟩ := hScopes _ _ _ .top
  refine ⟨hOwn, p', moves, hNormal, hRuns, hOnce, ?_, hPaths ?_⟩
  · have hInt : ∀ k, (Node.int .nowhere k).Path [] false := fun k => .atom _ _
    have hAsk : (ask []).Path [] false := .call .nil
    have hThen : PathAll [writeVersion total 1 (.int .nowhere 2),
        .assign .nowhere (.temp .nowhere ⟨14⟩) (writeVersion total 2 (.int .nowhere 3)),
        writeVersion total 4 (versionOf total 2), .temp .nowhere ⟨14⟩]
        [(total, 1), (total, 2), (total, 4)] false :=
      .cons (path_writeVersion total 1 (hInt 2)) (.cons
        (path_assign_temp_iff.mpr (path_writeVersion total 2 (hInt 3)))
        (.cons (path_writeVersion total 4 (.read _ _ rfl)) (pathAll_singleton_iff.mpr (.atom _ _))))
    have hBranch : PathAll (some (Node.seq .nowhere _)).toList _ false :=
      pathAll_singleton_iff.mpr (.seq hThen)
    exact .seq (.cons (path_writeVersion total 0 (hInt 1)) (PathAll.cons (.onTrue hAsk hBranch)
      (pathAll_singleton_iff.mpr (.define ..))))
  · exact everywhere_branching (fun _ hk => ⟨hk.isStraight, hk.hasTargets⟩)
      fun _ _ hVar => ⟨trivial, .inl hVar⟩

/-- `total = 1 ; (total) = 2`, with a sequence of one statement as the target. -/
def sequenceTarget : Node := .seq .nowhere [write total (.int .nowhere 1),
  .assign .nowhere (.seq .nowhere [readVar total]) (.int .nowhere 2)]

theorem everywhere_sequenceTarget {inner : Bool} {P : Node → Prop} (hGlue : ∀ n, n.IsGlue → P n)
    (hWrite : ∀ target value, target.isVar = true → P (.assign .nowhere target value))
    (hSeq : ∀ stmts value, P (.assign .nowhere (.seq .nowhere stmts) value)) :
    sequenceTarget.Everywhere inner P := by
  refine Node.everywhere_of_parts hGlue trivial (List.forall_mem_cons.mpr
    ⟨everywhere_write hGlue hWrite total 1, List.forall_mem_singleton.mpr ?_⟩)
  refine (Node.everywhere_iff _).mpr ⟨hSeq _ _, fun _ => List.forall_mem_cons.mpr
    ⟨Node.everywhere_of_parts hGlue trivial (List.forall_mem_singleton.mpr ?_),
      List.forall_mem_singleton.mpr (Node.everywhere_atom hGlue _ _)⟩⟩
  exact Node.everywhere_of_parts hGlue trivial nofun

/-- A sequence as a target comes down to a variable that was only read, and so its version is
assigned again. -/
theorem sequence_target_assigned_again : sequenceTarget.Everywhere true Node.IsOwn ∧
    sequenceTarget.Everywhere false Node.IsStraight ∧
    ∃ n p' π, program.normalize none sequenceTarget = (.ok n, p') ∧ n.Path π false ∧
      ¬ π.Nodup := by
  refine ⟨everywhere_sequenceTarget (fun _ hk => hk.isOwn) (fun target _ hVar => ?_)
      fun _ _ => trivial,
    everywhere_sequenceTarget (fun _ hk => hk.isStraight) (fun _ _ _ => trivial)
      fun _ _ => trivial, _, _, [(total, 0), (total, 0)], rfl, ?_, by simp⟩
  · cases target <;> trivial
  · exact .seq (.cons (path_writeVersion total 0 (.atom _ _))
      (pathAll_singleton_iff.mpr (path_writeVersion total 0 (.atom _ _))))

end Sample

end CoreTree

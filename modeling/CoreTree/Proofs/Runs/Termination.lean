import CoreTree.Proofs.Runs.Basic
import CoreTree.Proofs.Runs.Weight
import Mathlib.Data.Finset.Card
import Mathlib.Data.Prod.Lex

/-! # Termination

The normalizer calls itself on a lighter tree of the same file, or on the tree of a file that was
idle and not loaded and now is in flight. Whatever the trees require of each other, there are
fewer such files then, so the recursion is well founded, and every tree has a run.
-/
namespace CoreTree
set_option autoImplicit false

namespace Program

variable {p q r : Program}

/-- The files of the loader that are neither in flight nor loaded. -/
def idle (p : Program) : Finset Location :=
  (p.loader.files.map (·.1)).toFinset.filter fun f =>
    f ∉ p.requires.inFlight ∧ f ∉ p.requires.loaded

theorem mem_idle_iff {f : Location} : f ∈ p.idle ↔
    (∃ content, p.loader.content? f = some content) ∧ f ∉ p.requires.inFlight ∧
      f ∉ p.requires.loaded := by
  have hKnown : f ∈ p.loader.files.map (·.1) ↔ ∃ content, p.loader.content? f = some content := by
    rw [Loader.content?]
    cases hLookup : p.loader.files.lookup f with
    | none =>
      have hUnknown := List.lookup_eq_none_iff.mp hLookup
      refine iff_of_false (fun hMem => ?_) (by simp)
      obtain ⟨entry, hEntry, rfl⟩ := List.mem_map.mp hMem
      simpa using hUnknown entry hEntry
    | some content =>
      obtain ⟨before, after, hFiles, -⟩ := List.lookup_eq_some_iff.mp hLookup
      simp [hFiles]
  rw [idle, Finset.mem_filter, List.mem_toFinset, hKnown]

theorem Passes.idle_subset (h : p.Passes q) : q.idle ⊆ p.idle := by
  intro f hf
  rw [mem_idle_iff, h.loader, h.inFlight] at hf
  exact mem_idle_iff.mpr ⟨hf.1, hf.2.1, fun hLoaded => hf.2.2 (h.loaded f hLoaded)⟩

/-- The file that a request yields a tree of is idle no more. -/
theorem Finds.idle_ssubset {file : Location} {root : Node} (h : p.Finds file root q) :
    q.idle ⊂ p.idle := by
  refine Finset.ssubset_iff_of_subset (fun f hf => ?_) |>.mpr ⟨file, ?_, fun hf => ?_⟩
  · rw [mem_idle_iff, h.loader, h.requires] at hf
    exact mem_idle_iff.mpr ⟨hf.1, fun hMem => hf.2.1 (List.mem_append_left _ hMem), hf.2.2⟩
  · obtain ⟨content, hContent, -⟩ := h.loads
    exact mem_idle_iff.mpr ⟨⟨content, hContent⟩, h.idle, h.fresh⟩
  · rw [mem_idle_iff, h.requires] at hf
    exact hf.2.1 (List.mem_append_right _ (.head _))

end Program

/-- The second tree, normalized in the second program, may have the first tree normalized, in the
first program. -/
inductive Recurs : Program × Node → Program × Node → Prop where
  | call {p q : Program} {n m : Node} (h : n.code.Calls m) (hPasses : p.Passes q) :
    Recurs (q, m) (p, n)
  | require {p q r : Program} {n root : Node} {path : Symbol} {requestedFrom : Option SourcePath}
    {file : Location} (h : n.code.Asks path) (hPasses : p.Passes q)
    (hFound : q.resolve (q.names.text path) requestedFrom = (.ok (some ⟨file, root⟩), r)) :
    Recurs (r, root) (p, n)

theorem recurs_wellFounded : WellFounded Recurs := by
  refine Subrelation.wf (fun {x y} h => ?_) (InvImage.wf
    (fun x : Program × Node => (x.1.idle.card, x.2.weight))
    (WellFounded.prod_lex Nat.lt_wfRel.wf Nat.lt_wfRel.wf))
  cases h with
  | call h hPasses =>
    have hLe := Finset.card_le_card hPasses.idle_subset
    exact Prod.Lex.right' _ hLe (Node.weight_lt_of_calls h)
  | require h hPasses hFound =>
    refine Prod.Lex.left _ _ (Finset.card_lt_card ?_)
    exact (Program.finds_of_resolve hFound).idle_ssubset.trans_subset hPasses.idle_subset

/-- Code has a run if its calls and the files it asks for have. -/
theorem exists_runs {file : Option SourcePath} {α : Type} {p : Program} (c : Code α)
    (hCalls : ∀ m, c.Calls m → ∀ st : NormalState, p.Passes st.program →
      ∃ moves result, Runs file (.transform m) st moves result)
    (hFiles : ∀ path, c.Asks path → ∀ (q r : Program) (target : Location) (root : Node),
      p.Passes q → q.resolve (q.names.text path) file = (.ok (some ⟨target, root⟩), r) →
      ∃ moves result, Runs (some (.ofLocation target)) (.transform root) ⟨r, .empty⟩ moves result) :
    ∀ st : NormalState, p.Passes st.program → ∃ moves result, Runs file c st moves result := by
  induction c with
  | pure a => exact fun st _ => ⟨_, _, .pure a st⟩
  | act a => exact fun st _ => ⟨_, _, .act a st⟩
  | bind c f ih ihNext =>
    intro st hPasses
    obtain ⟨moves, result, h⟩ := ih (fun m hm => hCalls m (.inl hm))
      (fun path hPath => hFiles path (.inl hPath)) st hPasses
    cases result with
    | error e st' => exact ⟨_, _, .bind_error h⟩
    | ok a st' =>
      obtain ⟨moves', result, hNext⟩ := ihNext a (fun m hm => hCalls m (.inr ⟨a, hm⟩))
        (fun path hPath => hFiles path (.inr ⟨a, hPath⟩)) st' (hPasses.trans h.passes)
      exact ⟨_, _, .bind h hNext⟩
  | transform n => exact fun st hPasses => hCalls n rfl st hPasses
  | apart params n =>
    intro st hPasses
    obtain ⟨moves, result, h⟩ := hCalls n rfl ⟨st.program, Scope.ofParams params⟩ hPasses
    cases result with
    | ok o st' => exact ⟨_, _, .apart h⟩
    | error e st' => exact ⟨_, _, .apart_error h⟩
  | require s path =>
    intro st hPasses
    cases hResolve : st.program.resolve (st.program.names.text path) file with
    | mk found program =>
      obtain _ | _ | ⟨target, root⟩ := found
      · exact ⟨_, _, .refused hResolve⟩
      · exact ⟨_, _, .loaded hResolve⟩
      · obtain ⟨moves, result, h⟩ := hFiles path rfl st.program program target root hPasses hResolve
        cases result with
        | ok o st' => exact ⟨_, _, .found hResolve h⟩
        | error e st' => exact ⟨_, _, .found_error hResolve h⟩

theorem exists_runs_transform (file : Option SourcePath) (n : Node) (st : NormalState) :
    ∃ moves result, Runs file (.transform n) st moves result := by
  obtain ⟨p, scope⟩ := st
  generalize hConfig : (p, n) = config
  induction config using recurs_wellFounded.induction generalizing file p n scope with
  | _ config ih =>
    subst hConfig
    have hCode : ∃ moves result, Runs file n.code ⟨p, scope⟩ moves result := by
      refine exists_runs n.code (fun m hm st hPasses => ?_)
        (fun path hPath q r target root hPasses hFound => ?_) ⟨p, scope⟩ (.refl p)
      · exact ih _ (.call hm hPasses) file m st.program st.scope rfl
      · exact ih _ (.require hPath hPasses hFound) _ root r .empty rfl
    obtain ⟨moves, result, h⟩ := hCode
    exact ⟨moves, result, .transform h⟩

/-- The one run of a tree, which is what the normalizer does with it. -/
theorem exists_runs_eq (file : Option SourcePath) (n : Node) (st : NormalState) :
    ∃ moves, Runs file (.transform n) st moves ((n.pending
      (answerRequire st.program.loader.files.length file)).run.run st) := by
  obtain ⟨moves, result, h⟩ := exists_runs_transform file n st
  rw [show result = _ from h.eq_denote st.program.fits_length] at h
  exact ⟨moves, h⟩

/-- Normalization terminates. The trees that a call hands on are lighter, whether they are parts
or what sugar stands for; a require that yields a tree leaves fewer files idle; so the recursion
is well founded, and from every state each tree has exactly one run, which is what the normalizer
does however the trees of the files require each other. -/
theorem normalization_terminates :
    (∀ n m : Node, n.code.Calls m → m.weight < n.weight) ∧
    (∀ n m : Node, n.Means m → m.weight < n.weight) ∧
    (∀ (p q : Program) (requested : String) (requestedFrom : Option SourcePath)
      (found : RequiredFile), p.resolve requested requestedFrom = (.ok (some found), q) →
      q.idle ⊂ p.idle) ∧
    WellFounded Recurs ∧
    ∀ (file : Option SourcePath) (n : Node) (st : NormalState), ∃ moves result,
      Runs file (.transform n) st moves result ∧
      (∀ moves' result', Runs file (.transform n) st moves' result' →
        moves' = moves ∧ result' = result) ∧
      result = (n.pending (answerRequire st.program.loader.files.length file)).run.run st := by
  refine ⟨fun n m h => Node.weight_lt_of_calls h, fun n m h => h.weight_lt,
    fun p q requested requestedFrom found h => (Program.finds_of_resolve h).idle_ssubset,
    recurs_wellFounded, fun file n st => ?_⟩
  obtain ⟨moves, h⟩ := exists_runs_eq file n st
  exact ⟨moves, _, h, fun _ _ h' => h.unique h', rfl⟩

end CoreTree

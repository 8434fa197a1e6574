import CoreTree.Proofs.Requires.Failure
import CoreTree.Proofs.Runs.Unfold

/-! # Runs

How a run of code goes, with the runs of the calls in it, what is kept of it and what comes of
it. A run is a finite derivation, and nothing bounds how deep its calls nest, so to have a run is
to terminate. The code of a tree runs to what normalizing the tree gives, at every depth at which
the files fit.
-/
namespace CoreTree
set_option autoImplicit false

/-- The file whose loading failed. Any other request was refused before. -/
def RequireError.attempts : RequireError → List Move
  | .load file _ => [.load file]
  | .notFound .. | .circular _ => []

/-- `file` is the file that the code stands in. -/
inductive Runs : Option SourcePath → {α : Type} → Code α → NormalState → List Move →
    EStateM.Result NormalizeError NormalState α → Prop where
  | pure {file : Option SourcePath} {α : Type} (a : α) (st : NormalState) :
    Runs file (.pure a) st [] (.ok a st)
  | act {file : Option SourcePath} {α : Type} (a : Act α) (st : NormalState) :
    Runs file (.act a) st (a.moves st) (a.run.run st)
  | bind {file : Option SourcePath} {α β : Type} {c : Code α} {f : α → Code β}
    {st st' : NormalState} {a : α} {moves moves' : List Move}
    {result : EStateM.Result NormalizeError NormalState β} (h : Runs file c st moves (.ok a st'))
    (hNext : Runs file (f a) st' moves' result) :
    Runs file (.bind c f) st (moves ++ moves') result
  | bind_error {file : Option SourcePath} {α β : Type} {c : Code α} {f : α → Code β}
    {st st' : NormalState} {e : NormalizeError} {moves : List Move}
    (h : Runs file c st moves (.error e st')) : Runs file (.bind c f) st moves (.error e st')
  | transform {file : Option SourcePath} {n : Node} {st : NormalState} {moves : List Move}
    {result : EStateM.Result NormalizeError NormalState Outcome}
    (h : Runs file n.code st moves result) : Runs file (.transform n) st moves result
  | apart {file : Option SourcePath} {params : List Symbol} {n : Node} {st st' : NormalState}
    {moves : List Move} {o : Outcome}
    (h : Runs file (.transform n) ⟨st.program, Scope.ofParams params⟩ moves (.ok o st')) :
    Runs file (.apart params n) st [.apart n moves (some o.node)]
      (.ok o.node ⟨st'.program, st.scope⟩)
  | apart_error {file : Option SourcePath} {params : List Symbol} {n : Node} {st st' : NormalState}
    {moves : List Move} {e : NormalizeError}
    (h : Runs file (.transform n) ⟨st.program, Scope.ofParams params⟩ moves (.error e st')) :
    Runs file (.apart params n) st [.apart n moves none] (.error e st')
  | refused {file : Option SourcePath} {s : Span} {path : Symbol} {st : NormalState}
    {e : RequireError} {program : Program}
    (h : st.program.resolve (st.program.names.text path) file = (.error e, program)) :
    Runs file (.require s path) st e.attempts (.error (.require e) ⟨program, st.scope⟩)
  | loaded {file : Option SourcePath} {s : Span} {path : Symbol} {st : NormalState}
    {program : Program}
    (h : st.program.resolve (st.program.names.text path) file = (.ok none, program)) :
    Runs file (.require s path) st [] (.ok (.nop s) ⟨program, st.scope⟩)
  | found {file : Option SourcePath} {s : Span} {path : Symbol} {st st' : NormalState}
    {target : Location} {root : Node} {program : Program} {moves : List Move} {o : Outcome}
    (h : st.program.resolve (st.program.names.text path) file =
      (.ok (some ⟨target, root⟩), program))
    (hRoot : Runs (some (.ofLocation target)) (.transform root) ⟨program, .empty⟩ moves
      (.ok o st')) :
    Runs file (.require s path) st (.load target :: (moves ++ [.splice target]))
      (.ok o.node ⟨st'.program.finish target, st.scope⟩)
  | found_error {file : Option SourcePath} {s : Span} {path : Symbol} {st st' : NormalState}
    {target : Location} {root : Node} {program : Program} {moves : List Move} {e : NormalizeError}
    (h : st.program.resolve (st.program.names.text path) file =
      (.ok (some ⟨target, root⟩), program))
    (hRoot : Runs (some (.ofLocation target)) (.transform root) ⟨program, .empty⟩ moves
      (.error e st')) :
    Runs file (.require s path) st (.load target :: moves) (.error e st')

variable {file : Option SourcePath} {α : Type} {c : Code α} {st st' : NormalState}
  {moves moves' : List Move} {result result' : EStateM.Result NormalizeError NormalState α}

/-! ## Inversion -/

/-- All that a run of the code can be, by the form of the code. -/
def Code.CanRun (file : Option SourcePath) : {α : Type} → Code α → NormalState → List Move →
    EStateM.Result NormalizeError NormalState α → Prop
  | _, .pure a, st, moves, result => moves = [] ∧ result = .ok a st
  | _, .act a, st, moves, result => moves = a.moves st ∧ result = a.run.run st
  | _, .bind c f, st, moves, result =>
    (∃ a st' first rest, Runs file c st first (.ok a st') ∧ Runs file (f a) st' rest result ∧
      moves = first ++ rest) ∨
    ∃ e st', Runs file c st moves (.error e st') ∧ result = .error e st'
  | _, .transform n, st, moves, result => Runs file n.code st moves result
  | _, .apart params n, st, moves, result =>
    ∃ inner r, Runs file (.transform n) ⟨st.program, Scope.ofParams params⟩ inner r ∧
      match r with
      | .ok o st' => moves = [.apart n inner (some o.node)] ∧
        result = .ok o.node ⟨st'.program, st.scope⟩
      | .error e st' => moves = [.apart n inner none] ∧ result = .error e st'
  | _, .require s path, st, moves, result =>
    match st.program.resolve (st.program.names.text path) file with
    | (.error e, program) => moves = e.attempts ∧ result = .error (.require e) ⟨program, st.scope⟩
    | (.ok none, program) => moves = [] ∧ result = .ok (.nop s) ⟨program, st.scope⟩
    | (.ok (some ⟨target, root⟩), program) =>
      ∃ inner r, Runs (some (.ofLocation target)) (.transform root) ⟨program, .empty⟩ inner r ∧
        match r with
        | .ok o st' => moves = .load target :: (inner ++ [.splice target]) ∧
          result = .ok o.node ⟨st'.program.finish target, st.scope⟩
        | .error e st' => moves = .load target :: inner ∧ result = .error e st'

theorem Runs.canRun (h : Runs file c st moves result) : c.CanRun file st moves result := by
  cases h with
  | pure => exact ⟨rfl, rfl⟩
  | act => exact ⟨rfl, rfl⟩
  | bind h hNext => exact .inl ⟨_, _, _, _, h, hNext, rfl⟩
  | bind_error h => exact .inr ⟨_, _, h, rfl⟩
  | transform h => exact h
  | apart h | apart_error h => exact ⟨_, _, h, rfl, rfl⟩
  | refused h | loaded h => simp [Code.CanRun, h]
  | found h hRoot | found_error h hRoot =>
    simp only [Code.CanRun, h]
    exact ⟨_, _, hRoot, rfl, rfl⟩

theorem Runs.unique (h : Runs file c st moves result) (h' : Runs file c st moves' result') :
    moves' = moves ∧ result' = result := by
  induction h generalizing moves' with
  | pure | act => exact h'.canRun
  | bind _ _ ih ihNext =>
    obtain ⟨a, st', first, rest, h, hNext, rfl⟩ | ⟨e, st', h, rfl⟩ := h'.canRun
    · obtain ⟨rfl, hEq⟩ := ih h
      cases hEq
      obtain ⟨rfl, rfl⟩ := ihNext hNext
      exact ⟨rfl, rfl⟩
    · cases (ih h).2
  | bind_error _ ih =>
    obtain ⟨a, st', first, rest, h, hNext, rfl⟩ | ⟨e, st', h, rfl⟩ := h'.canRun
    · cases (ih h).2
    · obtain ⟨rfl, hEq⟩ := ih h
      cases hEq
      exact ⟨rfl, rfl⟩
  | transform _ ih => exact ih h'.canRun
  | apart _ ih =>
    obtain ⟨inner, r, h, hEnd⟩ := h'.canRun
    obtain ⟨rfl, rfl⟩ := ih h
    exact hEnd
  | apart_error _ ih =>
    obtain ⟨inner, r, h, hEnd⟩ := h'.canRun
    obtain ⟨rfl, rfl⟩ := ih h
    exact hEnd
  | refused h | loaded h =>
    have hRun := h'.canRun
    simp only [Code.CanRun, h] at hRun
    exact hRun
  | found h _ ih | found_error h _ ih =>
    have hRun := h'.canRun
    simp only [Code.CanRun, h] at hRun
    obtain ⟨inner, r, hRoot, hEnd⟩ := hRun
    obtain ⟨rfl, rfl⟩ := ih hRoot
    exact hEnd

/-! ## The program along a run -/

/-- Files may have been loaded to the end, and otherwise the files are as they were. -/
structure Program.Passes (p q : Program) : Prop where
  loader : q.loader = p.loader
  searchPaths : q.searchPaths = p.searchPaths
  inFlight : q.requires.inFlight = p.requires.inFlight
  loaded : ∀ f ∈ p.requires.loaded, f ∈ q.requires.loaded

namespace Program

variable {p q r : Program}

theorem Passes.refl (p : Program) : p.Passes p := ⟨rfl, rfl, rfl, fun _ h => h⟩

theorem Extends.passes (h : p.Extends q) : p.Passes q :=
  ⟨h.loader, h.searchPaths, by rw [h.requires], fun f hf => by rwa [h.requires]⟩

theorem Passes.trans (h : p.Passes q) (h' : q.Passes r) : p.Passes r where
  loader := h'.loader.trans h.loader
  searchPaths := h'.searchPaths.trans h.searchPaths
  inFlight := h'.inFlight.trans h.inFlight
  loaded f hf := h'.loaded f (h.loaded f hf)

theorem Fits.passes {depth : Nat} (h : p.Fits depth) (hPasses : p.Passes q) : q.Fits depth := by
  unfold Fits
  rw [hPasses.loader, hPasses.inFlight]
  exact h

/-- A file that a request puts in flight was idle and new, and is known under this location. -/
structure Finds (p : Program) (file : Location) (root : Node) (q : Program) : Prop where
  normal : file.normal = file
  idle : file ∉ p.requires.inFlight
  fresh : file ∉ p.requires.loaded
  loads : ∃ content, p.loader.content? file = some content ∧
    p.loader.load p.names content = (.ok root, q.names)
  requires : q.requires = ⟨p.requires.inFlight ++ [file], p.requires.loaded⟩
  loader : q.loader = p.loader
  searchPaths : q.searchPaths = p.searchPaths

theorem finds_of_resolve {requested : String} {requestedFrom : Option SourcePath}
    {file : Location} {root : Node}
    (h : p.resolve requested requestedFrom = (.ok (some ⟨file, root⟩), q)) :
    p.Finds file root q := by
  have hResolves := p.resolves requested requestedFrom
  rw [h] at hResolves
  cases hResolves with
  | found hNormal hContent hLoad hIdle hNew =>
    exact ⟨hNormal, hIdle, hNew, ⟨_, hContent, hLoad⟩, rfl, rfl, rfl⟩

theorem eq_of_resolve_none {requested : String} {requestedFrom : Option SourcePath}
    (h : p.resolve requested requestedFrom = (.ok none, q)) : q = p := by
  have hResolves := p.resolves requested requestedFrom
  rw [h] at hResolves
  cases hResolves
  rfl

/-- To finish the file that was found leaves in flight what was in flight before. -/
theorem Finds.passes {file : Location} {root : Node} (h : p.Finds file root q)
    (h' : q.Passes r) : p.Passes (r.finish file) where
  loader := h'.loader.trans h.loader
  searchPaths := h'.searchPaths.trans h.searchPaths
  inFlight := by
    show r.requires.inFlight.erase file.normal = _
    rw [h'.inFlight, h.requires, h.normal, List.erase_append_right _ h.idle]
    simp
  loaded f hf := List.mem_insert_of_mem (h'.loaded f (by rwa [h.requires]))

theorem Finds.fits {depth : Nat} {file : Location} {root : Node} (h : p.Finds file root q)
    (hFits : p.Fits depth) : ∃ d, depth = d + 1 ∧ q.Fits d := by
  obtain ⟨content, hContent, -⟩ := h.loads
  obtain ⟨d, hDepth, hRoom⟩ := hFits.putInFlight hContent h.idle
  exact ⟨d, hDepth, hRoom q h.loader (by rw [h.requires])⟩

end Program

theorem Act.extends_of_ok {a : Act α} {x : α} (h : a.run.run st = .ok x st') :
    st.program.Extends st'.program := by
  cases a with
  | getScope | setScope | noteBridges | noteParams =>
    cases h
    exact .refl _
  | write v =>
    cases h
    exact .refl _
  | read s v =>
    rw [Act.run_read] at h
    cases hRead : st.scope.readVersion? v.name with
    | some version =>
      rw [hRead] at h
      cases h
      exact .refl _
    | none =>
      rw [hRead] at h
      cases h
  | allocate act hAct =>
    obtain ⟨b, q, hExtends, hRun⟩ := hAct st.program
    rw [Act.run, hRun st.scope] at h
    cases h
    exact hExtends

theorem Runs.passes_of_eq_ok (h : Runs file c st moves result) :
    ∀ a st', result = .ok a st' → st.program.Passes st'.program := by
  induction h with
  | pure =>
    rintro a st' ⟨⟩
    exact .refl _
  | act => exact fun a st' hOk => (Act.extends_of_ok hOk).passes
  | bind _ _ ih ihNext => exact fun b st'' hOk => (ih _ _ rfl).trans (ihNext b st'' hOk)
  | transform _ ih => exact ih
  | apart _ ih =>
    rintro a st'' ⟨⟩
    have hInner := ih _ _ rfl
    exact hInner
  | loaded h =>
    rintro a st' ⟨⟩
    rw [Program.eq_of_resolve_none h]
    exact .refl _
  | found h _ ih =>
    rintro a st' ⟨⟩
    exact (Program.finds_of_resolve h).passes (ih _ _ rfl)
  | bind_error | apart_error | refused | found_error => exact nofun

theorem Runs.passes {a : α} (h : Runs file c st moves (.ok a st')) :
    st.program.Passes st'.program :=
  h.passes_of_eq_ok a st' rfl

/-! ## Runs and the normalizer -/

theorem run_node_of_ok {p : Pending} {st st' : NormalState} {o : Outcome}
    (h : p.run.run st = .ok o st') : p.node.run st = .ok o.node st' := by
  rw [Pending.node, EStateM.run_bind, h]
  rfl

theorem run_node_of_error {p : Pending} {st st' : NormalState} {e : NormalizeError}
    (h : p.run.run st = .error e st') : p.node.run st = .error e st' := by
  rw [Pending.node, EStateM.run_bind, h]

theorem run_answerRequire_of_none {depth : Nat} {s : Span} {path : Symbol} {program : Program}
    (h : st.program.resolve (st.program.names.text path) file = (.ok none, program)) :
    (answerRequire depth file s path).run st = .ok (.nop s) ⟨program, st.scope⟩ := by
  cases depth <;> rw [answerRequire, EStateM.run_bind, run_resolveRequire, h] <;> rfl

theorem run_answerRequire_of_error {depth : Nat} {s : Span} {path : Symbol} {program : Program}
    {e : RequireError}
    (h : st.program.resolve (st.program.names.text path) file = (.error e, program)) :
    (answerRequire depth file s path).run st = .error (.require e) ⟨program, st.scope⟩ := by
  cases depth <;> rw [answerRequire, EStateM.run_bind, run_resolveRequire, h]

/-- The normalizer does what the code runs to, if all the files fit that may still nest. -/
theorem Runs.eq_denote (h : Runs file c st moves result) {depth : Nat}
    (hFits : st.program.Fits depth) : result = (c.denote (answerRequire depth file)).run st := by
  induction h generalizing depth with
  | pure | act => rfl
  | bind h _ ih ihNext =>
    rw [Code.denote, EStateM.run_bind, ← ih hFits]
    exact ihNext (hFits.passes h.passes)
  | bind_error _ ih => rw [Code.denote, EStateM.run_bind, ← ih hFits]
  | transform _ ih =>
    rw [Code.denote, ← Node.denote_code]
    exact ih hFits
  | apart _ ih => rw [Code.denote, Norm.run_inScope, run_node_of_ok (ih hFits).symm]
  | apart_error _ ih => rw [Code.denote, Norm.run_inScope, run_node_of_error (ih hFits).symm]
  | refused h => rw [Code.denote, run_answerRequire_of_error h]
  | loaded h => rw [Code.denote, run_answerRequire_of_none h]
  | found h _ ih =>
    obtain ⟨d, rfl, hRoom⟩ := (Program.finds_of_resolve h).fits hFits
    rw [Code.denote, run_answerRequire, h]
    dsimp only
    rw [run_node_of_ok (ih hRoom).symm]
  | found_error h _ ih =>
    obtain ⟨d, rfl, hRoom⟩ := (Program.finds_of_resolve h).fits hFits
    rw [Code.denote, run_answerRequire, h]
    dsimp only
    rw [run_node_of_error (ih hRoom).symm]

end CoreTree

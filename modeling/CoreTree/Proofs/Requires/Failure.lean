import CoreTree.Proofs.Requires.Answers

/-! # Files in flight after a failure

A tree that normalizes leaves the same files in flight as before. One that fails leaves every
required file in flight that the error went through, from the outermost to the one that it came
from, and the main file counts as loaded all the same. Of the other files, those are loaded that
were normalized to the end.
-/
namespace CoreTree
set_option autoImplicit false

/-- The file's own tree was normalized, in a scope of its own and as the innermost file in
flight, and this came of it. -/
inductive Loader.Normalized (files : Loader) (file : Location) :
    EStateM.Result NormalizeError NormalState Node → Prop where
  | intro {content : Content} {names names' : SymbolTable} {root : Node} {p : Program} (depth : Nat)
    (hContent : files.content? file = some content)
    (hLoad : files.load names content = (.ok root, names')) (hLoader : p.loader = files)
    (hInFlight : p.requires.inFlight.getLast? = some file) :
    files.Normalized file
      ((root.pending (answerRequire depth (some (.ofLocation file)))).node.run ⟨p, .empty⟩)

namespace Program

variable {p q r : Program} {e : NormalizeError}

/-- Files have been loaded, each of them normalized to the end. None was in flight before. -/
structure Loads (p q : Program) : Prop where
  loader : q.loader = p.loader
  kept : ∀ f ∈ p.requires.loaded, f ∈ q.requires.loaded
  loaded : ∀ f ∈ q.requires.loaded, f ∈ p.requires.loaded ∨
    f ∉ p.requires.inFlight ∧ ∃ n st, p.loader.Normalized f (.ok n st)

structure Settles (p q : Program) : Prop extends p.Loads q where
  inFlight : q.requires.inFlight = p.requires.inFlight

/-- The error `e` came through files that are in flight since then, the outermost first. -/
structure Breaks (e : NormalizeError) (p q : Program) : Prop extends p.Loads q where
  inFlight : ∃ stuck, q.requires.inFlight = p.requires.inFlight ++ stuck ∧
    ∀ f ∈ stuck, f ∉ p.requires.inFlight ∧ f ∉ q.requires.loaded ∧
      ∃ st, p.loader.Normalized f (.error e st)

theorem loads_of_eq (hRequires : q.requires = p.requires) (hLoader : q.loader = p.loader) :
    p.Loads q :=
  ⟨hLoader, fun _ hf => hRequires ▸ hf, fun _ hf => .inl (hRequires ▸ hf)⟩

theorem settles_of_eq (hRequires : q.requires = p.requires) (hLoader : q.loader = p.loader) :
    p.Settles q :=
  ⟨loads_of_eq hRequires hLoader, by rw [hRequires]⟩

theorem breaks_of_eq (hRequires : q.requires = p.requires) (hLoader : q.loader = p.loader) :
    Breaks e p q :=
  ⟨loads_of_eq hRequires hLoader, [], by simp [hRequires], nofun⟩

theorem Loads.after (h : p.Settles q) (h' : q.Loads r) : p.Loads r where
  loader := h'.loader.trans h.loader
  kept f hf := h'.kept f (h.kept f hf)
  loaded f hf := by
    rcases h'.loaded f hf with hf | ⟨hIdle, hNormalized⟩
    · exact h.loaded f hf
    · rw [h.inFlight] at hIdle
      rw [h.loader] at hNormalized
      exact .inr ⟨hIdle, hNormalized⟩

theorem Settles.trans (h : p.Settles q) (h' : q.Settles r) : p.Settles r :=
  ⟨h'.toLoads.after h, h'.inFlight.trans h.inFlight⟩

theorem Breaks.after (h : p.Settles q) (h' : Breaks e q r) : Breaks e p r := by
  obtain ⟨hLoads, stuck, hInFlight, hStuck⟩ := h'
  rw [h.inFlight] at hInFlight hStuck
  rw [h.loader] at hStuck
  exact ⟨hLoads.after h, stuck, hInFlight, hStuck⟩

/-! ## One file -/

/-- No more files that the loader knows are idle than files may nest. -/
def Fits (depth : Nat) (p : Program) : Prop :=
  p.loader.files.countP (fun entry => entry.1 ∉ p.requires.inFlight) ≤ depth

theorem Fits.settles {depth : Nat} (h : p.Fits depth) (hSettles : p.Settles q) : q.Fits depth := by
  unfold Fits
  rw [hSettles.loader, hSettles.inFlight]
  exact h

/-- A known file that was idle leaves room for one level less. -/
theorem Fits.putInFlight {depth : Nat} {file : Location} {content : Content} (h : p.Fits depth)
    (hContent : p.loader.content? file = some content) (hIdle : file ∉ p.requires.inFlight) :
    ∃ d, depth = d + 1 ∧ ∀ q : Program, q.loader = p.loader →
      q.requires.inFlight = p.requires.inFlight ++ [file] → q.Fits d := by
  obtain ⟨before, after, hFiles, -⟩ := List.lookup_eq_some_iff.mp hContent
  have hLe : ∀ l : List (Location × Content),
      l.countP (fun entry => entry.1 ∉ p.requires.inFlight ++ [file]) ≤
        l.countP (fun entry => entry.1 ∉ p.requires.inFlight) := fun l =>
    List.countP_mono_left fun entry _ hEntry => by simp_all
  have hBefore := hLe before
  have hAfter := hLe after
  have hNow : decide (file ∉ p.requires.inFlight) = true := by simpa using hIdle
  have hThen : decide (file ∉ p.requires.inFlight ++ [file]) = false := by simp
  rw [Fits, hFiles, List.countP_append, List.countP_cons, hNow, if_pos rfl] at h
  refine ⟨depth - 1, by omega, fun q hLoader hInFlight => ?_⟩
  rw [Fits, hLoader, hInFlight, hFiles, List.countP_append, List.countP_cons, hThen,
    if_neg Bool.false_ne_true]
  omega

/-- A file was put in flight, and nothing else has happened. -/
structure Starts (p : Program) (file : Location) (q : Program) : Prop where
  requires : q.requires = ⟨p.requires.inFlight ++ [file], p.requires.loaded⟩
  loader : q.loader = p.loader
  idle : file ∉ p.requires.inFlight

variable {file : Location}

theorem Starts.loads (h : p.Starts file q) (h' : q.Loads r) : p.Loads r where
  loader := h'.loader.trans h.loader
  kept f hf := h'.kept f (by rwa [h.requires])
  loaded f hf := by
    obtain hf | ⟨hIdle, hNormalized⟩ := h'.loaded f hf
    · rw [h.requires] at hf
      exact .inl hf
    · rw [h.requires] at hIdle
      rw [h.loader] at hNormalized
      exact .inr ⟨fun hf => hIdle (List.mem_append_left _ hf), hNormalized⟩

/-- The file that was put in flight is finished and loaded. -/
theorem Starts.settles (h : p.Starts file q) (h' : q.Settles r) (hNormal : file.normal = file)
    (hNormalized : ∃ n st, p.loader.Normalized file (.ok n st)) : p.Settles (r.finish file) := by
  obtain ⟨hLoader, hKept, hLoaded⟩ := h.loads h'.toLoads
  refine ⟨⟨hLoader, fun f hf => ?_, fun f hf => ?_⟩, ?_⟩
  · exact List.mem_insert_of_mem (hKept f hf)
  · obtain rfl | hf := List.mem_insert_iff.mp hf
    · rw [hNormal]
      exact .inr ⟨h.idle, hNormalized⟩
    · exact hLoaded f hf
  · show r.requires.inFlight.erase file.normal = _
    rw [h'.inFlight, h.requires, hNormal, List.erase_append_right _ h.idle]
    simp

/-- The file that was put in flight stays there. -/
theorem Starts.breaks (h : p.Starts file q) (h' : Breaks e q r) (hNew : file ∉ p.requires.loaded)
    (hNormalized : ∃ st, p.loader.Normalized file (.error e st)) : Breaks e p r := by
  obtain ⟨hLoads, stuck, hInFlight, hStuck⟩ := h'
  have hFile : file ∉ r.requires.loaded := by
    intro hFile
    obtain hFile | ⟨hIdle, -⟩ := hLoads.loaded file hFile
    · rw [h.requires] at hFile
      exact hNew hFile
    · rw [h.requires] at hIdle
      exact hIdle (List.mem_append_right _ (.head _))
  rw [h.requires, List.append_assoc] at hInFlight
  rw [h.requires, h.loader] at hStuck
  refine ⟨h.loads hLoads, file :: stuck, hInFlight, List.forall_mem_cons.mpr ⟨?_, fun f hf => ?_⟩⟩
  · exact ⟨h.idle, hFile, hNormalized⟩
  · obtain ⟨hIdle, hRest⟩ := hStuck f hf
    exact ⟨fun hMem => hIdle (List.mem_append_left _ hMem), hRest⟩

/-- The file that was put in flight is finished for all that, and what is left is not loaded. -/
theorem Starts.finish (h : p.Starts file.normal q) (h' : Breaks e q r) :
    ∃ stuck, (r.finish file).requires.inFlight = p.requires.inFlight ++ stuck ∧
      ∀ f ∈ stuck, f ∉ (r.finish file).requires.loaded ∧
        ∃ st, p.loader.Normalized f (.error e st) := by
  obtain ⟨-, stuck, hInFlight, hStuck⟩ := h'
  rw [h.requires] at hInFlight hStuck
  rw [h.loader] at hStuck
  refine ⟨stuck, ?_, fun f hf => ?_⟩
  · show r.requires.inFlight.erase file.normal = _
    rw [hInFlight, List.append_assoc, List.erase_append_right _ h.idle]
    simp
  · obtain ⟨hOther, hNew, hNormalized⟩ := hStuck f hf
    refine ⟨fun hMem => ?_, hNormalized⟩
    obtain rfl | hMem := List.mem_insert_iff.mp hMem
    · exact hOther (List.mem_append_right _ (.head _))
    · exact hNew hMem

/-! ## Requires -/

def SettlesAt (depth : Nat) (p q : Program) : Prop := p.Fits depth → p.Settles q

def BreaksAt (depth : Nat) (e : NormalizeError) (p q : Program) : Prop :=
  p.Fits depth → Breaks e p q

end Program

open Program

theorem Norm.MadeOf.tracks {α : Type} {act : Norm α} {answer : RequireHandler} {depth : Nat}
    (h : act.MadeOf answer)
    (hAnswer : ∀ s path, (answer s path).Effects (SettlesAt depth) (BreaksAt depth)) :
    act.Effects (SettlesAt depth) (BreaksAt depth) := by
  apply h.effects
  · exact fun p q h _ => settles_of_eq h.requires h.loader
  · exact fun p q r h h' hFits => (h hFits).trans (h' (hFits.settles (h hFits)))
  · exact fun e p q r h h' hFits => (h' (hFits.settles (h hFits))).after (h hFits)
  · exact fun name s p _ => breaks_of_eq rfl rfl
  · exact hAnswer

/-- Files nest no deeper than `depth`, because each one was idle before and is known. -/
theorem tracks_answerRequire (depth : Nat) (file : Option SourcePath) (s : Span) (path : Symbol) :
    (answerRequire depth file s path).Effects (SettlesAt depth) (BreaksAt depth) := by
  induction depth generalizing file s path with
  | zero =>
    intro st
    obtain ⟨found, program, hResolve, hResolves⟩ :=
      st.program.exists_resolves (st.program.names.text path) file
    rw [answerRequire, EStateM.run_bind, run_resolveRequire, hResolve]
    cases hResolves with
    | refused hRequires hLoader => exact fun _ => breaks_of_eq hRequires hLoader
    | loaded => exact fun _ => settles_of_eq rfl rfl
    | found hNormal hContent hLoad hIdle hNew =>
      -- there is no room for one more file
      intro hFits
      obtain ⟨_, hDepth, _⟩ := hFits.putInFlight hContent hIdle
      cases hDepth
  | succ depth ih =>
    intro st
    obtain ⟨found, program, hResolve, hResolves⟩ :=
      st.program.exists_resolves (st.program.names.text path) file
    rw [run_answerRequire, hResolve]
    cases hResolves with
    | refused hRequires hLoader => exact fun _ => breaks_of_eq hRequires hLoader
    | loaded => exact fun _ => settles_of_eq rfl rfl
    | @found file content root names hNormal hContent hLoad hIdle hNew =>
      generalize hProgram : (⟨names, _, _, _, _, _, _⟩ : Program) = started
      have hStarts : st.program.Starts file started := by
        subst hProgram
        exact ⟨rfl, rfl, hIdle⟩
      have hNormalized := Loader.Normalized.intro (p := started) depth hContent hLoad hStarts.loader
        (by rw [hStarts.requires, List.getLast?_concat])
      have hInner := (Node.madeOf_pending _ root).node.tracks
        (ih (some (.ofLocation file))) ⟨started, .empty⟩
      have hRoom : st.program.Fits (depth + 1) → started.Fits depth := by
        intro hFits
        obtain ⟨d, hDepth, hRoom⟩ := hFits.putInFlight hContent hIdle
        obtain rfl : depth = d := by omega
        exact hRoom started hStarts.loader (by rw [hStarts.requires])
      dsimp only
      generalize (root.pending (answerRequire depth (some (.ofLocation file)))).node.run
        ⟨started, .empty⟩ = inner at hNormalized hInner
      cases inner with
      | ok n st' =>
        exact fun hFits => hStarts.settles (hInner (hRoom hFits)) hNormal ⟨n, st', hNormalized⟩
      | error e st' =>
        exact fun hFits => hStarts.breaks (hInner (hRoom hFits)) hNew ⟨st', hNormalized⟩

/-! ## The main file -/

theorem Program.fits_length (p : Program) : p.Fits p.loader.files.length := List.countP_le_length

/-- A tree that is not normalized for an error of its own or of a file that it requires. -/
theorem Program.breaks_of_normalize {p p' : Program} {file : Option SourcePath} {root : Node}
    {e : NormalizeError} (h : p.normalize file root = (.error (.error e), p')) :
    Breaks e p p' := by
  have hTracks := (Node.madeOf_pending _ root).node.tracks
    (tracks_answerRequire p.loader.files.length file) ⟨p, .empty⟩
  unfold normalize at h
  unfold EStateM.run at hTracks
  cases hRun : (root.pending (answerRequire p.loader.files.length file)).node ⟨p, .empty⟩ with
  | error e' st =>
    rw [hRun] at h hTracks
    cases h
    exact hTracks p.fits_length
  | ok n st =>
    rw [hRun] at h
    dsimp only at h
    split at h <;> cases h

theorem Program.resolve_of_inFlight {p : Program} {requested : String}
    {requestedFrom : Option SourcePath} {file : Location} {content : Content}
    (hFind : p.find? requested requestedFrom = some (file, content))
    (hInFlight : file ∈ p.requires.inFlight) (hNew : file ∉ p.requires.loaded) :
    p.resolve requested requestedFrom =
      (.error (.circular (p.requires.inFlight ++ [file])), p) := by
  have hStart := Tracker.start_eq_error_iff.mpr ⟨hInFlight, rfl⟩
  simp [resolve, hFind, Tracker.isLoaded, hNew, hStart]

theorem Program.resolve_of_loaded {p : Program} {requested : String}
    {requestedFrom : Option SourcePath} {file : Location} {content : Content}
    (hFind : p.find? requested requestedFrom = some (file, content))
    (hLoaded : file ∈ p.requires.loaded) : p.resolve requested requestedFrom = (.ok none, p) := by
  simp [resolve, hFind, Tracker.isLoaded, hLoaded]

/-- If the main file fails, either it was in flight already and nothing has happened, or the files
that the error went through stay in flight, and it counts as loaded itself. A later request for one
of the former is refused as a cycle, and a later request for the latter is answered with nothing.
No other file stays in flight, and every other file that was loaded was normalized to the end. -/
theorem Program.tracking_after_failure {p p' : Program} {main : SourcePath} {root : Node}
    {e : NormalizeError} (h : p.normalizeFile main root = (.error (.error e), p')) :
    (main.location.normal ∈ p.requires.inFlight ∧
      e = .require (.circular (p.requires.inFlight ++ [main.location.normal])) ∧ p' = p) ∨
    ∃ stuck, p'.requires.inFlight = p.requires.inFlight ++ stuck ∧
      (∀ f ∈ stuck, (∃ st, p.loader.Normalized f (.error e st)) ∧
        ∀ requested requestedFrom content,
          p'.find? requested requestedFrom = some (f, content) →
          p'.resolve requested requestedFrom =
            (.error (.circular (p'.requires.inFlight ++ [f])), p')) ∧
      (∀ requested requestedFrom content,
        p'.find? requested requestedFrom = some (main.location.normal, content) →
        p'.resolve requested requestedFrom = (.ok none, p')) ∧
      (∀ f ∈ p.requires.loaded, f ∈ p'.requires.loaded) ∧
      ∀ f ∈ p'.requires.loaded, f ∈ p.requires.loaded ∨ f = main.location.normal ∨
        ∃ n st, p.loader.Normalized f (.ok n st) := by
  unfold normalizeFile beginFile at h
  cases hStart : p.requires.start main.location.normal with
  | error err =>
    rw [hStart] at h
    cases h
    obtain ⟨hInFlight, rfl⟩ := Tracker.start_eq_error_iff.mp hStart
    exact .inl ⟨hInFlight, rfl, rfl⟩
  | ok requires =>
    right
    obtain ⟨hIdle, rfl⟩ := Tracker.start_eq_ok_iff.mp hStart
    rw [hStart] at h
    dsimp only [Except.map] at h
    generalize hStarted : ({ p with requires :=
      ⟨p.requires.inFlight ++ [main.location.normal], p.requires.loaded⟩ } : Program) = started at h
    have hStarts : p.Starts main.location.normal started := by
      subst hStarted
      exact ⟨rfl, rfl, hIdle⟩
    cases hResult : started.normalize (some main) root with
    | mk result q =>
      rw [hResult] at h
      split at h
      · cases h
      · rename_i hEq
        cases hEq
        cases h
        have hBreaks := Program.breaks_of_normalize hResult
        have hLoads := hStarts.loads hBreaks.toLoads
        obtain ⟨stuck, hInFlight, hStuck⟩ := hStarts.finish hBreaks
        refine ⟨stuck, hInFlight, fun f hf => ?_, fun _ _ _ hFind => ?_, fun f hf => ?_,
          fun f hf => ?_⟩
        · obtain ⟨hNew, hNormalized⟩ := hStuck f hf
          refine ⟨hNormalized, fun _ _ _ hFind => Program.resolve_of_inFlight hFind ?_ hNew⟩
          rw [hInFlight]
          exact List.mem_append_right _ hf
        · exact Program.resolve_of_loaded hFind (List.mem_insert_self)
        · exact List.mem_insert_of_mem (hLoads.kept f hf)
        · obtain hMain | hf := List.mem_insert_iff.mp hf
          · exact .inr (.inl hMain)
          · exact (hLoads.loaded f hf).imp_right fun h => .inr h.2

namespace Sample

def badFile : Location := ⟨[.name "bad.gar"]⟩

def mainFile : SourcePath := ⟨"main.gar", ⟨[.name "main.gar"]⟩⟩

/-- The file `bad.gar` reads a variable that nothing binds. -/
def failing : Program :=
  .init (SymbolTable.initial.intern "./bad").2
    (Loader.empty.addTree badFile (.var .nowhere ⟨⟨15⟩, 0, false⟩)) []

def requireBad : Node := .require .nowhere ⟨14⟩

theorem bad_file_tracked : ∃ e p', failing.normalizeFile mainFile requireBad =
      (.error (.error e), p') ∧
    ((mainFile.location.normal ∈ failing.requires.inFlight ∧
      e = .require (.circular (failing.requires.inFlight ++ [mainFile.location.normal])) ∧
      p' = failing) ∨
    ∃ stuck, p'.requires.inFlight = failing.requires.inFlight ++ stuck ∧
      (∀ f ∈ stuck, (∃ st, failing.loader.Normalized f (.error e st)) ∧
        ∀ requested requestedFrom content,
          p'.find? requested requestedFrom = some (f, content) →
          p'.resolve requested requestedFrom =
            (.error (.circular (p'.requires.inFlight ++ [f])), p')) ∧
      (∀ requested requestedFrom content,
        p'.find? requested requestedFrom = some (mainFile.location.normal, content) →
        p'.resolve requested requestedFrom = (.ok none, p')) ∧
      (∀ f ∈ failing.requires.loaded, f ∈ p'.requires.loaded) ∧
      ∀ f ∈ p'.requires.loaded, f ∈ failing.requires.loaded ∨ f = mainFile.location.normal ∨
        ∃ n st, failing.loader.Normalized f (.ok n st)) := by
  obtain ⟨e, p', h⟩ : ∃ e p', failing.normalizeFile mainFile requireBad =
      (.error (.error e), p') := ⟨_, _, rfl⟩
  exact ⟨e, p', h, Program.tracking_after_failure h⟩

/-- The tracker is not clean after a failure: nothing was in flight before, the required file is
now, a second attempt at it is refused as a cycle, and the main file counts as loaded. -/
theorem bad_file_stuck :
    let (result, p) := failing.normalizeFile mainFile requireBad
    result = .error (.error (.unbound "" .nowhere)) ∧ failing.requires.inFlight = [] ∧
      p.requires.inFlight = [badFile] ∧
      (p.resolve "./bad" (some mainFile)).1 = .error (.circular [badFile, badFile]) ∧
      failing.isLoaded mainFile.location = false ∧ p.isLoaded mainFile.location = true :=
  ⟨rfl, rfl, rfl, rfl, rfl, rfl⟩

end Sample

end CoreTree

import CoreTree.Proofs.Runs.Sugar
import CoreTree.Proofs.Runs.Termination
import Mathlib.Data.List.Chain
import Mathlib.Logic.Relation

/-! # Files along a run

The files in flight are those whose trees are being normalized, each of which requires the next
one. So no file is loaded twice, and a cycle that is reported is one: its files lead to each other
by their requires.
-/
namespace CoreTree
set_option autoImplicit false

/-! ## Loads and splices -/

mutual
/-- The move, or the moves that it stands for if a tree was normalized apart. -/
def Move.flat : Move → List Move
  | .apart _ moves _ => flatMoves moves
  | m => [m]
termination_by structural m => m

def flatMoves : List Move → List Move
  | [] => []
  | m :: ms => m.flat ++ flatMoves ms
termination_by structural ms => ms
end

theorem flatMoves_append (ms ms' : List Move) :
    flatMoves (ms ++ ms') = flatMoves ms ++ flatMoves ms' := by
  induction ms with
  | nil => rw [flatMoves]; rfl
  | cons m ms ih => simp only [List.cons_append, flatMoves, ih, List.append_assoc]

namespace Move

def loaded? : Move → Option Location
  | .load file => some file
  | _ => none

def spliced? : Move → Option Location
  | .splice file => some file
  | _ => none

/-- The files that were loaded, in order. -/
def loads (ms : List Move) : List Location := (flatMoves ms).filterMap loaded?

/-- The files whose normalized trees were spliced in, in order. -/
def splices (ms : List Move) : List Location := (flatMoves ms).filterMap spliced?

variable (ms ms' : List Move) (n : Node) (result : Option Node) (file : Location)

@[simp]
theorem loads_append : loads (ms ++ ms') = loads ms ++ loads ms' := by
  simp [loads, flatMoves_append]

@[simp]
theorem splices_append : splices (ms ++ ms') = splices ms ++ splices ms' := by
  simp [splices, flatMoves_append]

@[simp]
theorem loads_nil : loads [] = [] := by simp [loads, flatMoves]

@[simp]
theorem splices_nil : splices [] = [] := by simp [splices, flatMoves]

@[simp]
theorem loads_apart : loads [.apart n ms result] = loads ms := by simp [loads, flatMoves, flat]

@[simp]
theorem splices_apart : splices [.apart n ms result] = splices ms := by
  simp [splices, flatMoves, flat]

@[simp]
theorem loads_load : loads (.load file :: ms) = file :: loads ms := by
  simp [loads, flatMoves, flat, loaded?]

@[simp]
theorem splices_load : splices (.load file :: ms) = splices ms := by
  simp [splices, flatMoves, flat, spliced?, List.filterMap_cons]

@[simp]
theorem loads_splice : loads [.splice file] = [] := by simp [loads, flatMoves, flat, loaded?]

@[simp]
theorem splices_splice : splices [.splice file] = [file] := by
  simp [splices, flatMoves, flat, spliced?]

@[simp]
theorem loads_act {α : Type} (a : Act α) (st : NormalState) : loads (a.moves st) = [] := by
  cases a <;> simp [Act.moves, loads, flatMoves, flat, loaded?]

@[simp]
theorem splices_act {α : Type} (a : Act α) (st : NormalState) : splices (a.moves st) = [] := by
  cases a <;> simp [Act.moves, splices, flatMoves, flat, spliced?]

end Move

open Move

/-! ## The graph of requires -/

/-- The tree holds a `require` of this path. -/
def Node.Requests (n : Node) (path : Symbol) : Prop := ∃ s, n.Has (.require s path)

theorem Node.Requests.of_calls {n m : Node} {path : Symbol} (hCalls : n.code.Calls m)
    (h : m.Requests path) : n.Requests path := by
  obtain ⟨s, h⟩ := h
  have hAll : n.Everywhere true fun k => ∀ s path, k = .require s path → n.Requests path := by
    rintro _ hReaches s path rfl
    exact ⟨s, reaches_true_iff.mp hReaches⟩
  refine everywhere_of_calls ?_ hCalls (.inl rfl) hAll _ (reaches_true_iff.mpr h) s path rfl
  rintro _ hGlue s path rfl
  exact hGlue.elim

/-- Every entry is a tree. -/
def Loader.InMemory (l : Loader) : Prop :=
  ∀ file content, l.content? file = some content → ∃ root, content = .tree root

namespace Program

/-- A file that one of these requests leads to, if it is made in `file`. -/
def Leads (p : Program) (file : Option SourcePath) (paths : Symbol → Prop) (f : Location) : Prop :=
  ∃ path content, paths path ∧ p.find? (p.names.text path) file = some (f, content)

/-- A `require` in the tree of the first file leads to the second file. -/
def Requires (p : Program) (a b : Location) : Prop :=
  ∃ root, p.loader.content? a = some (.tree root) ∧
    p.Leads (some (.ofLocation a)) root.Requests b

/-- Every request in a tree of the loader is a string of the program. -/
def KnowsRequests (p : Program) : Prop :=
  ∀ file root path, p.loader.content? file = some (.tree root) → root.Requests path →
    (p.names.text? path).isSome

/-- The files are found in the same places, and what had a text has it still. -/
structure Since (p q : Program) : Prop where
  loader : q.loader = p.loader
  searchPaths : q.searchPaths = p.searchPaths
  names : ∀ x text, p.names.text? x = some text → q.names.text? x = some text

variable {p q r : Program}

theorem Since.extends (h : p.Since q) (h' : q.Extends r) : p.Since r where
  loader := h'.loader.trans h.loader
  searchPaths := h'.searchPaths.trans h.searchPaths
  names x text hText := h'.names x text (h.names x text hText)

theorem Since.text {path : Symbol} (h : p.Since q) (hKnown : (p.names.text? path).isSome) :
    q.names.text path = p.names.text path := by
  obtain ⟨text, hText⟩ := Option.isSome_iff_exists.mp hKnown
  rw [SymbolTable.text, SymbolTable.text, h.names path text hText, hText]

theorem Since.find? (h : p.Since q) (requested : String) (requestedFrom : Option SourcePath) :
    q.find? requested requestedFrom = p.find? requested requestedFrom := by
  rw [Program.find?, Program.find?, h.loader, h.searchPaths]

theorem Since.finish (h : p.Since q) (file : Location) : p.Since (q.finish file) :=
  ⟨h.loader, h.searchPaths, h.names⟩

theorem Finds.content {file : Location} {root : Node} (h : p.Finds file root q)
    (hMemory : p.loader.InMemory) :
    p.loader.content? file = some (.tree root) ∧ q.names = p.names := by
  obtain ⟨content, hContent, hLoad⟩ := h.loads
  obtain ⟨tree, rfl⟩ := hMemory file content hContent
  rw [Loader.load, Prod.mk.injEq, Except.ok.injEq] at hLoad
  exact ⟨hLoad.1 ▸ hContent, hLoad.2.symm⟩

theorem Since.finds {file : Location} {root : Node} (h : p.Since q) (h' : q.Finds file root r)
    (hMemory : p.loader.InMemory) : p.Since r := by
  obtain ⟨-, hNames⟩ := h'.content (h.loader.symm ▸ hMemory)
  exact ⟨h'.loader.trans h.loader, h'.searchPaths.trans h.searchPaths, hNames.symm ▸ h.names⟩

/-- The file that a request was answered with is one that the request leads to. -/
theorem find?_of_resolve {requested : String} {requestedFrom : Option SourcePath}
    {file : Location} {root : Node}
    (h : p.resolve requested requestedFrom = (.ok (some ⟨file, root⟩), q)) :
    ∃ content, p.find? requested requestedFrom = some (file, content) := by
  unfold resolve at h
  split at h
  · cases h
  · rename_i found content hFound
    split at h
    · cases h
    · split at h
      · cases h
      · split at h <;> cases h
        exact ⟨content, hFound⟩

/-- Of the files in memory a request is refused that is not found or whose file is in flight. -/
theorem refused_of_resolve {requested : String} {requestedFrom : Option SourcePath}
    {e : RequireError} (hMemory : p.loader.InMemory)
    (h : p.resolve requested requestedFrom = (.error e, q)) :
    e = .notFound requested requestedFrom ∨ ∃ file content,
      p.find? requested requestedFrom = some (file, content) ∧ file ∈ p.requires.inFlight ∧
        e = .circular (p.requires.inFlight ++ [file]) := by
  unfold resolve at h
  split at h
  · cases h
    exact .inl rfl
  · rename_i file content hFound
    split at h
    · cases h
    · split at h
      · rename_i hStart
        cases h
        obtain ⟨hInFlight, rfl⟩ := Tracker.start_eq_error_iff.mp hStart
        exact .inr ⟨file, content, hFound, hInFlight, rfl⟩
      · obtain ⟨root, rfl⟩ := hMemory file content (find?_eq_some hFound).2
        cases h

/-! ## Along a run -/

/-- Files in flight since `p`, each of which requires the next one. A request in `file` leads to
the first one, and the last one was in flight already. -/
structure Cycle (base p : Program) (file : Option SourcePath) (paths : Symbol → Prop)
    (stuck : List Location) (last : Location) : Prop where
  idle : ∀ f ∈ stuck, f ∉ p.requires.inFlight
  first : ∀ f, (stuck ++ [last]).head? = some f → base.Leads file paths f
  requires : List.IsChain base.Requires (stuck ++ [last])
  closed : last ∈ p.requires.inFlight ++ stuck

/-- What holds of the files whatever comes of a run: none was met before, or twice. -/
structure LoadsOnce (p : Program) (moves : List Move) : Prop where
  loads : (loads moves).Nodup
  fresh : ∀ f ∈ Move.loads moves, f ∉ p.requires.inFlight ∧ f ∉ p.requires.loaded
  splices : (splices moves).Nodup
  loaded : ∀ f ∈ Move.splices moves, f ∈ Move.loads moves

/-- Everything that was loaded was spliced in, and nothing else counts as loaded since. -/
structure SplicesAll (base p : Program) (moves : List Move) (q : Program) : Prop where
  since : base.Since q
  spliced : ∀ f ∈ Move.loads moves, f ∈ Move.splices moves
  loaded : ∀ f, f ∈ q.requires.loaded ↔ f ∈ p.requires.loaded ∨ f ∈ Move.splices moves

theorem loadsOnce_of_eq_nil {moves : List Move} (hLoads : Move.loads moves = [])
    (hSplices : Move.splices moves = []) : p.LoadsOnce moves := by
  constructor <;> simp [hLoads, hSplices]

theorem splicesAll_of_eq_nil {base : Program} {moves : List Move} (hLoads : Move.loads moves = [])
    (hSplices : Move.splices moves = []) (hSince : base.Since q)
    (hRequires : q.requires = p.requires) : base.SplicesAll p moves q :=
  ⟨hSince, by simp [hLoads], by simp [hSplices, hRequires]⟩

theorem LoadsOnce.append {base : Program} {moves moves' : List Move} (h : p.LoadsOnce moves)
    (hAll : base.SplicesAll p moves q) (hPasses : p.Passes q) (h' : q.LoadsOnce moves') :
    p.LoadsOnce (moves ++ moves') := by
  have hApart : ∀ f ∈ Move.loads moves, f ∉ Move.loads moves' := fun f hf hf' =>
    (h'.fresh f hf').2 ((hAll.loaded f).mpr (.inr (hAll.spliced f hf)))
  refine ⟨?_, fun f hf => ?_, ?_, fun f hf => ?_⟩
  · rw [loads_append]
    exact h.loads.append h'.loads fun f hf hf' => hApart f hf hf'
  · rw [loads_append] at hf
    obtain hf | hf := List.mem_append.mp hf
    · exact h.fresh f hf
    · obtain ⟨hIdle, hNew⟩ := h'.fresh f hf
      exact ⟨hPasses.inFlight ▸ hIdle, fun hLoaded => hNew (hPasses.loaded f hLoaded)⟩
  · rw [splices_append]
    exact h.splices.append h'.splices fun f hf hf' =>
      hApart f (h.loaded f hf) (h'.loaded f hf')
  · rw [splices_append] at hf
    rw [loads_append]
    exact List.mem_append.mpr ((List.mem_append.mp hf).imp (h.loaded f) (h'.loaded f))

theorem SplicesAll.append {base : Program} {moves moves' : List Move}
    (h : base.SplicesAll p moves q) (h' : base.SplicesAll q moves' r) :
    base.SplicesAll p (moves ++ moves') r := by
  refine ⟨h'.since, fun f hf => ?_, fun f => ?_⟩
  · rw [loads_append] at hf
    rw [splices_append]
    exact List.mem_append.mpr ((List.mem_append.mp hf).imp (h.spliced f) (h'.spliced f))
  · rw [h'.loaded, h.loaded, splices_append, List.mem_append, or_assoc]

/-- One more file was loaded, and its tree was normalized in flight. -/
theorem LoadsOnce.found {file : Location} {root : Node} {moves : List Move}
    (hFinds : p.Finds file root q) (h : q.LoadsOnce moves) :
    p.LoadsOnce (.load file :: moves) ∧ file ∉ Move.splices moves := by
  have hRest : ∀ f ∈ Move.loads moves,
      f ≠ file ∧ f ∉ p.requires.inFlight ∧ f ∉ p.requires.loaded := by
    intro f hf
    have hFresh := h.fresh f hf
    simp [hFinds.requires] at hFresh
    exact ⟨hFresh.1.2, hFresh.1.1, hFresh.2⟩
  refine ⟨⟨?_, fun f hf => ?_, ?_, fun f hf => ?_⟩, fun hMem => ?_⟩
  · rw [loads_load]
    exact List.nodup_cons.mpr ⟨fun hMem => (hRest file hMem).1 rfl, h.loads⟩
  · rw [loads_load] at hf
    obtain rfl | hf := List.mem_cons.mp hf
    · exact ⟨hFinds.idle, hFinds.fresh⟩
    · exact (hRest f hf).2
  · rw [splices_load]
    exact h.splices
  · rw [splices_load] at hf
    rw [loads_load]
    exact .tail _ (h.loaded f hf)
  · exact (hRest file (h.loaded file hMem)).1 rfl

theorem LoadsOnce.splice {file : Location} {moves : List Move}
    (h : p.LoadsOnce (.load file :: moves)) (hNew : file ∉ Move.splices moves) :
    p.LoadsOnce (.load file :: (moves ++ [.splice file])) := by
  obtain ⟨hLoads, hFresh, hSplices, hLoaded⟩ := h
  simp only [loads_load, splices_load] at hLoads hFresh hSplices hLoaded
  refine ⟨?_, fun f hf => hFresh f ?_, ?_, fun f hf => ?_⟩
  · simpa using hLoads
  · simpa using hf
  · rw [splices_load, splices_append, splices_splice, List.nodup_append_comm]
    exact List.nodup_cons.mpr ⟨hNew, hSplices⟩
  · simp only [splices_load, splices_append, splices_splice, List.mem_append,
      List.mem_singleton] at hf
    simp only [loads_load, loads_append, loads_splice, List.append_nil]
    obtain hf | rfl := hf
    · exact hLoaded f hf
    · exact .head _

theorem SplicesAll.splice {base : Program} {file : Location} {root : Node} {moves : List Move}
    (hFinds : p.Finds file root q) (h : base.SplicesAll q moves r) :
    base.SplicesAll p (.load file :: (moves ++ [.splice file])) (r.finish file) := by
  refine ⟨h.since.finish file, fun f hf => ?_, fun f => ?_⟩
  · simp only [loads_load, loads_append, loads_splice, List.append_nil] at hf
    simp only [splices_load, splices_append, splices_splice, List.mem_append, List.mem_singleton]
    obtain rfl | hf := List.mem_cons.mp hf
    · exact .inr rfl
    · exact .inl (h.spliced f hf)
  · show f ∈ r.requires.loaded.insert file.normal ↔ _
    rw [List.mem_insert_iff, hFinds.normal, h.loaded, hFinds.requires]
    simp only [splices_load, splices_append, splices_splice, List.mem_append, List.mem_singleton]
    tauto

theorem Cycle.inFile {base : Program} {file : Location} {root : Node}
    {requestedFrom : Option SourcePath} {paths : Symbol → Prop} {stuck : List Location}
    {last : Location} (hFinds : p.Finds file root q)
    (hContent : base.loader.content? file = some (.tree root))
    (hLeads : base.Leads requestedFrom paths file)
    (h : base.Cycle q (some (.ofLocation file)) root.Requests stuck last) :
    base.Cycle p requestedFrom paths (file :: stuck) last := by
  obtain ⟨hIdle, hFirst, hRequires, hClosed⟩ := h
  simp only [hFinds.requires, List.mem_append, List.mem_singleton] at hIdle hClosed
  refine ⟨?_, ?_, ?_, ?_⟩
  · exact List.forall_mem_cons.mpr
      ⟨hFinds.idle, fun f hf hMem => hIdle f hf (.inl hMem)⟩
  · rintro _ ⟨⟩
    exact hLeads
  · exact hRequires.cons fun f hf => ⟨root, hContent, hFirst f hf⟩
  · simp only [List.mem_append, List.mem_cons]
    tauto

end Program

open Program

/-- The requests in the code are among these. -/
structure Code.Within {α : Type} (c : Code α) (paths : Symbol → Prop) : Prop where
  asks : ∀ path, c.Asks path → paths path
  calls : ∀ m path, c.Calls m → m.Requests path → paths path

theorem Node.within_code {n : Node} {paths : Symbol → Prop}
    (h : ∀ path, n.Requests path → paths path) : n.code.Within paths := by
  refine ⟨fun path hAsks => ?_, fun m path hCalls hRequests => ?_⟩
  · obtain ⟨s, rfl⟩ := Node.eq_require_of_asks hAsks
    exact h path ⟨s, .root⟩
  · exact h path (.of_calls hCalls hRequests)

variable {base : Program} {file : Option SourcePath} {α : Type} {c : Code α} {st : NormalState}
  {moves : List Move} {result : EStateM.Result NormalizeError NormalState α}

/-- What comes of the files by how the run ends: all of them are spliced in if it succeeds, and if
it fails because of a cycle then the cycle is there. -/
def Program.Settled (base p : Program) (file : Option SourcePath) (paths : Symbol → Prop)
    (moves : List Move) {α : Type} : EStateM.Result NormalizeError NormalState α → Prop
  | .ok _ st => base.SplicesAll p moves st.program
  | .error e _ => ∀ chain, e = .require (.circular chain) → ∃ stuck last,
    chain = p.requires.inFlight ++ stuck ++ [last] ∧ base.Cycle p file paths stuck last

theorem Act.not_circular {a : Act α} {e : NormalizeError} {st st' : NormalState}
    (h : a.run.run st = .error e st') (chain : List Location) : e ≠ .require (.circular chain) := by
  cases a with
  | getScope | setScope | noteBridges | noteParams | write => cases h
  | read s v =>
    rw [Act.run_read] at h
    cases hRead : st.scope.readVersion? v.name with
    | some version =>
      rw [hRead] at h
      cases h
    | none =>
      rw [hRead] at h
      cases h
      rintro ⟨⟩
  | allocate act hAct =>
    obtain ⟨b, q, -, hRun⟩ := hAct st.program
    rw [Act.run, hRun st.scope] at h
    cases h

theorem Program.Cycle.of_passes {p q : Program} {paths : Symbol → Prop} {stuck : List Location}
    {last : Location} (hPasses : p.Passes q) (h : base.Cycle q file paths stuck last) :
    base.Cycle p file paths stuck last := by
  obtain ⟨hIdle, hFirst, hRequires, hClosed⟩ := h
  rw [hPasses.inFlight] at hIdle hClosed
  exact ⟨hIdle, hFirst, hRequires, hClosed⟩

theorem Program.Settled.after {p q : Program} {paths : Symbol → Prop} {moves moves' : List Move}
    {result : EStateM.Result NormalizeError NormalState α} (hPasses : p.Passes q)
    (hAll : base.SplicesAll p moves q) (h : base.Settled q file paths moves' result) :
    base.Settled p file paths (moves ++ moves') result := by
  cases result with
  | ok a st => exact hAll.append h
  | error e st =>
    intro chain hChain
    obtain ⟨stuck, last, hEq, hCycle⟩ := h chain hChain
    exact ⟨stuck, last, by rw [hEq, hPasses.inFlight], hCycle.of_passes hPasses⟩

theorem Runs.tracks (hMemory : base.loader.InMemory) (hKnows : base.KnowsRequests)
    (h : Runs file c st moves result) : ∀ paths : Symbol → Prop, c.Within paths →
      (∀ path, paths path → (base.names.text? path).isSome) → base.Since st.program →
      st.program.LoadsOnce moves ∧ base.Settled st.program file paths moves result := by
  induction h with
  | pure a st =>
    intro paths hWithin hKnown hSince
    exact ⟨loadsOnce_of_eq_nil loads_nil splices_nil,
      splicesAll_of_eq_nil loads_nil splices_nil hSince rfl⟩
  | act a st =>
    intro paths hWithin hKnown hSince
    refine ⟨loadsOnce_of_eq_nil (loads_act a st) (splices_act a st), ?_⟩
    cases hRun : a.run.run st with
    | ok x st' =>
      have hExtends := Act.extends_of_ok hRun
      exact splicesAll_of_eq_nil (loads_act a st) (splices_act a st) (hSince.extends hExtends)
        hExtends.requires
    | error e st' => exact fun chain hChain => absurd hChain (Act.not_circular hRun chain)
  | bind h _ ih ihNext =>
    intro paths hWithin hKnown hSince
    obtain ⟨hOnce, hAll⟩ := ih paths ⟨fun path hp => hWithin.asks path (.inl hp),
      fun m path hm => hWithin.calls m path (.inl hm)⟩ hKnown hSince
    obtain ⟨hOnce', hRest⟩ := ihNext paths ⟨fun path hp => hWithin.asks path (.inr ⟨_, hp⟩),
      fun m path hm => hWithin.calls m path (.inr ⟨_, hm⟩)⟩ hKnown hAll.since
    exact ⟨hOnce.append hAll h.passes hOnce', hRest.after h.passes hAll⟩
  | bind_error _ ih =>
    intro paths hWithin hKnown hSince
    exact ih paths ⟨fun path hp => hWithin.asks path (.inl hp),
      fun m path hm => hWithin.calls m path (.inl hm)⟩ hKnown hSince
  | transform _ ih =>
    intro paths hWithin hKnown hSince
    exact ih paths (Node.within_code fun path hp => hWithin.calls _ path rfl hp) hKnown hSince
  | apart _ ih =>
    intro paths hWithin hKnown hSince
    obtain ⟨⟨hLoads, hFresh, hSplices, hLoaded⟩, hSince', hSpliced, hAll⟩ :=
      ih paths ⟨nofun, hWithin.calls⟩ hKnown hSince
    constructor
    · constructor <;> simpa
    · constructor <;> simpa
  | apart_error _ ih =>
    intro paths hWithin hKnown hSince
    obtain ⟨⟨hLoads, hFresh, hSplices, hLoaded⟩, hCycle⟩ :=
      ih paths ⟨nofun, hWithin.calls⟩ hKnown hSince
    refine ⟨?_, hCycle⟩
    constructor <;> simpa
  | @refused file s path st e program h =>
    intro paths hWithin hKnown hSince
    have hAsked := hWithin.asks path rfl
    obtain rfl | ⟨f, content, hFind, hInFlight, rfl⟩ :=
      refused_of_resolve (hSince.loader.symm ▸ hMemory) h
    · exact ⟨loadsOnce_of_eq_nil loads_nil splices_nil, nofun⟩
    · refine ⟨loadsOnce_of_eq_nil loads_nil splices_nil, ?_⟩
      rintro _ ⟨⟩
      rw [hSince.find?, hSince.text (hKnown path hAsked)] at hFind
      refine ⟨[], f, by simp, nofun, ?_, .singleton f, by simpa using hInFlight⟩
      rintro _ ⟨⟩
      exact ⟨path, content, hAsked, hFind⟩
  | loaded h =>
    intro paths hWithin hKnown hSince
    obtain rfl := eq_of_resolve_none h
    exact ⟨loadsOnce_of_eq_nil loads_nil splices_nil,
      splicesAll_of_eq_nil loads_nil splices_nil hSince rfl⟩
  | @found file s path st st' target root program moves o h _ ih =>
    intro paths hWithin hKnown hSince
    have hFinds := finds_of_resolve h
    obtain ⟨hContent, -⟩ := hFinds.content (hSince.loader.symm ▸ hMemory)
    rw [hSince.loader] at hContent
    obtain ⟨hOnce, hAll⟩ := ih root.Requests ⟨nofun, fun m p hm hp => hm ▸ hp⟩
      (fun path => hKnows target root path hContent) (hSince.finds hFinds hMemory)
    obtain ⟨hLoads, hNew⟩ := hOnce.found hFinds
    exact ⟨hLoads.splice hNew, SplicesAll.splice hFinds hAll⟩
  | @found_error file s path st st' target root program moves e h _ ih =>
    intro paths hWithin hKnown hSince
    have hFinds := finds_of_resolve h
    have hAsked := hWithin.asks path rfl
    obtain ⟨hContent, -⟩ := hFinds.content (hSince.loader.symm ▸ hMemory)
    rw [hSince.loader] at hContent
    obtain ⟨content, hFind⟩ := find?_of_resolve h
    rw [hSince.find?, hSince.text (hKnown path hAsked)] at hFind
    obtain ⟨hOnce, hCycle⟩ := ih root.Requests ⟨nofun, fun m p hm hp => hm ▸ hp⟩
      (fun path => hKnows target root path hContent) (hSince.finds hFinds hMemory)
    refine ⟨(hOnce.found hFinds).1, fun chain hChain => ?_⟩
    obtain ⟨stuck, last, hEq, hInner⟩ := hCycle chain hChain
    refine ⟨target :: stuck, last, ?_, hInner.inFile hFinds hContent ⟨path, content, hAsked, hFind⟩⟩
    rw [hEq, hFinds.requires]
    simp

/-! ## The main file -/

/-- The loader that has these trees. -/
def Loader.ofTrees (trees : List (Location × Node)) : Loader :=
  { Loader.empty with files := trees.map fun entry => (entry.1, .tree entry.2) }

theorem Loader.content?_ofTrees {trees : List (Location × Node)} {place : Location}
    {content : Content} (h : (ofTrees trees).content? place = some content) :
    ∃ root, content = .tree root ∧ (place, root) ∈ trees := by
  obtain ⟨before, after, hFiles, -⟩ := List.lookup_eq_some_iff.mp h
  have hMem : (place, content) ∈ trees.map fun entry => (entry.1, Content.tree entry.2) := by
    show _ ∈ (ofTrees trees).files
    rw [hFiles]
    simp
  obtain ⟨entry, hEntry, hEq⟩ := List.mem_map.mp hMem
  cases hEq
  exact ⟨entry.2, rfl, hEntry⟩

/-- The run of the main file's tree, with the main file in flight. -/
def Program.RunsFile (p : Program) (main : SourcePath) (root : Node) (moves : List Move)
    (result : EStateM.Result NormalizeError NormalState Outcome) : Prop :=
  ∃ started, p.beginFile main.location = .ok started ∧
    Runs (some main) (.transform root) ⟨started, .empty⟩ moves result

/-- A `require` of the first file leads to the second, where the main file has the tree `root`
and every other file has the tree that the loader knows. -/
def Program.RequiresFrom (p : Program) (main : SourcePath) (root : Node) (a b : Location) : Prop :=
  if a = main.location.normal then p.Leads (some main) root.Requests b else p.Requires a b

theorem Program.normalize_of_runs {p : Program} {root : Node}
    {result : EStateM.Result NormalizeError NormalState Outcome}
    (h : Runs file (.transform root) ⟨p, .empty⟩ moves result) :
    match result with
    | .error e st => p.normalize file root = (.error (.error e), st.program)
    | .ok o st => p.normalize file root = (.ok o.node, st.program) ∨
      ∃ fault, p.normalize file root = (.error (.fault fault), st.program) := by
  have hRun := h.eq_denote p.fits_length
  unfold normalize
  cases result with
  | error e st =>
    have hNode := run_node_of_error hRun.symm
    rw [EStateM.run] at hNode
    simp only [hNode]
  | ok o st =>
    have hNode := run_node_of_ok hRun.symm
    rw [EStateM.run] at hNode
    simp only [hNode]
    split
    · rename_i fault _
      exact .inr ⟨fault, rfl⟩
    · exact .inl rfl

section

variable {R : Location → Location → Prop}

theorem transGen_of_isChain {a b : Location} {between : List Location}
    (h : List.IsChain R (a :: (between ++ [b]))) : Relation.TransGen R a b := by
  induction between generalizing a with
  | nil => exact .single (List.isChain_cons_cons.mp h).1
  | cons c between ih =>
    obtain ⟨hStep, hRest⟩ := List.isChain_cons_cons.mp h
    exact .head hStep (ih hRest)

/-- A chain that ends where it was before holds a cycle, and it leads there. -/
theorem cyclic_of_isChain {first last : Location} {earlier : List Location}
    (h : List.IsChain R (earlier ++ [last])) (hFirst : earlier.head? = some first)
    (hMem : last ∈ earlier) :
    Relation.ReflTransGen R first last ∧ Relation.TransGen R last last := by
  obtain ⟨before, after, rfl⟩ := List.append_of_mem hMem
  rw [List.append_assoc, List.cons_append] at h
  refine ⟨?_, transGen_of_isChain (h.right_of_append)⟩
  cases before with
  | nil =>
    cases hFirst
    exact .refl
  | cons a before =>
    obtain rfl : a = first := by simpa using hFirst
    have hSplit : List.IsChain R ((a :: before ++ [last]) ++ (after ++ [last])) := by
      simpa using h
    have hPrefix : List.IsChain R (a :: (before ++ [last])) := hSplit.left_of_append
    exact (transGen_of_isChain hPrefix).to_reflTransGen

end

/-- The files of a cycle, told from the main file on. -/
theorem Program.Cycle.isChain {p started : Program} {main : SourcePath} {root : Node}
    {stuck : List Location} {last : Location}
    (hInFlight : started.requires.inFlight = [main.location.normal])
    (h : p.Cycle started (some main) root.Requests stuck last) :
    List.IsChain (p.RequiresFrom main root) (main.location.normal :: stuck ++ [last]) := by
  have hStuck : ∀ stuck : List Location, (∀ f ∈ stuck, f ≠ main.location.normal) →
      List.IsChain p.Requires (stuck ++ [last]) →
      List.IsChain (p.RequiresFrom main root) (stuck ++ [last]) := by
    intro stuck hOther hChain
    induction stuck with
    | nil => exact .singleton last
    | cons f stuck ih =>
      refine (ih (fun g hg => hOther g (.tail _ hg)) hChain.of_cons).cons fun g hg => ?_
      rw [RequiresFrom, if_neg (hOther f (.head _))]
      exact hChain.rel_head? hg
  refine (hStuck stuck (fun f hf => ?_) h.requires).cons fun f hf => ?_
  · have hIdle := h.idle f hf
    simpa [hInFlight] using hIdle
  · rw [RequiresFrom, if_pos rfl]
    exact h.first f hf

/-- Requires load each file once and report exactly the real cycles. In the run of a main file,
whose requires and those of the files in memory are strings of the program, no file is loaded or
spliced in twice. If it succeeds nothing stays in flight, and the files loaded are the main file
and those spliced in. If it fails because of a cycle, the files named lead from the main file to
each other by requires, and the last of them was there before; so without a cycle among the
requires that the main file leads to, it does not fail like that. -/
theorem requires_load_once (names : SymbolTable) (trees : List (Location × Node))
    (searchPaths : List SourcePath) (main : SourcePath) (root : Node)
    (hRoot : ∀ path, root.Requests path → (names.text? path).isSome)
    (hTrees : ∀ entry ∈ trees, ∀ path, entry.2.Requests path → (names.text? path).isSome) :
    let p := Program.init names (.ofTrees trees) searchPaths
    ∃ moves result, p.RunsFile main root moves result ∧
      (∀ e, (∃ st, result = .error e st) ↔
        (p.normalizeFile main root).1 = .error (.error e)) ∧
      (loads moves).Nodup ∧ (splices moves).Nodup ∧
      (∀ n p', p.normalizeFile main root = (.ok n, p') →
        p'.requires.inFlight = [] ∧
        ∀ f, f ∈ p'.requires.loaded ↔ f = main.location.normal ∨ f ∈ splices moves) ∧
      (∀ chain p', p.normalizeFile main root =
          (.error (.error (.require (.circular chain))), p') →
        chain.head? = some main.location.normal ∧
        List.IsChain (p.RequiresFrom main root) chain ∧
        ∃ earlier last, chain = earlier ++ [last] ∧ last ∈ earlier) ∧
      ((∀ f, Relation.ReflTransGen (p.RequiresFrom main root) main.location.normal f →
          ¬ Relation.TransGen (p.RequiresFrom main root) f f) →
        ∀ chain p', p.normalizeFile main root ≠
          (.error (.error (.require (.circular chain))), p')) := by
  intro p
  have hMemory : p.loader.InMemory := by
    intro place content hContent
    obtain ⟨tree, hTree, -⟩ := Loader.content?_ofTrees hContent
    exact ⟨tree, hTree⟩
  have hKnows : p.KnowsRequests := fun place tree path hContent hPath => by
    obtain ⟨_, ⟨⟩, hMem⟩ := Loader.content?_ofTrees hContent
    exact hTrees _ hMem path hPath
  -- the main file alone is in flight
  let started : Program := { p with requires := ⟨[main.location.normal], []⟩ }
  have hBegin : p.beginFile main.location = .ok started := rfl
  have hSince : p.Since started := ⟨rfl, rfl, fun _ _ h => h⟩
  obtain ⟨moves, result, hRuns⟩ := exists_runs_transform (some main) root ⟨started, .empty⟩
  obtain ⟨hOnce, hSettled⟩ := hRuns.tracks hMemory hKnows root.Requests
    ⟨nofun, fun m path hm hp => hm ▸ hp⟩ hRoot hSince
  have hNormalize := Program.normalize_of_runs hRuns
  have hCircular : ∀ chain p', p.normalizeFile main root =
      (.error (.error (.require (.circular chain))), p') →
      chain.head? = some main.location.normal ∧ List.IsChain (p.RequiresFrom main root) chain ∧
        ∃ earlier last, chain = earlier ++ [last] ∧ last ∈ earlier := by
    intro chain p' hFails
    simp only [Program.normalizeFile, hBegin] at hFails
    cases result with
    | ok o st => obtain hOk | ⟨fault, hFault⟩ := hNormalize <;> simp_all
    | error e st =>
      rw [hNormalize] at hFails
      cases hFails
      obtain ⟨stuck, last, rfl, hCycle⟩ := hSettled chain rfl
      exact ⟨rfl, hCycle.isChain rfl, main.location.normal :: stuck, last, rfl, hCycle.closed⟩
  refine ⟨moves, result, ⟨started, hBegin, hRuns⟩, fun e => ?_, hOnce.loads, hOnce.splices,
    fun n p' hOk => ?_, hCircular, fun hAcyclic chain p' hFails => ?_⟩
  · simp only [Program.normalizeFile, hBegin]
    cases result with
    | ok o st => obtain hOk | ⟨fault, hFault⟩ := hNormalize <;> simp_all
    | error e' st =>
      rw [hNormalize]
      constructor
      · rintro ⟨_, ⟨⟩⟩
        rfl
      · rintro ⟨⟩
        exact ⟨st, rfl⟩
  · simp only [Program.normalizeFile, hBegin] at hOk
    cases result with
    | error e st =>
      rw [hNormalize] at hOk
      cases hOk
    | ok o st =>
      obtain hNode | ⟨fault, hFault⟩ := hNormalize
      · rw [hNode] at hOk
        cases hOk
        have hInFlight : st.program.requires.inFlight = [main.location.normal] :=
          hRuns.passes.inFlight
        refine ⟨?_, fun f => ?_⟩
        · show st.program.requires.inFlight.erase main.location.normal = []
          simp [hInFlight]
        · show f ∈ st.program.requires.loaded.insert main.location.normal ↔ _
          rw [List.mem_insert_iff, hSettled.loaded]
          simp [started]
      · rw [hFault] at hOk
        cases hOk
  · obtain ⟨hHead, hChain, earlier, last, rfl, hMem⟩ := hCircular chain p' hFails
    obtain ⟨a, rest, rfl⟩ := List.exists_cons_of_ne_nil (List.ne_nil_of_mem hMem)
    obtain ⟨hReach, hCycle⟩ := cyclic_of_isChain hChain hHead hMem
    exact hAcyclic last hReach hCycle

namespace Sample

def loopFile : Location := ⟨[.name "loop.gar"]⟩

def requireOf (path : Nat) : Node := .require .nowhere ⟨path⟩

def loopNames : SymbolTable := ((SymbolTable.initial.intern "./loop").2.intern "./main").2

/-- The main file and another one require each other. -/
def loopTrees : List (Location × Node) :=
  [(mainFile.location, requireOf 14), (loopFile, requireOf 15)]

theorem eq_of_requests_requireOf {k : Nat} {path : Symbol} (h : (requireOf k).Requests path) :
    path = ⟨k⟩ := by
  obtain ⟨s, h⟩ := h
  obtain h | ⟨part, hPart, _⟩ := h.cases_root
  · cases h
    rfl
  · cases hPart

theorem looping_requires : ∃ moves result,
    (Program.init loopNames (.ofTrees loopTrees) []).RunsFile mainFile (requireOf 14) moves
      result ∧
    (loads moves).Nodup ∧ (splices moves).Nodup ∧
    ((Program.init loopNames (.ofTrees loopTrees) []).normalizeFile mainFile (requireOf 14)).1 =
      .error (.error (.require (.circular
        [mainFile.location, loopFile, mainFile.location]))) ∧
    List.IsChain ((Program.init loopNames (.ofTrees loopTrees) []).RequiresFrom mainFile
      (requireOf 14)) [mainFile.location, loopFile, mainFile.location] := by
  have hRoot : ∀ path, (requireOf 14).Requests path → (loopNames.text? path).isSome := by
    intro path h
    rw [eq_of_requests_requireOf h]
    decide
  have hTrees : ∀ entry ∈ loopTrees, ∀ path, entry.2.Requests path →
      (loopNames.text? path).isSome := by
    intro entry hEntry path h
    obtain rfl | rfl : entry = (mainFile.location, requireOf 14) ∨
        entry = (loopFile, requireOf 15) := by simpa [loopTrees] using hEntry
    · exact hRoot path h
    · rw [eq_of_requests_requireOf h]
      decide
  obtain ⟨moves, result, hRuns, -, hLoads, hSplices, -, hCircular, -⟩ :=
    requires_load_once loopNames loopTrees [] mainFile (requireOf 14) hRoot hTrees
  exact ⟨moves, result, hRuns, hLoads, hSplices, rfl, (hCircular _ _ rfl).2.1⟩

end Sample

end CoreTree

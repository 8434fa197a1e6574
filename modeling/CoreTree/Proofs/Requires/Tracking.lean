import CoreTree.Proofs.Requires.Answers
import Mathlib.Data.Finset.Basic

/-! # Tracking under any use

What is known of the files that a run has met: in which order they came in flight, which are in
flight, and which are finished. Kept apart, as a stack and two sets, these are three records that
every call has to change alike. Whatever calls come, in any order and for any files, the three
agree with each other and with the tracker of the program, and a call that is refused changes none
of them.
-/
namespace CoreTree
set_option autoImplicit false

/-- One use of a program's tracker. Each request is given its loader, because files come and go
between two of them. -/
inductive TrackerCall where
  | start (file : Location)
  | resolve (loader : Loader) (requested : String) (requestedFrom : Option SourcePath)
  | finish (file : Location)

def Loader.knows (l : Loader) (file : Location) : Bool := (l.content? file).isSome

namespace Program

/-- What a call is answered. There is no answer to a file that is started or finished. -/
def track (p : Program) : TrackerCall → Except RequireError (Option RequiredFile) × Program
  | .start file =>
    match p.beginFile file with
    | .error e => (.error e, p)
    | .ok q => (.ok none, q)
  | .resolve loader requested requestedFrom => { p with loader }.resolve requested requestedFrom
  | .finish file => (.ok none, p.finish file)

def afterCalls (p : Program) : List TrackerCall → Program
  | [] => p
  | call :: calls => (p.track call).2.afterCalls calls

/-- The first file a request may mean that is there. -/
def target? (p : Program) (loader : Loader) (requested : String)
    (requestedFrom : Option SourcePath) : Option Location :=
  (candidates requested (requestedFrom.map (·.location))
    (p.searchPaths.map (·.location))).find? loader.knows

end Program

/-- The three records: the files in flight, the outermost first, the same files as a set, and the
files that are finished. -/
structure Ledger where
  stack : List Location
  inFlight : Finset Location
  loaded : Finset Location

namespace Ledger

def empty : Ledger := ⟨[], ∅, ∅⟩

def start (t : Ledger) (file : Location) : Except RequireError Ledger :=
  if file ∈ t.inFlight then .error (.circular (t.stack ++ [file]))
  else .ok { t with inFlight := insert file t.inFlight, stack := t.stack ++ [file] }

/-- Of a file that stands on the stack, what came last is taken off, from the middle if need be. -/
def abort (t : Ledger) (file : Location) : Ledger :=
  { t with stack := (t.stack.reverse.erase file).reverse, inFlight := t.inFlight.erase file }

def finish (t : Ledger) (file : Location) : Ledger :=
  { t.abort file with loaded := insert file t.loaded }

/-- Answers a request from the records. -/
def resolve (t : Ledger) (p : Program) (requested : String) (requestedFrom : Option SourcePath) :
    Except RequireError (Option RequiredFile) × Ledger :=
  match p.find? requested requestedFrom with
  | none => (.error (.notFound requested requestedFrom), t)
  | some (file, content) =>
    if file ∈ t.loaded then (.ok none, t)
    else match t.start file with
      | .error e => (.error e, t)
      | .ok started =>
        match (p.loader.load p.names content).1 with
        | .ok root => (.ok (some ⟨file, root⟩), started)
        | .error message => (.error (.load file message), started.abort file)

def track (t : Ledger) (p : Program) : TrackerCall →
    Except RequireError (Option RequiredFile) × Ledger
  | .start file =>
    match t.start file.normal with
    | .error e => (.error e, t)
    | .ok u => (.ok none, u)
  | .resolve loader requested requestedFrom => t.resolve { p with loader } requested requestedFrom
  | .finish file => (.ok none, t.finish file.normal)

def afterCalls (t : Ledger) (p : Program) : List TrackerCall → Ledger
  | [] => t
  | call :: calls => (t.track p call).2.afterCalls (p.track call).2 calls

/-- The records agree with each other and with a tracker. -/
structure Mirrors (t : Ledger) (r : Tracker) : Prop where
  stack : t.stack = r.inFlight
  nodup : t.stack.Nodup
  inFlight : ∀ file, file ∈ t.inFlight ↔ file ∈ t.stack
  loaded : ∀ file, file ∈ t.loaded ↔ file ∈ r.loaded

theorem mirrors_empty : empty.Mirrors .empty :=
  ⟨rfl, List.nodup_nil, fun _ => by simp [empty], fun _ => by simp [empty, Tracker.empty]⟩

namespace Mirrors

variable {t u : Ledger} {r : Tracker} {file : Location}

theorem isLoaded (h : t.Mirrors r) : r.isLoaded file = true ↔ file ∈ t.loaded := by
  rw [h.loaded, Tracker.isLoaded, List.contains_iff_mem]

/-- The set decides for the stack. -/
theorem start_of_mem (h : t.Mirrors r) (hMem : file ∈ t.inFlight) :
    t.start file = .error (.circular (t.stack ++ [file])) ∧
      r.start file = .error (.circular (t.stack ++ [file])) := by
  refine ⟨if_pos hMem, Tracker.start_eq_error_iff.mpr ⟨?_, by rw [h.stack]⟩⟩
  rw [← h.stack]
  exact (h.inFlight file).mp hMem

theorem start_of_not_mem (h : t.Mirrors r) (hIdle : file ∉ t.inFlight) :
    ∃ u s, t.start file = .ok u ∧ r.start file = .ok s ∧ u.Mirrors s ∧
      u.stack = t.stack ++ [file] ∧ u.loaded = t.loaded ∧ u.abort file = t := by
  have hOff : file ∉ t.stack := fun hMem => hIdle ((h.inFlight file).mpr hMem)
  refine ⟨_, _, if_neg hIdle, Tracker.start_eq_ok_iff.mpr ⟨h.stack ▸ hOff, rfl⟩,
    ⟨?_, ?_, fun other => ?_, h.loaded⟩, rfl, rfl, ?_⟩
  · rw [h.stack]
  · exact h.nodup.append (List.nodup_singleton file) (List.disjoint_singleton.mpr hOff)
  · rw [Finset.mem_insert, h.inFlight, List.mem_append, List.mem_singleton, or_comm]
  · simp [abort, Finset.erase_insert hIdle]

/-- A file stands on the stack once, so that it is the same to look for it from either end. -/
theorem abort (h : t.Mirrors r) (file : Location) : (t.abort file).Mirrors (r.abort file) := by
  have hStack : (t.stack.reverse.erase file).reverse = t.stack.erase file := by
    rw [(List.nodup_reverse.mpr h.nodup).erase_eq_filter, h.nodup.erase_eq_filter,
      List.filter_reverse, List.reverse_reverse]
  refine ⟨?_, ?_, fun other => ?_, h.loaded⟩
  · rw [Ledger.abort, hStack, h.stack]
    rfl
  · rw [Ledger.abort, hStack]
    exact h.nodup.erase file
  · rw [Ledger.abort, hStack, Finset.mem_erase, h.inFlight, h.nodup.mem_erase_iff]

theorem finish (h : t.Mirrors r) (file : Location) : (t.finish file).Mirrors (r.finish file) where
  stack := (h.abort file).stack
  nodup := (h.abort file).nodup
  inFlight := (h.abort file).inFlight
  loaded other := by
    show other ∈ insert file t.loaded ↔ other ∈ r.loaded.insert file
    rw [Finset.mem_insert, List.mem_insert_iff, h.loaded]

end Mirrors

end Ledger

/-! ## One call -/

theorem Program.find?_eq_some_iff {p : Program} {requested : String}
    {requestedFrom : Option SourcePath} {file : Location} {content : Content} :
    p.find? requested requestedFrom = some (file, content) ↔
      p.target? p.loader requested requestedFrom = some file ∧
        p.loader.content? file = some content := by
  unfold find? target?
  induction candidates requested (requestedFrom.map (·.location))
    (p.searchPaths.map (·.location)) with
  | nil => simp
  | cons other files ih =>
    cases hContent : p.loader.content? other with
    | none => simpa [hContent, Loader.knows] using ih
    | some c =>
      simp only [List.findSome?_cons, List.find?_cons, hContent, Loader.knows, Option.map_some,
        Option.isSome_some, Option.some.injEq, Prod.mk.injEq]
      constructor
      · rintro ⟨rfl, rfl⟩
        exact ⟨rfl, hContent⟩
      · rintro ⟨rfl, hSame⟩
        exact ⟨rfl, Option.some.inj (hContent.symm.trans hSame)⟩

theorem Program.find?_eq_none_iff {p : Program} {requested : String}
    {requestedFrom : Option SourcePath} : p.find? requested requestedFrom = none ↔
      p.target? p.loader requested requestedFrom = none := by
  unfold find? target?
  simp [List.findSome?_eq_none_iff, Loader.knows, Option.isSome_eq_false_iff]

namespace Ledger

/-- All that comes of a request: the answer, and the records and the program afterwards. -/
inductive Resolves (t : Ledger) (p : Program) (requested : String)
    (requestedFrom : Option SourcePath) :
    Except RequireError (Option RequiredFile) → Ledger → Program → Prop where
  | missing (hFind : p.find? requested requestedFrom = none) :
    t.Resolves p requested requestedFrom (.error (.notFound requested requestedFrom)) t p
  | loaded {file : Location} {content : Content}
    (hFind : p.find? requested requestedFrom = some (file, content)) (hLoaded : file ∈ t.loaded) :
    t.Resolves p requested requestedFrom (.ok none) t p
  | circular {file : Location} {content : Content}
    (hFind : p.find? requested requestedFrom = some (file, content)) (hNew : file ∉ t.loaded)
    (hInFlight : file ∈ t.inFlight) :
    t.Resolves p requested requestedFrom (.error (.circular (t.stack ++ [file]))) t p
  | broken {file : Location} {content : Content} {message : String} {q : Program}
    (hFind : p.find? requested requestedFrom = some (file, content)) (hNew : file ∉ t.loaded)
    (hLoad : (p.loader.load p.names content).1 = .error message)
    (hRequires : q.requires = p.requires) :
    t.Resolves p requested requestedFrom (.error (.load file message)) t q
  | found {file : Location} {content : Content} {root : Node} {u : Ledger} {q : Program}
    (hFind : p.find? requested requestedFrom = some (file, content)) (hNew : file ∉ t.loaded)
    (hIdle : file ∉ t.inFlight) (hLoad : (p.loader.load p.names content).1 = .ok root)
    (hMirrors : u.Mirrors q.requires) (hStack : u.stack = t.stack ++ [file])
    (hLoaded : u.loaded = t.loaded) :
    t.Resolves p requested requestedFrom (.ok (some ⟨file, root⟩)) u q

variable {t u : Ledger} {p q : Program}

/-- The records and the program answer alike. -/
theorem Mirrors.resolve (h : t.Mirrors p.requires) (requested : String)
    (requestedFrom : Option SourcePath) : ∃ answer u q,
      t.resolve p requested requestedFrom = (answer, u) ∧
      p.resolve requested requestedFrom = (answer, q) ∧
      t.Resolves p requested requestedFrom answer u q := by
  unfold Ledger.resolve Program.resolve
  cases hFind : p.find? requested requestedFrom with
  | none => exact ⟨_, _, _, rfl, rfl, .missing hFind⟩
  | some found =>
    obtain ⟨file, content⟩ := found
    dsimp only
    by_cases hLoaded : file ∈ t.loaded
    · rw [if_pos hLoaded, if_pos (h.isLoaded.mpr hLoaded)]
      exact ⟨_, _, _, rfl, rfl, .loaded hFind hLoaded⟩
    rw [if_neg hLoaded, if_neg (mt h.isLoaded.mp hLoaded)]
    by_cases hInFlight : file ∈ t.inFlight
    · obtain ⟨hStart, hStart'⟩ := h.start_of_mem hInFlight
      rw [hStart, hStart']
      exact ⟨_, _, _, rfl, rfl, .circular hFind hLoaded hInFlight⟩
    obtain ⟨u, s, hStart, hStart', hMirrors, hStack, hSame, hAbort⟩ :=
      h.start_of_not_mem hInFlight
    rw [hStart, hStart']
    dsimp only
    cases hLoad : p.loader.load p.names content with
    | mk result names =>
      have hResult := congrArg Prod.fst hLoad
      cases result with
      | ok root =>
        exact ⟨_, _, _, rfl, rfl, .found hFind hLoaded hInFlight hResult hMirrors hStack hSame⟩
      | error message =>
        dsimp only
        rw [hAbort]
        exact ⟨_, _, _, rfl, rfl, .broken hFind hLoaded hResult (Tracker.abort_start hStart')⟩

end Ledger

namespace Ledger.Resolves

variable {t u : Ledger} {p q : Program} {requested : String} {requestedFrom : Option SourcePath}
  {answer : Except RequireError (Option RequiredFile)}
  (h : t.Resolves p requested requestedFrom answer u q)
include h

/-- A file's tree is the answer exactly if the file is the one that the request means, has not been
met before, and loads. -/
theorem answer_eq_found_iff (file : Location) (root : Node) :
    answer = .ok (some ⟨file, root⟩) ↔
      p.target? p.loader requested requestedFrom = some file ∧ file ∉ t.loaded ∧
        file ∉ t.inFlight ∧ ∃ content ∈ p.loader.content? file,
          (p.loader.load p.names content).1 = .ok root := by
  constructor
  · rintro rfl
    cases h with
    | found hFind hNew hIdle hLoad =>
      obtain ⟨hFile, hContent⟩ := Program.find?_eq_some_iff.mp hFind
      exact ⟨hFile, hNew, hIdle, _, hContent, hLoad⟩
  · rintro ⟨hFile, hNew, hIdle, content, hContent, hLoad⟩
    have hFind := Program.find?_eq_some_iff.mpr ⟨hFile, hContent⟩
    cases h with
    | missing hNone => cases hNone.symm.trans hFind
    | loaded hFound hLoaded =>
      cases hFound.symm.trans hFind
      exact absurd hLoaded hNew
    | circular hFound _ hInFlight =>
      cases hFound.symm.trans hFind
      exact absurd hInFlight hIdle
    | broken hFound _ hBroken =>
      cases hFound.symm.trans hFind
      cases hBroken.symm.trans hLoad
    | found hFound _ _ hRoot =>
      cases hFound.symm.trans hFind
      cases hRoot.symm.trans hLoad
      rfl

/-- There is no answer exactly if the file that the request means is loaded. -/
theorem answer_eq_none_iff : answer = .ok none ↔
    ∃ file ∈ p.target? p.loader requested requestedFrom, file ∈ t.loaded := by
  constructor
  · rintro rfl
    cases h with
    | loaded hFind hLoaded => exact ⟨_, (Program.find?_eq_some_iff.mp hFind).1, hLoaded⟩
  · rintro ⟨file, hFile, hLoaded⟩
    have hSame : ∀ {other content}, p.find? requested requestedFrom = some (other, content) →
        other = file := fun hFind =>
      Option.some.inj ((Program.find?_eq_some_iff.mp hFind).1.symm.trans hFile)
    cases h with
    | missing hNone => cases (Program.find?_eq_none_iff.mp hNone).symm.trans hFile
    | loaded => rfl
    | circular hFind hNew => exact absurd (hSame hFind ▸ hLoaded) hNew
    | broken hFind hNew => exact absurd (hSame hFind ▸ hLoaded) hNew
    | found hFind hNew => exact absurd (hSame hFind ▸ hLoaded) hNew

end Ledger.Resolves

/-! ## Any calls -/

/-- All that a call does to the records, from before (`t`) to after (`u`). -/
structure TrackerCall.Law (call : TrackerCall) (t u : Ledger) (p q : Program)
    (answer : Except RequireError (Option RequiredFile)) : Prop where
  refused : ∀ e, answer = .error e → u = t ∧ q.requires = p.requires
  circular : ∀ chain, answer = .error (.circular chain) →
    ∃ file ∈ t.stack, chain = t.stack ++ [file]
  kept : t.loaded ⊆ u.loaded
  finished : ∀ file ∈ u.loaded, file ∉ t.loaded →
    ∃ spelling, call = .finish spelling ∧ file = spelling.normal
  found : ∀ loader requested requestedFrom, call = .resolve loader requested requestedFrom →
    ∀ file root, answer = .ok (some ⟨file, root⟩) ↔
      p.target? loader requested requestedFrom = some file ∧ file ∉ t.loaded ∧
        file ∉ t.inFlight ∧ ∃ content ∈ loader.content? file,
          (loader.load p.names content).1 = .ok root
  onTop : ∀ file root, answer = .ok (some ⟨file, root⟩) → u.stack = t.stack ++ [file]
  nothing : ∀ loader requested requestedFrom, call = .resolve loader requested requestedFrom →
    (answer = .ok none ↔ ∃ file ∈ p.target? loader requested requestedFrom, file ∈ t.loaded)

namespace Ledger

variable {t u : Ledger} {p q : Program}

theorem Resolves.law {loader : Loader} {requested : String} {requestedFrom : Option SourcePath}
    {answer : Except RequireError (Option RequiredFile)} (h : t.Mirrors p.requires)
    (hResolves : t.Resolves { p with loader } requested requestedFrom answer u q) :
    u.Mirrors q.requires ∧
      (TrackerCall.resolve loader requested requestedFrom).Law t u p q answer := by
  have hFound := hResolves.answer_eq_found_iff
  have hNothing := hResolves.answer_eq_none_iff
  refine ⟨?_, ⟨?_, ?_, ?_, ?_, ?_, ?_, ?_⟩⟩
  · cases hResolves with
    | missing | loaded | circular => exact h
    | broken _ _ _ hRequires => exact hRequires ▸ h
    | found _ _ _ _ hMirrors => exact hMirrors
  · rintro e rfl
    cases hResolves with
    | missing | circular => exact ⟨rfl, rfl⟩
    | broken _ _ _ hRequires => exact ⟨rfl, hRequires⟩
  · rintro chain hChain
    cases hResolves with
    | circular _ _ hInFlight =>
      cases hChain
      exact ⟨_, (h.inFlight _).mp hInFlight, rfl⟩
    | missing | loaded | broken | found => cases hChain
  · cases hResolves with
    | missing | loaded | circular | broken => exact Finset.Subset.refl _
    | found _ _ _ _ _ _ hLoaded => exact hLoaded ▸ Finset.Subset.refl _
  · intro file hMem hNew
    cases hResolves with
    | missing | loaded | circular | broken => exact absurd hMem hNew
    | found _ _ _ _ _ _ hLoaded => exact absurd (hLoaded ▸ hMem) hNew
  · rintro _ _ _ hCall
    cases hCall
    exact hFound
  · rintro file root rfl
    cases hResolves with
    | found _ _ _ _ _ hStack => exact hStack
  · rintro _ _ _ hCall
    cases hCall
    exact hNothing

theorem law_start (h : t.Mirrors p.requires) (file : Location) :
    (t.track p (.start file)).1 = (p.track (.start file)).1 ∧
      (t.track p (.start file)).2.Mirrors (p.track (.start file)).2.requires ∧
      (TrackerCall.start file).Law t (t.track p (.start file)).2 p (p.track (.start file)).2
        (p.track (.start file)).1 := by
  simp only [Ledger.track, Program.track, Program.beginFile]
  by_cases hInFlight : file.normal ∈ t.inFlight
  · obtain ⟨hStart, hStart'⟩ := h.start_of_mem hInFlight
    rw [hStart, hStart']
    refine ⟨rfl, h, ⟨fun _ _ => ⟨rfl, rfl⟩, ?_, Finset.Subset.refl _, fun _ hMem hNew =>
      absurd hMem hNew, nofun, nofun, nofun⟩⟩
    rintro chain hChain
    cases hChain
    exact ⟨_, (h.inFlight _).mp hInFlight, rfl⟩
  · obtain ⟨u, s, hStart, hStart', hMirrors, -, hLoaded, -⟩ := h.start_of_not_mem hInFlight
    rw [hStart, hStart']
    exact ⟨rfl, hMirrors, ⟨nofun, nofun, hLoaded ▸ Finset.Subset.refl _, fun _ hMem hNew =>
      absurd (hLoaded ▸ hMem) hNew, nofun, nofun, nofun⟩⟩

theorem law_finish (h : t.Mirrors p.requires) (file : Location) :
    (t.finish file.normal).Mirrors (p.finish file).requires ∧
      (TrackerCall.finish file).Law t (t.finish file.normal) p (p.finish file) (.ok none) := by
  refine ⟨h.finish file.normal, ⟨nofun, nofun, Finset.subset_insert _ _, fun other hMem hNew => ?_,
    nofun, nofun, nofun⟩⟩
  obtain rfl | hOld := Finset.mem_insert.mp hMem
  · exact ⟨file, rfl, rfl⟩
  · exact absurd hOld hNew

/-- The records and the program answer alike, and agree afterwards. -/
theorem Mirrors.track (h : t.Mirrors p.requires) (call : TrackerCall) :
    (t.track p call).1 = (p.track call).1 ∧ (t.track p call).2.Mirrors (p.track call).2.requires ∧
      call.Law t (t.track p call).2 p (p.track call).2 (p.track call).1 := by
  cases call with
  | start file => exact law_start h file
  | finish file => exact ⟨rfl, law_finish h file⟩
  | resolve loader requested requestedFrom =>
    obtain ⟨answer, u, q, hLedger, hProgram, hResolves⟩ :=
      Mirrors.resolve (p := { p with loader }) h requested requestedFrom
    have hLedger : t.track p (.resolve loader requested requestedFrom) = (answer, u) := hLedger
    have hProgram : p.track (.resolve loader requested requestedFrom) = (answer, q) := hProgram
    rw [hLedger, hProgram]
    exact ⟨rfl, hResolves.law h⟩

theorem Mirrors.afterCalls (h : t.Mirrors p.requires) (calls : List TrackerCall) :
    (t.afterCalls p calls).Mirrors (p.afterCalls calls).requires := by
  induction calls generalizing t p with
  | nil => exact h
  | cons call calls ih => exact ih (h.track call).2.1

end Ledger

/-- After any calls on a program that has met no file, the stack has no duplicates and holds the
files of the set, and both agree with the program's tracker. The next call, whatever it is, gets the
same answer from the records as from the program and keeps to the law: a refused call changes
nothing, a cycle is the stack with a file of it once more, files are loaded by being finished only
and stay loaded, and what a request is answered depends on the first file that it may mean. -/
theorem tracker_consistent (names : SymbolTable) (loader : Loader) (searchPaths : List SourcePath)
    (calls : List TrackerCall) (call : TrackerCall) :
    let p := (Program.init names loader searchPaths).afterCalls calls
    let t := Ledger.empty.afterCalls (.init names loader searchPaths) calls
    t.Mirrors p.requires ∧ (t.track p call).1 = (p.track call).1 ∧
      (t.track p call).2.Mirrors (p.track call).2.requires ∧
      call.Law t (t.track p call).2 p (p.track call).2 (p.track call).1 := by
  intro p t
  have hMirrors : t.Mirrors p.requires :=
    Ledger.mirrors_empty.afterCalls (p := .init names loader searchPaths) calls
  exact ⟨hMirrors, hMirrors.track call⟩

namespace Sample

/-- The file `bad.gar` is there and cannot be read. -/
def threeFiles : Loader :=
  ((Loader.empty.addTree ⟨[.name "a.gar"]⟩ (.nop .nowhere)).addTree ⟨[.name "b.gar"]⟩
    (.nop .nowhere)).addBroken ⟨[.name "bad.gar"]⟩ "unreadable"

/-- Finishes come out of order, under another spelling, and for a file that was never met. -/
def disorderly : List TrackerCall :=
  [.start (.parse "a.gar"), .resolve threeFiles "./b" (some (.parse "a.gar")),
    .start (.parse "c.gar"), .finish (.parse "x/../b.gar"), .finish (.parse "never.gar"),
    .resolve threeFiles "./bad" (some (.parse "b.gar"))]

theorem disorderly_consistent :
    let p := (Program.init .initial .empty []).afterCalls disorderly
    let t := Ledger.empty.afterCalls (.init .initial .empty []) disorderly
    let call := TrackerCall.resolve threeFiles "./a" (some (.parse "c.gar"))
    t = ⟨[⟨[.name "a.gar"]⟩, ⟨[.name "c.gar"]⟩], {⟨[.name "c.gar"]⟩, ⟨[.name "a.gar"]⟩},
      {⟨[.name "never.gar"]⟩, ⟨[.name "b.gar"]⟩}⟩ ∧
    (p.track call).1 =
      .error (.circular [⟨[.name "a.gar"]⟩, ⟨[.name "c.gar"]⟩, ⟨[.name "a.gar"]⟩]) ∧
    t.Mirrors p.requires ∧ (t.track p call).1 = (p.track call).1 ∧ (t.track p call).2 = t ∧
    (p.track call).2.requires = p.requires := by
  intro p t call
  obtain ⟨hMirrors, hAnswer, -, hLaw⟩ := tracker_consistent .initial .empty [] disorderly call
  have hCircular : (p.track call).1 =
      .error (.circular [⟨[.name "a.gar"]⟩, ⟨[.name "c.gar"]⟩, ⟨[.name "a.gar"]⟩]) := by rfl
  have hSame := hLaw.refused _ hCircular
  exact ⟨by rfl, hCircular, hMirrors, hAnswer, hSame.1, hSame.2⟩

end Sample

end CoreTree

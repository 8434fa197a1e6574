import CoreTree.Proofs.Requires.Failure

/-! # Spellings of a file

However a file is spelled, the same key stands for it. A location in normal form can be written
out as a path and read back, the directory that a request is seen from may be brought into normal
form first, and a file that a request may mean is in normal form already.
-/
namespace CoreTree
set_option autoImplicit false

/-- No part of a split holds what was split on. -/
theorem not_mem_of_mem_splitOn {a : Char} {cs part : List Char} (h : part ∈ cs.splitOn a) :
    a ∉ part := by
  induction cs generalizing part with
  | nil =>
    rw [List.splitOn_nil, List.mem_singleton] at h
    rw [h]
    exact List.not_mem_nil
  | cons c cs ih =>
    rw [List.splitOn_cons_eq_if_modifyHead] at h
    split at h
    · obtain rfl | h := List.mem_cons.mp h
      · exact List.not_mem_nil
      · exact ih h
    · rename_i hc
      obtain ⟨first, rest, hParts⟩ := List.exists_cons_of_ne_nil (List.splitOn_ne_nil a cs)
      rw [hParts] at h ih
      obtain rfl | h := List.mem_cons.mp h
      · exact List.not_mem_cons_of_ne_of_not_mem (fun hEq => hc (by simp [hEq])) (ih (.head _))
      · exact ih (.tail _ h)

namespace Step

/-- Text that a path can hold between two separators, and that is then read as a name. -/
structure IsName (text : String) : Prop where
  slash : '/' ∉ text.toList
  reads : ofPart? text.toList = some (.name text)

theorem isName_of_ofPart? {part : List Char} {step : Step} (hSlash : '/' ∉ part)
    (h : ofPart? part = some step) : step = .up ∨ ∃ text, step = .name text ∧ IsName text := by
  have hReads := h
  unfold ofPart? at h
  split at h
  · cases h
  · cases h
  · cases h
    exact .inl rfl
  · cases h
    refine .inr ⟨_, rfl, ?_, ?_⟩ <;> rwa [String.toList_ofList]

theorem ofPart?_of_long {part : List Char} (h : 3 ≤ part.length) :
    ofPart? part = some (.name (String.ofList part)) := by
  unfold ofPart?
  split
  · simp at h
  · simp at h
  · simp at h
  · rfl

/-- A name with an extension to it is still a name: it is too long to be `.` or `..`. -/
theorem IsName.append {text : String} (h : IsName text) (extension : String)
    (hSlash : '/' ∉ extension.toList) (hLong : 2 ≤ extension.toList.length) :
    IsName (text ++ "." ++ extension) := by
  have hParts : (text ++ "." ++ extension).toList = text.toList ++ '.' :: extension.toList := by
    simp
  have hLength : 3 ≤ (text ++ "." ++ extension).toList.length := by
    rw [hParts, List.length_append, List.length_cons]
    omega
  refine ⟨?_, ?_⟩
  · rw [hParts]
    simpa [hSlash] using h.slash
  · rw [ofPart?_of_long hLength, String.ofList_toList]

theorem IsName.ne_nil {text : String} (h : IsName text) : text.toList ≠ [] := by
  intro hNil
  have hReads := h.reads
  rw [hNil] at hReads
  cases hReads

theorem IsName.ne_dot {text : String} (h : IsName text) : text.toList ≠ ['.'] := by
  intro hDot
  have hReads := h.reads
  rw [hDot] at hReads
  cases hReads

/-- What a step other than the root and `.` is read from. -/
theorem ofPart?_text {step : Step} (hRoot : step ≠ .root) (hHere : step ≠ .here)
    (hName : ∀ text, step = .name text → IsName text) :
    ofPart? step.text.toList = some step := by
  cases step with
  | root => exact absurd rfl hRoot
  | here => exact absurd rfl hHere
  | up => rfl
  | name text => exact (hName text rfl).reads

end Step

namespace Location

variable {l : Location}

/-- Some path leads to the location: `/` and `.` stand for steps at the beginning only, and the
names are such as can stand between separators. -/
structure Spelled (l : Location) : Prop where
  root : .root ∉ l.steps.tail
  here : .here ∉ l.steps.tail
  name : ∀ text, .name text ∈ l.steps → Step.IsName text

theorem spelled_parse (path : String) : (parse path).Spelled := by
  have hSteps : ∀ step ∈ (path.toList.splitOn '/').filterMap Step.ofPart?,
      step = .up ∨ ∃ text, step = .name text ∧ Step.IsName text := by
    intro step hStep
    obtain ⟨part, hPart, hReads⟩ := List.mem_filterMap.mp hStep
    exact Step.isName_of_ofPart? (not_mem_of_mem_splitOn hPart) hReads
  have hRoot : .root ∉ (path.toList.splitOn '/').filterMap Step.ofPart? :=
    fun h => by simpa using hSteps _ h
  have hHere : .here ∉ (path.toList.splitOn '/').filterMap Step.ofPart? :=
    fun h => by simpa using hSteps _ h
  have hName : ∀ text, .name text ∈ (path.toList.splitOn '/').filterMap Step.ofPart? →
      Step.IsName text := fun text h => by simpa using hSteps _ h
  unfold parse
  dsimp only
  split
  · exact ⟨hRoot, hHere, fun text h => hName text (by simpa using h)⟩
  · exact ⟨hRoot, hHere, fun text h => hName text (by simpa using h)⟩
  · exact ⟨fun h => hRoot (List.mem_of_mem_tail h), fun h => hHere (List.mem_of_mem_tail h), hName⟩

theorem Spelled.of_sublist {m : Location} (h : l.Spelled) (hSteps : m.steps.Sublist l.steps) :
    m.Spelled where
  root hMem := h.root (hSteps.tail.subset hMem)
  here hMem := h.here (hSteps.tail.subset hMem)
  name text hMem := h.name text (hSteps.subset hMem)

/-- The parts between the separators of a path that is written out. -/
theorem splitOn_text (h : l.Spelled) (hRoot : l.steps ≠ [.root]) (hNil : l.steps ≠ []) :
    l.text.toList.splitOn '/' = l.steps.map (·.text.toList) := by
  have hText : l.text = "/".intercalate (l.steps.map Step.text) := by
    unfold text
    split
    · exact absurd (by assumption) hRoot
    · rfl
  rw [hText, String.toList_intercalate, List.map_map]
  refine List.splitOn_intercalate '/' ?_ (by simpa using hNil)
  intro part hPart
  obtain ⟨step, hStep, rfl⟩ := List.mem_map.mp hPart
  cases step with
  | root | here | up => decide
  | name text => exact (h.name text hStep).slash

theorem filterMap_ofPart?_text {steps : List Step} (hRoot : .root ∉ steps) (hHere : .here ∉ steps)
    (hName : ∀ text, .name text ∈ steps → Step.IsName text) :
    (steps.map (·.text.toList)).filterMap Step.ofPart? = steps := by
  rw [List.filterMap_map]
  refine (List.filterMap_congr fun step hStep => ?_).trans List.filterMap_some
  exact Step.ofPart?_text (fun h => hRoot (h ▸ hStep)) (fun h => hHere (h ▸ hStep))
    fun text h => hName text (h ▸ hStep)

/-- A path whose first part is empty starts with a separator, unless that part is all of it. -/
theorem eq_slash_cons_of_splitOn {cs : List Char} {parts : List (List Char)}
    (h : cs.splitOn '/' = [] :: parts) (hParts : parts ≠ []) : ∃ rest, cs = '/' :: rest := by
  cases cs with
  | nil => exact absurd (List.cons.inj h).2.symm hParts
  | cons c cs =>
    rw [List.splitOn_cons_eq_if_modifyHead] at h
    split at h
    · rename_i hc
      exact ⟨cs, by rw [eq_of_beq hc]⟩
    · obtain ⟨first, rest, hSplit⟩ := List.exists_cons_of_ne_nil (List.splitOn_ne_nil '/' cs)
      rw [hSplit] at h
      cases h

theorem ne_slash_cons_of_splitOn {cs part : List Char} {parts : List (List Char)}
    (h : cs.splitOn '/' = part :: parts) (hPart : part ≠ []) (rest : List Char) :
    cs ≠ '/' :: rest := by
  rintro rfl
  rw [List.splitOn_cons_eq_if_modifyHead, if_pos (by rfl)] at h
  exact hPart (List.cons.inj h).1.symm

/-- A location that is written out as a path is read back. -/
theorem parse_text (h : l.Spelled) : parse l.text = l := by
  obtain ⟨steps⟩ := l
  cases steps with
  | nil => rfl
  | cons first rest =>
    by_cases hOnly : first :: rest = [.root]
    · rw [hOnly]
      rfl
    have hParts := splitOn_text h hOnly (List.cons_ne_nil _ _)
    have hRest := filterMap_ofPart?_text h.root h.here
      fun text hText => h.name text (List.mem_cons_of_mem _ hText)
    rw [List.tail_cons] at hRest
    rw [List.map_cons] at hParts
    unfold parse
    dsimp only
    cases first with
    | root =>
      have hMany : rest.map (·.text.toList) ≠ [] := by
        simpa using hOnly
      obtain ⟨cs, hText⟩ := eq_slash_cons_of_splitOn hParts hMany
      rw [hParts, hText]
      exact congrArg (fun steps => Location.mk (.root :: steps)) hRest
    | here =>
      have hSlash := ne_slash_cons_of_splitOn hParts (by decide)
      rw [hParts]
      split
      · exact absurd (by assumption) (hSlash _)
      · exact congrArg (fun steps => Location.mk (.here :: steps)) hRest
      · simp_all [Step.text]
    | up =>
      have hSlash := ne_slash_cons_of_splitOn hParts (by decide)
      rw [hParts]
      split
      · exact absurd (by assumption) (hSlash _)
      · simp_all [Step.text]
      · exact congrArg (fun steps => Location.mk (.up :: steps)) hRest
    | name text =>
      have hName := h.name text (List.mem_cons_self)
      have hSlash := ne_slash_cons_of_splitOn hParts hName.ne_nil
      rw [hParts]
      split
      · exact absurd (by assumption) (hSlash _)
      · exact absurd (List.cons.inj (by assumption)).1 hName.ne_dot
      · show Location.mk (List.filterMap _ (text.toList :: _)) = _
        rw [List.filterMap_cons_some hName.reads, hRest]

/-! ## Normal forms -/

theorem Resolved.here_not_mem {done : List Step} (h : Resolved done) : .here ∉ done := by
  induction h with
  | nil => exact List.not_mem_nil
  | root _ ih | name _ _ ih | up _ _ ih => simpa using ih

/-- Below a `..` that is kept there is nothing but `..`. -/
theorem Resolved.eq_up {done newer older : List Step} (h : Resolved done)
    (hDone : done = newer ++ .up :: older) : ∀ step ∈ older, step = .up := by
  induction h generalizing newer older with
  | nil => exact absurd hDone.symm (by simp)
  | root _ ih | name _ _ ih =>
    cases newer with
    | nil => cases hDone
    | cons step newer => exact ih (List.cons.inj hDone).2
  | @up done hRest hUp ih =>
    cases newer with
    | cons step newer => exact ih (List.cons.inj hDone).2
    | nil =>
      obtain rfl := (List.cons.inj hDone).2
      cases done with
      | nil => exact fun _ h => absurd h List.not_mem_nil
      | cons step rest =>
        obtain rfl : step = .up := by simpa using hUp
        intro other hOther
        obtain rfl | hOther := List.mem_cons.mp hOther
        · rfl
        · exact @ih [] rest rfl other hOther

theorem eq_up_of_normal {before after : List Step} (h : l.normal.steps = before ++ .up :: after) :
    ∀ step ∈ before, step = .up := by
  have hDone := congrArg List.reverse h
  rw [List.reverse_append, List.reverse_cons, List.append_assoc] at hDone
  intro step hStep
  exact (resolved_normal l).eq_up hDone step (List.mem_reverse.mpr hStep)

theorem normal_normal (l : Location) : l.normal.normal = l.normal :=
  normal_eq_self (resolved_normal l)

theorem resolve_sublist (done : List Step) (step : Step) :
    (resolve done step).reverse.Sublist (done.reverse ++ [step]) := by
  rw [← List.reverse_cons, List.reverse_sublist]
  cases step with
  | here => exact List.sublist_cons_self _ _
  | root | name text => exact List.Sublist.refl _
  | up =>
    cases done with
    | nil => exact List.Sublist.refl _
    | cons last done =>
      cases last with
      | name text => exact (List.sublist_cons_self _ _).trans (List.sublist_cons_self _ _)
      | root => exact List.sublist_cons_self _ _
      | here | up => exact List.Sublist.refl _

theorem foldl_resolve_sublist (steps done : List Step) :
    (steps.foldl resolve done).reverse.Sublist (done.reverse ++ steps) := by
  induction steps generalizing done with
  | nil => simp
  | cons step steps ih =>
    have hAll := (ih (resolve done step)).trans ((resolve_sublist done step).append_right steps)
    rwa [List.append_assoc] at hAll

theorem Spelled.normal (h : l.Spelled) : l.normal.Spelled :=
  h.of_sublist (foldl_resolve_sublist l.steps [])

/-! ## Directories -/

theorem foldl_resolve_filter (steps done : List Step) :
    (steps.filter (· != .here)).foldl resolve done = steps.foldl resolve done := by
  rw [List.foldl_filter]
  congr
  funext done step
  cases step <;> rfl

theorem normal_join_of_relative {base rel : Location} (hRel : rel.isAbsolute = false) :
    (base.join rel).normal = ⟨(rel.steps.foldl resolve (base.steps.foldl resolve [])).reverse⟩ := by
  unfold join
  split
  · rename_i hEmpty
    have hNil : base.steps = [] := by simpa [hRel] using hEmpty
    rw [hNil]
    rfl
  · rw [Location.normal, List.foldl_append, foldl_resolve_filter]

/-- The directory that a path is joined to may be brought into normal form first. -/
theorem normal_join (base rel : Location) :
    (base.join rel).normal = (base.normal.join rel).normal := by
  cases hRel : rel.isAbsolute with
  | true => simp [join, hRel]
  | false =>
    rw [normal_join_of_relative hRel, normal_join_of_relative hRel]
    show _ = Location.mk (rel.steps.foldl resolve (base.normal.steps.foldl resolve [])).reverse
    have hBase := foldl_resolve_reverse (resolved_foldl base.steps .nil)
    rw [Location.normal, hBase]

theorem parent?_normal {file : Location} {text : String}
    (h : file.steps.getLast? = some (.name text)) :
    ∃ directory, file.parent? = some directory ∧ file.normal.parent? = some directory.normal := by
  obtain ⟨steps, hSteps⟩ := List.getLast?_eq_some_iff.mp h
  have hNormal : file.normal.steps = (steps.foldl resolve []).reverse ++ [.name text] := by
    rw [Location.normal, hSteps, List.foldl_append]
    exact List.reverse_cons
  refine ⟨⟨steps⟩, ?_, ?_⟩
  · simp [parent?, hSteps]
  · unfold parent?
    rw [hNormal]
    simp [Location.normal]

theorem Spelled.join {base rel : Location} (hBase : base.Spelled) (hRel : rel.Spelled) :
    (base.join rel).Spelled := by
  unfold Location.join
  split
  · exact hRel
  · rename_i h
    obtain ⟨hRelative, hSome⟩ : rel.isAbsolute = false ∧ base.steps ≠ [] := by simpa using h
    have hRoot : .root ∉ rel.steps := by
      intro hMem
      cases hSteps : rel.steps with
      | nil => simp [hSteps] at hMem
      | cons step steps =>
        have hTail := hRel.root
        simp_all [isAbsolute]
    refine ⟨?_, ?_, ?_⟩
    · rw [List.tail_append_of_ne_nil hSome]
      simpa [hRoot] using hBase.root
    · rw [List.tail_append_of_ne_nil hSome]
      simpa using hBase.here
    · intro text hText
      obtain hText | hText := List.mem_append.mp hText
      · exact hBase.name text hText
      · exact hRel.name text (List.mem_of_mem_filter hText)

theorem Spelled.parent {directory : Location} (h : l.Spelled)
    (hParent : l.parent? = some directory) : directory.Spelled := by
  unfold parent? at hParent
  split at hParent
  · cases hParent
  · cases hParent
  · cases hParent
    exact h.of_sublist (List.dropLast_sublist _)

theorem Spelled.withExtension (h : l.Spelled) : (l.withExtension sourceExtension).Spelled := by
  unfold Location.withExtension
  split
  · rename_i text hLast
    split
    · exact h
    · obtain ⟨steps, hSteps⟩ := List.getLast?_eq_some_iff.mp hLast
      have hText := (h.name text (hSteps ▸ List.mem_append_right _ (.head _))).append
        sourceExtension (by decide) (by decide)
      obtain ⟨hRoot, hHere, hName⟩ := h
      rw [hSteps] at hRoot hHere hName
      rw [hSteps, List.dropLast_concat]
      refine ⟨?_, ?_, ?_⟩
      · cases steps <;> simp_all
      · cases steps <;> simp_all
      · intro other hOther
        obtain hOther | hOther := List.mem_append.mp hOther
        · exact hName other (List.mem_append_left _ hOther)
        · cases List.mem_singleton.mp hOther
          exact hText
  · exact h

end Location

/-! ## Candidates -/

theorem Location.Spelled.locate {directory : Location} (h : directory.Spelled)
    (requested : String) :
    (locate directory requested).Spelled :=
  (h.join (spelled_parse requested)).normal.withExtension

/-- A file that a request may mean can be written out and read back. -/
theorem Location.Spelled.candidate {requested : String} {requestedFrom : Option Location}
    {searchPaths : List Location} {file : Location}
    (hFrom : ∀ l ∈ requestedFrom, l.Spelled) (hSearch : ∀ l ∈ searchPaths, l.Spelled)
    (h : file ∈ candidates requested requestedFrom searchPaths) : file.Spelled := by
  unfold candidates at h
  split at h
  · rw [List.mem_singleton.mp h]
    refine Location.Spelled.locate ?_ requested
    cases hDirectory : requestedFrom.bind Location.parent? with
    | none => exact spelled_parse ""
    | some directory =>
      obtain ⟨l, hl, hParent⟩ := Option.bind_eq_some_iff.mp hDirectory
      exact (hFrom l hl).parent hParent
  · obtain ⟨directory, hDirectory, rfl⟩ := List.mem_map.mp h
    exact (hSearch directory hDirectory).locate requested

theorem locate_normal (directory : Location) (requested : String) :
    locate directory.normal requested = locate directory requested := by
  rw [locate, locate, ← Location.normal_join]

/-- Where a request leads does not depend on the spelling of the file that asks. -/
theorem candidates_normal {file : Location} {text : String}
    (h : file.steps.getLast? = some (.name text)) (requested : String)
    (searchPaths : List Location) :
    candidates requested (some file.normal) searchPaths =
      candidates requested (some file) searchPaths := by
  obtain ⟨directory, hParent, hNormal⟩ := Location.parent?_normal h
  unfold candidates
  split
  · simp [hParent, hNormal, locate_normal]
  · rfl

theorem Program.resolve_finish {p : Program} {requested : String}
    {requestedFrom : Option SourcePath} {file : Location} {content : Content}
    (h : p.find? requested requestedFrom = some (file, content)) :
    (p.finish file).resolve requested requestedFrom = (.ok none, p.finish file) := by
  have hFind : (p.finish file).find? requested requestedFrom = some (file, content) := h
  refine resolve_of_loaded hFind ?_
  show file ∈ p.requires.loaded.insert file.normal
  rw [(find?_eq_some h).1]
  exact List.mem_insert_self

/-- A file has one key. A normal form has no `.`, and `..` only at its beginning; it is its own
normal form, also when it is written out and read again. Neither the spelling of a directory that a
path is joined to nor that of the file that asks makes a difference, and every file that a request
may mean is in normal form with its extension on. So whether such a file is loaded is asked under
the key that finishing it marks, under whatever spelling it is finished or asked for, and after that
the request that found it is answered with nothing. -/
theorem file_keys_canonical :
    (∀ l : Location, .here ∉ l.normal.steps ∧
      (∀ before after, l.normal.steps = before ++ .up :: after → ∀ step ∈ before, step = .up) ∧
      l.normal.normal = l.normal) ∧
    (∀ path, Location.parse (Location.parse path).normal.text = (Location.parse path).normal) ∧
    (∀ base rel : Location, (base.join rel).normal = (base.normal.join rel).normal) ∧
    (∀ (file : Location) text, file.steps.getLast? = some (.name text) →
      ∀ requested searchPaths, candidates requested (some file) searchPaths =
        candidates requested (some file.normal) searchPaths) ∧
    (∀ requested requestedFrom searchPaths, ∀ file ∈ candidates requested requestedFrom searchPaths,
      file.normal = file) ∧
    (∀ requested requestedFrom directories, ∀ file ∈ candidates requested
      (Option.map Location.parse requestedFrom) (List.map Location.parse directories),
      Location.parse file.text = file) ∧
    ∀ (p : Program) requested requestedFrom file content,
      p.find? requested requestedFrom = some (file, content) →
      ∀ spelling : Location, spelling.normal = file →
        p.isLoaded spelling = p.requires.isLoaded file ∧
        p.finish spelling = { p with requires := p.requires.finish file } ∧
        (p.finish spelling).isLoaded spelling = true ∧
        (p.finish spelling).resolve requested requestedFrom = (.ok none, p.finish spelling) := by
  refine ⟨fun l => ⟨?_, fun _ _ h => l.eq_up_of_normal h, l.normal_normal⟩,
    fun path => Location.parse_text (Location.spelled_parse path).normal, Location.normal_join,
    fun file text h requested searchPaths => (candidates_normal h requested searchPaths).symm,
    fun requested requestedFrom searchPaths file h => normal_of_mem_candidates h, ?_, ?_⟩
  · intro hHere
    exact (Location.resolved_normal l).here_not_mem (List.mem_reverse.mpr hHere)
  · intro requested requestedFrom directories file h
    refine Location.parse_text (Location.Spelled.candidate ?_ ?_ h)
    · intro l hl
      obtain ⟨path, -, rfl⟩ := Option.map_eq_some_iff.mp hl
      exact Location.spelled_parse path
    · intro l hl
      obtain ⟨path, -, rfl⟩ := List.mem_map.mp hl
      exact Location.spelled_parse path
  · rintro p requested requestedFrom file content h spelling rfl
    have hFinish : p.finish spelling = p.finish spelling.normal := by
      unfold Program.finish
      rw [Location.normal_normal]
    refine ⟨rfl, rfl, (Tracker.isLoaded_finish _ _ _).mpr (.inl rfl), ?_⟩
    rw [hFinish]
    exact Program.resolve_finish h

namespace Sample

/-- A roundabout way to write `src/main.gar`. -/
def roundabout : SourcePath := .parse "src/./app/../main.gar"

def libraryFile : Location := ⟨[.name "lib", .name "util.gar"]⟩

def withLibrary : Program :=
  .init .initial (Loader.empty.addTree libraryFile (.seq .nowhere [])) []

theorem roundabout_keys :
    roundabout.location.steps.getLast? = some (.name "main.gar") ∧
    candidates "../lib/util" (some roundabout.location) [] =
      candidates "../lib/util" (some (.parse "src/main.gar")) [] ∧
    libraryFile ∈ candidates "../lib/util" (some roundabout.location) [] ∧
    libraryFile.normal = libraryFile ∧
    Location.parse libraryFile.text = libraryFile ∧
    withLibrary.find? "../lib/util" (some roundabout) =
      some (libraryFile, .tree (.seq .nowhere [])) ∧
    withLibrary.isLoaded libraryFile = false ∧
    ((withLibrary.finish (.parse "lib/x/../util.gar")).resolve "../lib/util" (some roundabout)).1 =
      .ok none := by
  obtain ⟨-, -, -, hAsks, hNormal, hText, hKey⟩ := file_keys_canonical
  have hLast : roundabout.location.steps.getLast? = some (.name "main.gar") := by rfl
  have hMem : libraryFile ∈ candidates "../lib/util" (some roundabout.location) [] := .head _
  have hFind : withLibrary.find? "../lib/util" (some roundabout) =
      some (libraryFile, .tree (.seq .nowhere [])) := by rfl
  exact ⟨hLast, hAsks _ _ hLast _ _, hMem, hNormal _ _ _ _ hMem,
    hText "../lib/util" (some "src/./app/../main.gar") [] _ hMem, hFind, rfl,
    congrArg Prod.fst (hKey _ _ _ _ _ hFind (.parse "lib/x/../util.gar") rfl).2.2.2⟩

end Sample

end CoreTree

import CoreTree.Proofs.CoreForm.OfNode
import CoreTree.Proofs.Normal.History
import CoreTree.Proofs.Reads.Unbound
import CoreTree.Proofs.Renaming.OfNode
import CoreTree.Proofs.Types.Registry

/-! # Normalization and what came before

What a program has been used for shows in its registries alone: in how far the temporaries are
counted, and in which constants and types there are. So the same tree is normalized to the same
result, whatever was normalized before it, up to the symbols and numbers that the registries give
out.
-/
namespace CoreTree
set_option autoImplicit false

/-- The tree is in the program from a source file: none of its names is reserved, it mentions no
type, and it requires no file. -/
structure Node.PlainIn (root : Node) (p : Program) : Prop where
  names : ∀ x, root.HasName x → p.names.Own x
  texts : ∀ x, root.HasText x → (p.names.text? x).isSome
  types : root.NoTypes
  requires : ∀ path, ¬ root.Requests path

/-- Only trees from source files have been normalized. -/
abbrev Program.PlainHistory (p : Program) (trees : List Node) : Prop :=
  p.History (fun p root => root.PlainIn p) (fun _ => True) trees

variable {p p' q q' : Program} {root : Node} {rename : Symbol → Symbol}

namespace Pairing

/-! ## A tree in two programs -/

/-- Two programs with a tree whose symbols in one are renamed to those in the other. -/
def ofTree (p p' : Program) (root : Node)
    (increasing : Increasing rename {x | root.HasName x}) : Pairing where
  first := p.temps
  second := p'.temps
  rename := rename
  names := {x | root.HasName x}
  texts := {x | root.HasText x}
  increasing := increasing

variable {hIncreasing : Increasing rename {x | root.HasName x}}

theorem covers_ofTree (h : root.PlainIn p) : (ofTree p p' root hIncreasing).Covers root :=
  fun m hm =>
    { names := fun _ hx => ⟨m, hm, hx⟩
      texts := fun _ hx => ⟨m, hm, hx⟩
      types := fun s type hEq => h.types s type (hEq ▸ hm)
      requires := fun s path hEq => h.requires path ⟨s, hEq ▸ hm⟩ }

theorem level_ofTree (h : root.PlainIn p) (hKeyed : p.Keyed) (hKeyed' : p'.Keyed)
    (hSpelled : ∀ x, root.HasName x ∨ root.HasText x →
      p'.names.text? (rename x) = p.names.text? x) :
    (ofTree p p' root hIncreasing).Level p p' where
  temps := ⟨0, rfl, rfl⟩
  keyed := hKeyed
  keyed' := hKeyed'
  names x hx :=
    let ⟨name, hText, hOwn⟩ := h.names x hx
    ⟨name, hText, (hSpelled x (.inl hx)).trans hText, hOwn⟩
  texts x hx :=
    let ⟨text, hText⟩ := Option.isSome_iff_exists.mp (h.texts x hx)
    ⟨text, hText, (hSpelled x (.inr hx)).trans hText⟩

/-! ## The results -/

variable {P : Pairing}

/-- What normalizing a tree comes to in two programs. -/
def SameNormal (P : Pairing) (p p' : Program) :
    Except NormalizeFailure Node × Program → Except NormalizeFailure Node × Program → Prop
  | (.error e, q), (.error e', q') => P.Reaches p p' q q' ∧ e' = e
  | (.ok n, q), (.ok n', q') => P.Reaches p p' q q' ∧ P.Same Node.rename q q' n n'
  | _, _ => False

theorem SameNormal.reaches {r r' : Except NormalizeFailure Node × Program}
    (h : P.SameNormal p p' r r') : P.Reaches p p' r.2 r'.2 := by
  obtain ⟨_ | _, _⟩ := r <;> obtain ⟨_ | _, _⟩ := r' <;> first | exact h.1 | exact h.elim

end Pairing

theorem Pairing.Level.normalize {P : Pairing} (hLevel : P.Level p p') (hCovers : P.Covers root)
    (hTypes : p.types.coreFault? = none) (hTypes' : p'.types.coreFault? = none)
    (file file' : Option SourcePath) :
    P.SameNormal p p' (p.normalize file root) (p'.normalize file' (root.rename P.toRenaming)) := by
  have hTwins : P.TwinsAt (answerRequire p.loader.files.length file)
      (answerRequire p'.loader.files.length file') p p' root := hCovers.twins hLevel
  have hRuns := hTwins.node ⟨p, .empty⟩ ⟨p', .empty⟩ hLevel.refl SymbolMap.renamed_empty
  rw [Program.normalize_eq_run hTypes, Program.normalize_eq_run hTypes']
  revert hRuns
  generalize EStateM.run _ _ = r
  generalize EStateM.run _ _ = r'
  rintro (⟨hReaches, -, hNode⟩ | hReaches)
  · exact ⟨hReaches, hNode⟩
  · exact ⟨hReaches, rfl⟩

namespace Program

/-! ## Along a history -/

theorem Extends.nodup (h : p.Extends q) (hNodup : q.names.names.Nodup) : p.names.names.Nodup := by
  refine List.nodup_iff_getElem?_ne_getElem?.mpr fun i j hLt hj hEq => ?_
  have hText := List.getElem?_eq_getElem hj
  have hi := h.names ⟨i⟩ _ (hEq.trans hText)
  have hj := h.names ⟨j⟩ _ hText
  exact absurd (congrArg Symbol.id (SymbolTable.symbol_unique hNodup hi hj)) (Nat.ne_of_lt hLt)

theorem extends_normalize (hTypes : p.types.coreFault? = none) (file : Option SourcePath)
    (hFree : ∀ path, ¬ root.Requests path) : p.Extends (p.normalize file root).2 := by
  have hFollows := Node.walks (answerRequire p.loader.files.length file)
    (Node.everywhere_of_not_requests hFree) ⟨p, .empty⟩
  rw [normalize_eq_run hTypes]
  cases hRun : (root.pending (answerRequire p.loader.files.length file)).run.run ⟨p, .empty⟩ with
  | ok o st =>
    rw [run_node_of_ok hRun]
    exact (hFollows.ok o st hRun).1
  | error e st =>
    rw [run_node_of_error hRun]
    exact (hFollows.error e st hRun).1

/-- The registries stay in order: the tree is set against itself, in the same program. -/
theorem Keyed.normalize (h : p.Keyed) (hTypes : p.types.coreFault? = none)
    (file : Option SourcePath) (hRoot : root.PlainIn p) : (p.normalize file root).2.Keyed := by
  have hSame : Increasing id {x | root.HasName x} := fun _ _ _ _ => id
  have hLevel : (Pairing.ofTree p p root hSame).Level p p :=
    Pairing.level_ofTree hRoot h h fun _ _ => rfl
  have hNormal := hLevel.normalize (Pairing.covers_ofTree hRoot) hTypes hTypes file file
  exact hNormal.reaches.level.keyed

theorem Keyed.init {names : SymbolTable} (h : names.names.Nodup) (loader : Loader)
    (searchPaths : List SourcePath) : (Program.init names loader searchPaths).Keyed where
  names := h
  types := List.nodup_nil
  texts := List.nodup_nil
  constants _ _ hc := nomatch hc

theorem Keyed.intern (h : p.Keyed) (name : String) : (p.intern name).2.Keyed where
  names := SymbolTable.nodup_intern h.names name
  types := h.types
  texts := h.texts
  constants k c hc := SymbolTable.text?_of_prefix (p.names.prefix_intern name) (h.constants k c hc)

section

variable {admitted : Program → Node → Prop} {loads : Loader → Prop} {trees : List Node}

theorem History.coreFault? (h : p.History admitted loads trees) : p.types.coreFault? = none := by
  induction h with
  | start => rfl
  | intern _ _ ih | reload _ _ ih => exact ih
  | normalize _ _ file ih => exact coreFault?_normalize ih file _
  | normalizeFile _ _ file ih => exact coreFault?_normalizeFile ih file _

/-- As long as no string has two symbols, nothing is registered twice. -/
theorem History.keyed (h : p.PlainHistory trees) (hNodup : p.names.names.Nodup) : p.Keyed := by
  induction h with
  | start => exact .init hNodup _ _
  | @intern p trees h name ih =>
    have hPrefix := p.names.prefix_intern name
    exact (ih (hNodup.sublist hPrefix.sublist)).intern name
  | reload _ _ ih => exact (ih hNodup).of_same rfl rfl rfl
  | normalize h hRoot file ih =>
    have hTypes := h.coreFault?
    have hBefore := (extends_normalize hTypes file hRoot.requires).nodup hNodup
    exact (ih hBefore).normalize hTypes file hRoot
  | @normalizeFile p trees root h hRoot file ih =>
    obtain hSame | ⟨requires, requires', hEq⟩ := p.exists_snd_normalizeFile file root
    · rw [hSame] at hNodup ⊢
      exact ih hNodup
    · rw [hEq] at hNodup ⊢
      let begun : Program := { p with requires }
      have hTypes : begun.types.coreFault? = none := h.coreFault?
      have hRoot' : root.PlainIn begun :=
        ⟨hRoot.names, hRoot.texts, hRoot.types, hRoot.requires⟩
      have hBefore := (extends_normalize hTypes (some file) hRoot.requires).nodup hNodup
      have hBegun : begun.Keyed := (ih hBefore).of_same rfl rfl rfl
      exact (hBegun.normalize hTypes (some file) hRoot').of_same rfl rfl rfl

end

end Program

/-! ## One renaming -/

/-- The renaming takes the names of a program that has come of `p` to those of a program that has
come of `p'`. It is one to one. Names that are not reserved are spelled as before. The temporaries
since `p` become those since `p'`, in order, and constants become constants of the same regex. -/
structure Renaming.Links (g : Renaming) (p q p' q' : Program) : Prop where
  bijective : Function.Bijective g.name
  common : ∀ x : Symbol, x.id < commonNames.length → g.name x = x
  own : ∀ x x' name, q.names.text? x = some name → q'.names.text? x' = some name →
    name.toList.head? ≠ some '#' → g.name x = x'
  temps : p'.tempsTo q' = (p.tempsTo q).map g.name
  constants : ∀ c ∈ q.constants, ∀ c' ∈ q'.constants, ∀ regex,
    q.names.text? c.text = some regex → q'.names.text? c'.text = some regex →
      g.name c.name = c'.name

namespace Pairing

variable {P : Pairing} {g : Renaming}

theorem Fits.tempsTo (hFits : P.Fits q q' g) (hFirst : P.first = p.temps)
    (hSecond : P.second = p'.temps) (hReaches : P.Reaches p p' q q') :
    p'.tempsTo q' = (p.tempsTo q).map g.name := by
  obtain ⟨count, hTemps, hTemps'⟩ := hReaches.level.temps
  have hCount : q.temps - p.temps = count := by omega
  have hCount' : q'.temps - p'.temps = count := by omega
  simp only [Program.tempsTo, hCount, hCount', List.range'_eq_map_range, List.map_map]
  refine List.map_congr_left fun k hk => ?_
  have hLt := List.mem_range.mp hk
  have hText := Program.text?_temp (hReaches.first.made (p.temps + 1 + k) (by omega) (by omega))
  have hText' := Program.text?_temp (hReaches.second.made (p'.temps + 1 + k) (by omega) (by omega))
  refine (hFits.names _ _ (.temp (k := k) ?_ ?_)).symm
  · rw [hFirst, Nat.add_right_comm]
    exact hText
  · rw [hSecond, Nat.add_right_comm]
    exact hText'

theorem Fits.links (hFits : P.Fits q q' g) (hBijective : Function.Bijective g.name)
    (hFirst : P.first = p.temps) (hSecond : P.second = p'.temps)
    (hReaches : P.Reaches p p' q q') : g.Links p q p' q' where
  bijective := hBijective
  common _ hx := hFits.common hx
  own x x' _ hText hText' hOwn := hFits.names x x' (.own hText hText' hOwn)
  temps := hFits.tempsTo hFirst hSecond hReaches
  constants _ hc _ hc' _ hText hText' := hFits.names _ _ (.constant hc hc' hText hText')

/-- Names have to go where they correspond. Literals may go the same way if none is reserved. -/
theorem Reaches.exists_fits (hReaches : P.Reaches p p' q q') :
    ∃ g, P.Fits q q' g ∧ Function.Bijective g.name ∧
      ((∀ x ∈ P.texts, p.names.Own x) → g.text = g.name) := by
  have hLevel := hReaches.level
  obtain ⟨name, hName⟩ := Program.exists_perm_of_keyed hLevel.keyed hLevel.keyed' P.first P.second
  obtain ⟨text, hText, hOne⟩ : ∃ text : Symbol → Symbol, (∀ x ∈ P.texts, text x = P.rename x) ∧
      ((∀ x ∈ P.texts, p.names.Own x) → text = name) := by
    by_cases hOwn : ∀ x ∈ P.texts, p.names.Own x
    · refine ⟨name, fun x hx => ?_, fun _ => rfl⟩
      obtain ⟨_, hOld, hFree⟩ := hOwn x hx
      obtain ⟨_, hText, hText'⟩ := hLevel.texts x hx
      obtain rfl := Option.some.inj ((hReaches.first.text? hOld).symm.trans hText)
      exact hName x _ (.own hText hText' hFree)
    · exact ⟨P.rename, fun _ _ => rfl, fun h => absurd h hOwn⟩
  obtain ⟨type, hFits⟩ := exists_type hLevel.keyed' hName hText
  exact ⟨⟨name, text, type⟩, hFits, name.bijective, hOne⟩

end Pairing

/-- Normalization does not depend on what was normalized before. Two programs may have come about in
different ways, with other temporaries, constants and types, and may give the names of a tree other
symbols, in the same order. Then the tree either fails in both with the same error, or it normalizes
in both, and the results are the same up to one renaming of names, which is one to one. Literals
keep their texts; the same renaming does this too, unless one of the texts is reserved. Types may
have other numbers. They have the same content, and so have the types that it mentions. -/
theorem Program.normalize_forgets_history {trees trees' : List Node} (h : p.PlainHistory trees)
    (h' : p'.PlainHistory trees') (hNodup : p.names.names.Nodup)
    (hNodup' : p'.names.names.Nodup) (hRoot : root.PlainIn p)
    (hSpelled : ∀ x, root.HasName x ∨ root.HasText x →
      p'.names.text? (rename x) = p.names.text? x)
    (hIncreasing : ∀ x y, root.HasName x → root.HasName y → x.id < y.id →
      (rename x).id < (rename y).id)
    (file file' : Option SourcePath) :
    match p.normalize file root, p'.normalize file' (root.rename ⟨rename, rename, id⟩) with
    | (.error e, _), (.error e', _) => e' = e
    | (.ok n, q), (.ok n', q') => ∃ g : Renaming, g.Links p q p' q' ∧
      (∀ x, root.HasText x → g.text x = rename x) ∧
      ((∀ x, root.HasText x → p.names.Own x) → g.text = g.name) ∧
      n' = n.rename g ∧ ∀ k ∈ n.generics, SameType g.name g.text q.types q'.types k (g.type k)
    | _, _ => False := by
  let P := Pairing.ofTree p p' root fun x hx y hy => hIncreasing x y hx hy
  have hLevel : P.Level p p' :=
    Pairing.level_ofTree hRoot (h.keyed hNodup) (h'.keyed hNodup') hSpelled
  have hNormal := hLevel.normalize (Pairing.covers_ofTree hRoot) h.coreFault? h'.coreFault?
    file file'
  change P.SameNormal p p' _ (p'.normalize file' (root.rename ⟨rename, rename, id⟩)) at hNormal
  revert hNormal
  generalize p.normalize file root = r
  generalize p'.normalize file' _ = r'
  obtain ⟨_ | n, q⟩ := r <;> obtain ⟨_ | n', q'⟩ := r'
  case error.error => exact And.right
  case ok.ok =>
    rintro ⟨hReaches, hSame⟩
    obtain ⟨g, hFits, hBijective, hOne⟩ := hReaches.exists_fits
    exact ⟨g, hFits.links hBijective rfl rfl hReaches, hFits.texts, hOne, hSame g hFits,
      Pairing.Always.generics hSame hFits⟩
  all_goals exact False.elim

namespace Sample

/-- `x = [/text/]` -/
def keeping (x text : Symbol) : Node :=
  .assign .nowhere (readVar x) (.array .nowhere [.regex .nowhere text] none)

/-- Nothing has been normalized yet. -/
def fresh : Program :=
  .init ⟨commonNames ++ ["x", "a"], List.prefix_append _ _⟩ .empty []

/-- `x = [/b/]` has been normalized. -/
def used : Program :=
  ((Program.init ⟨commonNames ++ ["b", "x", "a"], List.prefix_append _ _⟩ .empty []).normalize none
    (keeping ⟨15⟩ ⟨14⟩)).2

def shifted (x : Symbol) : Symbol := if x.id < commonNames.length then x else ⟨x.id + 1⟩

theorem has_keeping {x text : Symbol} {m : Node} (h : (keeping x text).Has m) :
    m = keeping x text ∨ m = readVar x ∨
      m = .array .nowhere [.regex .nowhere text] none ∨ m = .regex .nowhere text := by
  obtain rfl | ⟨part, hPart, h⟩ := h.cases_root
  · exact .inl rfl
  obtain rfl | rfl : part = readVar x ∨ part = .array .nowhere [.regex .nowhere text] none := by
    simpa [keeping] using hPart
  · obtain rfl | ⟨_, hPart, -⟩ := h.cases_root
    · exact .inr (.inl rfl)
    · cases hPart
  obtain rfl | ⟨part, hPart, h⟩ := h.cases_root
  · exact .inr (.inr (.inl rfl))
  obtain rfl : part = .regex .nowhere text := by simpa using hPart
  obtain rfl | ⟨_, hPart, -⟩ := h.cases_root
  · exact .inr (.inr (.inr rfl))
  · cases hPart

theorem eq_of_hasName_keeping {x y text : Symbol} (h : (keeping x text).HasName y) : y = x := by
  obtain ⟨m, h, hy⟩ := h
  obtain rfl | rfl | rfl | rfl := has_keeping h
  case inr.inl => exact List.mem_singleton.mp hy
  all_goals cases hy

theorem eq_of_hasText_keeping {x y text : Symbol} (h : (keeping x text).HasText y) : y = text := by
  obtain ⟨m, h, hy⟩ := h
  obtain rfl | rfl | rfl | rfl := has_keeping h
  case inr.inr.inr => exact List.mem_singleton.mp hy
  all_goals cases hy

theorem plainIn_keeping {p : Program} {x text : Symbol} (hx : p.names.Own x)
    (hText : (p.names.text? text).isSome) : (keeping x text).PlainIn p where
  names y hy := eq_of_hasName_keeping hy ▸ hx
  texts y hy := eq_of_hasText_keeping hy ▸ hText
  types := Node.noTypes_iff_generics.mpr rfl
  requires := by
    rintro path ⟨s, h⟩
    obtain h | h | h | h := has_keeping h <;> cases h

theorem exists_history_used : ∃ n, used.PlainHistory [n] := by
  have hStart : Program.PlainHistory
      (.init ⟨commonNames ++ ["b", "x", "a"], List.prefix_append _ _⟩ .empty []) [] :=
    .start trivial
  have hPlain : (keeping ⟨15⟩ ⟨14⟩).PlainIn
      (.init ⟨commonNames ++ ["b", "x", "a"], List.prefix_append _ _⟩ .empty []) :=
    plainIn_keeping ⟨"x", rfl, by decide⟩ rfl
  exact ⟨_, hStart.normalize hPlain none⟩

/-- The constant and the temporary have other symbols after another tree. -/
theorem keeping_forgets_history : ∃ earlier n n' q q',
    fresh.PlainHistory [] ∧ used.PlainHistory [earlier] ∧ fresh.names.names.Nodup ∧
    used.names.names.Nodup ∧ (keeping ⟨14⟩ ⟨15⟩).PlainIn fresh ∧
    fresh.normalize none (keeping ⟨14⟩ ⟨15⟩) = (.ok n, q) ∧
    used.normalize none (keeping ⟨15⟩ ⟨16⟩) = (.ok n', q') ∧
    ∃ g : Renaming, g.name ⟨16⟩ = ⟨19⟩ ∧ g.name ⟨17⟩ = ⟨20⟩ ∧ g.text = g.name ∧
      n' = n.rename g ∧ ∀ k ∈ n.generics, SameType g.name g.text q.types q'.types k (g.type k) := by
  have hFresh : fresh.PlainHistory [] := .start trivial
  obtain ⟨earlier, hUsed⟩ := exists_history_used
  have hNodup : fresh.names.names.Nodup := by decide
  have hNodup' : used.names.names.Nodup := by decide
  have hPlain : (keeping ⟨14⟩ ⟨15⟩).PlainIn fresh :=
    plainIn_keeping ⟨"x", rfl, by decide⟩ rfl
  have hSpelled : ∀ x, (keeping ⟨14⟩ ⟨15⟩).HasName x ∨ (keeping ⟨14⟩ ⟨15⟩).HasText x →
      used.names.text? (shifted x) = fresh.names.text? x := by
    rintro x (hx | hx)
    · rw [eq_of_hasName_keeping hx]
      decide
    · rw [eq_of_hasText_keeping hx]
      decide
  have hIncreasing : ∀ x y, (keeping ⟨14⟩ ⟨15⟩).HasName x → (keeping ⟨14⟩ ⟨15⟩).HasName y →
      x.id < y.id → (shifted x).id < (shifted y).id := by
    intro x y hx hy hLt
    rw [eq_of_hasName_keeping hx, eq_of_hasName_keeping hy] at hLt
    exact absurd hLt (Nat.lt_irrefl _)
  obtain ⟨n, q, hRun, hConstant, hText, hTemps⟩ : ∃ n q,
      fresh.normalize none (keeping ⟨14⟩ ⟨15⟩) = (.ok n, q) ∧
        ⟨⟨15⟩, ⟨16⟩, .nowhere⟩ ∈ q.constants ∧ q.names.text? ⟨15⟩ = some "a" ∧
          fresh.tempsTo q = [⟨17⟩] :=
    ⟨_, _, rfl, .head _, rfl, by decide⟩
  obtain ⟨n', q', hRun', hConstant', hText', hTemps'⟩ : ∃ n q,
      used.normalize none (keeping ⟨15⟩ ⟨16⟩) = (.ok n, q) ∧
        ⟨⟨16⟩, ⟨19⟩, .nowhere⟩ ∈ q.constants ∧ q.names.text? ⟨16⟩ = some "a" ∧
          used.tempsTo q = [⟨20⟩] :=
    ⟨_, _, rfl, .tail _ (.head _), rfl, by decide⟩
  have hRenamed : (keeping ⟨14⟩ ⟨15⟩).rename ⟨shifted, shifted, id⟩ = keeping ⟨15⟩ ⟨16⟩ := rfl
  have hSame := Program.normalize_forgets_history hFresh hUsed hNodup hNodup' hPlain hSpelled
    hIncreasing none none
  rw [hRenamed, hRun, hRun'] at hSame
  obtain ⟨g, hLinks, -, hOne, hNode, hTypes⟩ := hSame
  have hLiteral : ∀ x, (keeping ⟨14⟩ ⟨15⟩).HasText x → fresh.names.Own x := by
    intro x hx
    rw [eq_of_hasText_keeping hx]
    exact ⟨"a", rfl, by decide⟩
  have hMapped := hLinks.temps
  rw [hTemps, hTemps', List.map_singleton, List.singleton_inj] at hMapped
  exact ⟨earlier, n, n', q, q', hFresh, hUsed, hNodup, hNodup', hPlain, hRun, hRun', g,
    hLinks.constants _ hConstant _ hConstant' "a" hText hText', hMapped.symm, hOne hLiteral, hNode,
    hTypes⟩

end Sample

end CoreTree

import CoreTree.Proofs.Registries.Receipts

/-! # Registries with their indices

Strings and types are listed by their numbers, and constants in the order of their definitions. What
has been registered is found again through an index beside each list: a request looks into the index
alone, and what is new goes into both. Kept apart like this, list and index agree after any
requests, and answer every request as the program does, which has the lists and no index.
-/
namespace CoreTree
set_option autoImplicit false

/-! ## One list and its index -/

/-- Entries in the order in which they came, and an index from each to its position. -/
structure Register (α : Type) where
  entries : List α
  index : List (α × Nat)

namespace Register

variable {α : Type} [DecidableEq α] {r : Register α} {l : List α}

def empty : Register α := ⟨[], []⟩

def add (r : Register α) (a : α) : Register α :=
  ⟨r.entries ++ [a], (a, r.entries.length) :: r.index⟩

/-- The position of an entry, which is added if the index does not have it. -/
def intern (r : Register α) (a : α) : Nat × Register α :=
  match r.index.lookup a with
  | some i => (i, r)
  | none => (r.entries.length, r.add a)

/-- The entries are those of the list, and the index is the inverse of it. -/
structure Mirrors (r : Register α) (l : List α) : Prop where
  entries : r.entries = l
  index : ∀ a i, r.index.lookup a = some i ↔ l[i]? = some a

theorem mirrors_empty : (empty : Register α).Mirrors [] := ⟨rfl, fun _ _ => by simp [empty]⟩

/-- An index finds what a search through the list would find. -/
theorem Mirrors.lookup_eq (h : r.Mirrors l) (a : α) : r.index.lookup a = l.idxOf? a := by
  cases hIndex : l.idxOf? a with
  | none =>
    refine Option.eq_none_iff_forall_ne_some.mpr fun i hi => ?_
    exact List.idxOf?_eq_none_iff.mp hIndex (List.mem_of_getElem? ((h.index a i).mp hi))
  | some i =>
    obtain ⟨hLt, hEq, -⟩ := List.idxOf?_eq_some_iff.mp hIndex
    exact (h.index a i).mpr (List.getElem?_eq_some_iff.mpr ⟨hLt, hEq⟩)

theorem Mirrors.add (h : r.Mirrors l) {a : α} (hNew : a ∉ l) : (r.add a).Mirrors (l ++ [a]) := by
  obtain ⟨rfl, hIndex⟩ := h
  refine ⟨rfl, fun b i => ?_⟩
  have hLast : (r.entries ++ [a])[i]? = some b ↔
      r.entries[i]? = some b ∨ i = r.entries.length ∧ b = a := by
    grind
  rw [hLast, Register.add, List.lookup_cons]
  cases hEq : b == a with
  | true =>
    obtain rfl := beq_iff_eq.mp hEq
    have hOff : r.entries[i]? ≠ some b := fun hOld => hNew (List.mem_of_getElem? hOld)
    simp [hOff, eq_comm]
  | false => simp [beq_eq_false_iff_ne.mp hEq, hIndex]

theorem Mirrors.intern (h : r.Mirrors l) (a : α) :
    (∃ i, l.idxOf? a = some i ∧ r.intern a = (i, r)) ∨
      l.idxOf? a = none ∧ r.intern a = (l.length, r.add a) ∧ (r.add a).Mirrors (l ++ [a]) := by
  rw [Register.intern, h.lookup_eq a]
  cases hIndex : l.idxOf? a with
  | some i => exact .inl ⟨i, rfl, rfl⟩
  | none =>
    refine .inr ⟨rfl, by rw [h.entries], h.add (List.idxOf?_eq_none_iff.mp hIndex)⟩

/-- Entries that are all new are added one after the other. -/
theorem Mirrors.internAll (h : r.Mirrors l) {new : List α} (hNodup : (l ++ new).Nodup) :
    (new.foldl (fun r a => (r.intern a).2) r).Mirrors (l ++ new) := by
  induction new generalizing r l with
  | nil => simpa using h
  | cons a new ih =>
    rw [List.append_cons] at hNodup ⊢
    refine ih ?_ hNodup
    obtain ⟨i, hIndex, -⟩ | ⟨-, hEq, hMirrors⟩ := h.intern a
    · have hMem : a ∈ l := List.mem_of_getElem? ((h.index a i).mp ((h.lookup_eq a).trans hIndex))
      exact absurd hMem (List.disjoint_singleton.mp
        (List.disjoint_of_nodup_append (List.nodup_append'.mp hNodup).1))
    · dsimp only
      rw [hEq]
      exact hMirrors

end Register

/-! ## All registries -/

structure ConstantDef where
  name : Symbol
  value : Node

def RegexConstant.definition (c : RegexConstant) : ConstantDef := ⟨c.name, c.value⟩

/-- The lists and indices of one program, side by side. The index of the constants leads from the
text of a regex to the name of its constant. -/
structure Registers where
  strings : Register String
  temps : Nat
  regexes : List (Symbol × Symbol)
  constants : List ConstantDef
  types : Register GenericType

namespace Registers

/-- The common names are registered like any others. -/
def initial : Registers where
  strings := commonNames.foldl (fun r name => (r.intern name).2) .empty
  temps := 0
  regexes := []
  constants := []
  types := .empty

def intern (t : Registers) (text : String) : Symbol × Registers :=
  let (i, strings) := t.strings.intern text
  (⟨i⟩, { t with strings })

def freshTemp (t : Registers) : Symbol × Registers :=
  { t with temps := t.temps + 1 }.intern s!"#temp_{t.temps + 1}"

def define (t : Registers) (text : Symbol) (c : ConstantDef) : Registers :=
  { t with regexes := (text, c.name) :: t.regexes, constants := t.constants ++ [c] }

/-- Constants are numbered by the size of the index. -/
def regexConstant (t : Registers) (text : Symbol) (span : Span) : Symbol × Registers :=
  match t.regexes.lookup text with
  | some name => (name, t)
  | none =>
    let (name, t) := t.intern s!"#Regexp_{t.regexes.length}"
    let (regexp, t) := t.intern "Regexp"
    let (new, t) := t.intern "new"
    let value := Node.send span (.globalConst span regexp) new [.atom span (.str text)]
    (name, t.define text ⟨name, value⟩)

def genericType (t : Registers) (base : Symbol) (args : List TypeArg) : TypeId × Registers :=
  let (i, types) := t.types.intern ⟨base, args⟩
  (⟨i⟩, { t with types })

def constant? (t : Registers) (name : Symbol) : Option ConstantDef :=
  t.constants.find? (·.name == name)

def register (t : Registers) : Registration → Receipt × Registers
  | .string text =>
    let (name, u) := t.intern text
    (.string text name, u)
  | .temp =>
    let (name, u) := t.freshTemp
    (.temp name, u)
  | .regex text span =>
    let (constant, u) := t.regexConstant text span
    (.regex text span constant, u)
  | .type base args =>
    let (id, u) := t.genericType base args
    (.type ⟨base, args⟩ id, u)

def registerAll (t : Registers) : List Registration → List Receipt × Registers
  | [] => ([], t)
  | r :: rs =>
    let (receipts, u) := (t.register r).2.registerAll rs
    ((t.register r).1 :: receipts, u)

/-- Each index agrees with its list, and the lists are those of the program. -/
structure Mirrors (t : Registers) (p : Program) : Prop where
  strings : t.strings.Mirrors p.names.names
  temps : t.temps = p.temps
  regexes : ∀ text, t.regexes.lookup text = (p.constants.find? (·.text == text)).map (·.name)
  count : t.regexes.length = p.constants.length
  constants : t.constants = p.constants.map RegexConstant.definition
  types : t.types.Mirrors p.types.types

theorem mirrors_initial (loader : Loader) (searchPaths : List SourcePath) :
    initial.Mirrors (.init .initial loader searchPaths) where
  strings := Register.mirrors_empty.internAll (by decide : commonNames.Nodup)
  temps := rfl
  regexes _ := rfl
  count := rfl
  constants := rfl
  types := Register.mirrors_empty

namespace Mirrors

variable {t : Registers} {p : Program} (h : t.Mirrors p)
include h

/-! ## One registration -/

theorem intern (text : String) : (t.intern text).1 = (p.intern text).1 ∧
    (t.intern text).2.Mirrors (p.intern text).2 := by
  unfold Registers.intern Program.intern SymbolTable.intern
  obtain ⟨i, hIndex, hEq⟩ | ⟨hIndex, hEq, hMirrors⟩ := h.strings.intern text
  · rw [hEq, hIndex]
    exact ⟨rfl, h⟩
  · rw [hEq, hIndex]
    exact ⟨rfl, { h with strings := hMirrors }⟩

theorem intern_common {s : Symbol} {name : String} (hCommon : commonNames[s.id]? = some name) :
    t.intern name = (s, t) := by
  have hLookup : t.strings.index.lookup name = some s.id :=
    (h.strings.index name s.id).mpr (p.names.text?_of_common hCommon)
  rw [Registers.intern, Register.intern, hLookup]

theorem freshTemp : t.freshTemp.1 = p.freshTemp.1 ∧ t.freshTemp.2.Mirrors p.freshTemp.2 := by
  have hNext : ({ t with temps := t.temps + 1 } : Registers).Mirrors
      { p with temps := p.temps + 1 } := { h with temps := congrArg (· + 1) h.temps }
  rw [Registers.freshTemp, Program.freshTemp, h.temps]
  rw [h.temps] at hNext
  exact hNext.intern _

theorem define {c : RegexConstant} (hNew : p.constants.find? (·.text == c.text) = none) :
    (t.define c.text c.definition).Mirrors { p with constants := p.constants ++ [c] } := by
  refine { h with regexes := fun text => ?_, count := ?_, constants := ?_ }
  · rw [Registers.define, List.lookup_cons, h.regexes text, List.find?_append]
    cases hEq : text == c.text with
    | true =>
      obtain rfl := beq_iff_eq.mp hEq
      simp [hNew, RegexConstant.definition]
    | false =>
      have hOther : (c.text == text) = false := Bool.beq_comm.trans hEq
      simp [hOther]
  · simp [Registers.define, h.count]
  · simp [Registers.define, h.constants]

theorem regexConstant (text : Symbol) (span : Span) :
    (t.regexConstant text span).1 = (p.regexConstant text span).1 ∧
      (t.regexConstant text span).2.Mirrors (p.regexConstant text span).2 := by
  unfold Registers.regexConstant Program.regexConstant
  rw [h.regexes text, h.count]
  cases hFind : p.constants.find? (·.text == text) with
  | some c => exact ⟨rfl, h⟩
  | none =>
    obtain ⟨hName, hMirrors⟩ := h.intern s!"#Regexp_{p.constants.length}"
    cases hIntern : t.intern s!"#Regexp_{p.constants.length}" with
    | mk name u =>
      rw [hIntern] at hName hMirrors
      obtain rfl : name = _ := hName
      -- every table has the common names, so asking for them adds nothing
      have hRegexp := hMirrors.intern_common (s := .regexp) rfl
      have hNew := hMirrors.intern_common (s := .newName) rfl
      simp only [Option.map_none, hRegexp, hNew, true_and]
      exact hMirrors.define (c := ⟨text, _, span⟩) hFind

theorem genericType (base : Symbol) (args : List TypeArg) :
    (t.genericType base args).1 = (p.genericType base args).1 ∧
      (t.genericType base args).2.Mirrors (p.genericType base args).2 := by
  unfold Registers.genericType Program.genericType TypePool.intern TypePool.idOf?
  obtain ⟨i, hIndex, hEq⟩ | ⟨hIndex, hEq, hMirrors⟩ := h.types.intern ⟨base, args⟩
  · rw [hEq, hIndex]
    exact ⟨rfl, h⟩
  · rw [hEq, hIndex]
    exact ⟨rfl, { h with types := hMirrors }⟩

theorem register (r : Registration) :
    (t.register r).1 = (p.register r).1 ∧ (t.register r).2.Mirrors (p.register r).2 := by
  cases r with
  | string text => exact (h.intern text).imp_left (congrArg _)
  | temp => exact h.freshTemp.imp_left (congrArg _)
  | regex text span => exact (h.regexConstant text span).imp_left (congrArg _)
  | type base args => exact (h.genericType base args).imp_left (congrArg _)

end Mirrors

/-! ## Whole runs -/

theorem Mirrors.registerAll {t : Registers} {p : Program} (h : t.Mirrors p)
    (rs : List Registration) : (t.registerAll rs).1 = (p.registerAll rs).1 ∧
      (t.registerAll rs).2.Mirrors (p.registerAll rs).2 := by
  induction rs generalizing t p with
  | nil => exact ⟨rfl, h⟩
  | cons r rs ih =>
    obtain ⟨hReceipt, hNext⟩ := h.register r
    obtain ⟨hReceipts, hLast⟩ := ih hNext
    exact ⟨congrArg₂ List.cons hReceipt hReceipts, hLast⟩

/-- After any registrations in a program that starts empty: with lists and indices apart, every
registration has had the same answer. Each index is the inverse of its list, or leads to the same
constant as a search through it, so what a name, a number or the name of a constant is looked up as
is the same too. -/
theorem agree (loader : Loader) (searchPaths : List SourcePath) (rs : List Registration) :
    let p := ((Program.init .initial loader searchPaths).registerAll rs).2
    let t := (initial.registerAll rs).2
    (initial.registerAll rs).1 = ((Program.init .initial loader searchPaths).registerAll rs).1 ∧
    t.Mirrors p ∧ (∀ s : Symbol, t.strings.entries[s.id]? = p.names.text? s) ∧
    (∀ id : TypeId, t.types.entries[id.index]? = p.types.get? id) ∧
    ∀ name, t.constant? name = (p.constant? name).map RegexConstant.definition := by
  intro p t
  obtain ⟨hReceipts, h⟩ := (mirrors_initial loader searchPaths).registerAll rs
  refine ⟨hReceipts, h, fun s => ?_, fun id => ?_, fun name => ?_⟩
  · exact congrArg (·[s.id]?) h.strings.entries
  · exact congrArg (·[id.index]?) h.types.entries
  · rw [constant?, h.constants, List.find?_map]
    rfl

end Registers

end CoreTree

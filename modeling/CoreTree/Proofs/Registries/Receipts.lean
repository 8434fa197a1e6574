import CoreTree.Proofs.Renaming.Histories

/-! # Registries over whole runs

Strings, temporaries, regexes and types may be registered in one program in any order. The receipts
of a whole run tell what was registered and which name or number it got. They never go out of date:
whatever comes later, a name or number stands for what it was given out for, equal things share one
and different things do not. Constants and types are listed in the order in which they were first
asked for.
-/
namespace CoreTree
set_option autoImplicit false

/-- What a program can be asked to register. -/
inductive Registration where
  | string (text : String)
  | temp
  | regex (text : Symbol) (span : Span)
  | type (base : Symbol) (args : List TypeArg)

/-- What was registered, and what it goes by since then. -/
inductive Receipt where
  | string (text : String) (name : Symbol)
  | temp (name : Symbol)
  | regex (text : Symbol) (span : Span) (constant : Symbol)
  | type (type : GenericType) (id : TypeId)
deriving DecidableEq

namespace Receipt

def temp? : Receipt → Option Symbol
  | .temp name => some name
  | _ => none

def request : Receipt → Registration
  | .string text _ => .string text
  | .temp _ => .temp
  | .regex text span _ => .regex text span
  | .type t _ => .type t.base t.args

def regex? : Receipt → Option Symbol
  | .regex text _ _ => some text
  | _ => none

def type? : Receipt → Option GenericType
  | .type t _ => some t
  | _ => none

end Receipt

namespace Program

def register (p : Program) : Registration → Receipt × Program
  | .string text =>
    let (name, q) := p.intern text
    (.string text name, q)
  | .temp =>
    let (name, q) := p.freshTemp
    (.temp name, q)
  | .regex text span =>
    let (constant, q) := p.regexConstant text span
    (.regex text span constant, q)
  | .type base args =>
    let (id, q) := p.genericType base args
    (.type ⟨base, args⟩ id, q)

/-- Registers one after the other, and keeps the receipts in order. -/
def registerAll (p : Program) : List Registration → List Receipt × Program
  | [] => ([], p)
  | r :: rs =>
    let (receipts, q) := (p.register r).2.registerAll rs
    ((p.register r).1 :: receipts, q)

end Program

/-- A member that comes at the end counts only if it is new. -/
theorem eraseDups_concat {α : Type} [DecidableEq α] (l : List α) (a : α) :
    (l ++ [a]).eraseDups = if a ∈ l then l.eraseDups else l.eraseDups ++ [a] := by
  rw [List.eraseDups_append]
  by_cases h : a ∈ l <;> simp [h, List.removeAll, List.eraseDups_cons]

theorem TypePool.types_intern (pool : TypePool) (t : GenericType) :
    (pool.intern t).2.types = if t ∈ pool.types then pool.types else pool.types ++ [t] := by
  unfold intern
  split
  · rename_i id hSome
    rw [if_pos (List.mem_of_getElem? (get?_of_idOf? hSome))]
  · rename_i hNone
    rw [if_neg (List.idxOf?_eq_none_iff.mp (Option.map_eq_none_iff.mp hNone))]

namespace Program

variable {first p : Program} {receipts : List Receipt}

/-! ## One registration -/

theorem grows_intern (p : Program) (text : String) : p.Grows (p.intern text).2 :=
  ⟨later_of_same rfl rfl (p.names.prefix_intern text), List.prefix_refl _, List.Subset.refl _⟩

theorem grows_register (p : Program) (r : Registration) : p.Grows (p.register r).2 := by
  cases r with
  | string text => exact p.grows_intern text
  | temp => exact p.grows_freshTemp
  | regex text span => exact p.grows_regexConstant text span
  | type base args => exact p.grows_genericType base args

theorem Keyed.register (h : p.Keyed) (r : Registration) : (p.register r).2.Keyed := by
  cases r with
  | string text => exact h.intern text
  | temp => exact h.freshTemp
  | regex text span => exact h.regexConstant text span
  | type base args => exact h.genericType base args

theorem tempsTo_register (p : Program) (r : Registration) :
    p.tempsTo (p.register r).2 = (p.register r).1.temp?.toList := by
  cases r with
  | temp => exact p.tempsTo_freshTemp
  | regex text span => exact tempsTo_of_same (p.temps_regexConstant text span)
  | string | type => exact tempsTo_of_same rfl

theorem texts_register (p : Program) (r : Registration) :
    (p.register r).2.constants.map (·.text) = match (p.register r).1.regex? with
      | none => p.constants.map (·.text)
      | some text =>
        if text ∈ p.constants.map (·.text) then p.constants.map (·.text)
        else p.constants.map (·.text) ++ [text] := by
  cases r with
  | string | temp | type => rfl
  | regex text span =>
    obtain ⟨c, hc, hText, hEq⟩ | ⟨hNew, hEq⟩ := p.regexConstant_cases text span
    · have hMem : text ∈ p.constants.map (·.text) := List.mem_map.mpr ⟨c, hc, hText⟩
      simp only [Program.register, hEq, Receipt.regex?, if_pos hMem]
    · have hNot : text ∉ p.constants.map (·.text) := by simpa using hNew
      simp only [Program.register, hEq, Receipt.regex?, if_neg hNot]
      simp [withConstant]

theorem types_register (p : Program) (r : Registration) :
    (p.register r).2.types.types = match (p.register r).1.type? with
      | none => p.types.types
      | some t => if t ∈ p.types.types then p.types.types else p.types.types ++ [t] := by
  cases r with
  | string | temp => rfl
  | regex text span =>
    obtain ⟨_, -, -, hEq⟩ | ⟨-, hEq⟩ := p.regexConstant_cases text span <;>
      simp only [Program.register, hEq] <;> rfl
  | type base args => exact p.types.types_intern ⟨base, args⟩

/-! ## Whole runs -/

theorem map_request_registerAll (p : Program) (rs : List Registration) :
    (p.registerAll rs).1.map Receipt.request = rs := by
  induction rs generalizing p with
  | nil => rfl
  | cons r rs ih =>
    have hFirst : (p.register r).1.request = r := by cases r <;> rfl
    rw [registerAll, List.map_cons, hFirst, ih]

/-- What the receipts of a run from `first` say of the program that it has come to. -/
structure Vouches (first : Program) (receipts : List Receipt) (p : Program) : Prop where
  keyed : p.Keyed
  grows : first.Grows p
  strings : ∀ text name, .string text name ∈ receipts → p.names.text? name = some text
  temps : receipts.filterMap Receipt.temp? = first.tempsTo p
  texts : p.constants.map (·.text) = (receipts.filterMap Receipt.regex?).eraseDups
  regexes : ∀ text span name, .regex text span name ∈ receipts →
    ∃ c ∈ p.constants, c.text = text ∧ c.name = name
  types : p.types.types = (receipts.filterMap Receipt.type?).eraseDups
  ids : ∀ t id, .type t id ∈ receipts → p.types.get? id = some t

theorem vouches_nil (hKeyed : p.Keyed) (hConstants : p.constants = [])
    (hTypes : p.types.types = []) : p.Vouches [] p where
  keyed := hKeyed
  grows := .refl p
  strings := nofun
  temps := (tempsTo_of_same rfl).symm
  texts := by simp [hConstants]
  regexes := nofun
  types := by simp [hTypes]
  ids := nofun

theorem Vouches.register (h : first.Vouches receipts p) (r : Registration) :
    first.Vouches (receipts ++ [(p.register r).1]) (p.register r).2 := by
  have hGrows := p.grows_register r
  refine ⟨h.keyed.register r, h.grows.trans hGrows, fun text name hMem => ?_, ?_, ?_,
    fun text span name hMem => ?_, ?_, fun t id hMem => ?_⟩
  · obtain hOld | hNew := List.mem_append.mp hMem
    · exact hGrows.text? (h.strings text name hOld)
    · cases r <;> cases List.mem_singleton.mp hNew
      exact p.names.text?_intern text
  · rw [List.filterMap_append, h.temps, ← tempsTo_append h.grows.toLater hGrows.toLater,
      tempsTo_register]
    cases hTemp : (p.register r).1.temp? <;> simp [hTemp]
  · rw [texts_register, List.filterMap_append, h.texts]
    cases hText : (p.register r).1.regex? with
    | none => simp [hText]
    | some text => simp [hText, eraseDups_concat]
  · obtain hOld | hNew := List.mem_append.mp hMem
    · obtain ⟨c, hc, hEq⟩ := h.regexes text span name hOld
      exact ⟨c, hGrows.constants hc, hEq⟩
    · cases r <;> cases List.mem_singleton.mp hNew
      obtain ⟨c, hc, hText, hName⟩ := p.exists_regexConstant text span
      exact ⟨c, hc, hText, hName.symm⟩
  · rw [types_register, List.filterMap_append, h.types]
    cases hType : (p.register r).1.type? with
    | none => simp [hType]
    | some t => simp [hType, eraseDups_concat]
  · obtain hOld | hNew := List.mem_append.mp hMem
    · exact hGrows.get? (h.ids t id hOld)
    · cases r <;> cases List.mem_singleton.mp hNew
      exact p.types.get?_intern _

theorem Vouches.registerAll (h : first.Vouches receipts p) (rs : List Registration) :
    first.Vouches (receipts ++ (p.registerAll rs).1) (p.registerAll rs).2 := by
  induction rs generalizing receipts p with
  | nil => simpa [Program.registerAll] using h
  | cons r rs ih => simpa [Program.registerAll] using ih (h.register r)

theorem vouches_registerAll (loader : Loader) (searchPaths : List SourcePath)
    (rs : List Registration) :
    (init .initial loader searchPaths).Vouches
      ((init .initial loader searchPaths).registerAll rs).1
      ((init .initial loader searchPaths).registerAll rs).2 := by
  have hNames : SymbolTable.initial.names.Nodup := by decide
  exact (vouches_nil (.init hNames loader searchPaths) rfl rfl).registerAll rs

namespace Vouches

variable (h : first.Vouches receipts p)
include h

/-- A number below the count of types is the number of a type that was registered. -/
theorem index_lt_iff (id : TypeId) :
    id.index < p.types.size ↔ ∃ t, .type t id ∈ receipts := by
  constructor
  · intro hLt
    obtain ⟨t, ht⟩ := TypePool.exists_get? hLt
    have hMem : t ∈ p.types.types := List.mem_of_getElem? ht
    rw [h.types, List.mem_eraseDups] at hMem
    obtain ⟨receipt, hReceipt, hType⟩ := List.mem_filterMap.mp hMem
    cases receipt with
    | string | temp | regex => cases hType
    | type t' id' =>
      cases hType
      obtain rfl := TypePool.id_unique h.keyed.types ht (h.ids _ _ hReceipt)
      exact ⟨_, hReceipt⟩
  · rintro ⟨t, ht⟩
    exact TypePool.index_lt_size (h.ids t id ht)

theorem constant?_eq {c : RegexConstant} (hc : c ∈ p.constants) : p.constant? c.name = some c := by
  cases hFind : p.constant? c.name with
  | none =>
    have hNone := List.find?_eq_none.mp hFind c hc
    simp at hNone
  | some d =>
    have hName : d.name = c.name := by simpa using List.find?_some hFind
    exact congrArg some
      (h.keyed.constant_unique (List.mem_of_find?_eq_some hFind) hc (.inl hName))

theorem nodup_constants : (p.constants.map (·.name)).Nodup :=
  List.Nodup.map_on (fun _ hc _ hd hName => h.keyed.constant_unique hc hd (.inl hName))
    (List.Nodup.of_map _ h.keyed.texts)

theorem temp_ne_constant {name : Symbol} (hTemp : .temp name ∈ receipts) {c : RegexConstant}
    (hc : c ∈ p.constants) : name ≠ c.name := by
  have hMem : name ∈ first.tempsTo p := by
    rw [← h.temps]
    exact List.mem_filterMap.mpr ⟨_, hTemp, rfl⟩
  obtain ⟨j, -, -, hText⟩ := text?_of_mem_tempsTo h.grows.toLater hMem
  obtain ⟨k, -, hText'⟩ := h.keyed.text?_constant hc
  rintro rfl
  exact tempName_ne_constantName j k (Option.some.inj (hText.symm.trans hText'))

end Vouches

/-- The initializer of a constant, written out. -/
theorem print_value (p : Program) (c : RegexConstant) :
    p.print c.value = .ok ("::Regexp.new(\"" ++ p.names.text c.text ++ "\")") := by
  have hCommon : ∀ {s : Symbol} {name : String}, commonNames[s.id]? = some name →
      p.names.text s = name := fun h => by
    rw [SymbolTable.text, p.names.text?_of_common h, Option.getD_some]
  have hNew : p.names.text .newName = "new" := hCommon rfl
  have hRegexp : p.names.text .regexp = "Regexp" := hCommon rfl
  have hForm : CallForm.of "new" 1 false = .plain := by decide
  have hOpen : "::Regexp.new(\"" = "::Regexp.new" ++ ("(" ++ "\"") := rfl
  have hClose : "\")" = "\"" ++ ")" := rfl
  show Except.ok (c.value.print (.ofPool p.names p.types)) = _
  refine congrArg Except.ok ?_
  simp [RegexConstant.value, Node.send, Node.print, Node.expr, Node.globalConst, operandText, exprs,
    Printer.call, Printer.plainCall, Printer.commas, Wording.operand, Wording.isInfix, Wording.atom,
    Wording.path, Wording.ofPool, ConstPath.ofGlobal, hNew, hRegexp, hForm]
  rw [hOpen, hClose]
  simp only [String.append_assoc, -String.reduceAppend]

/-- After any registrations in a program that starts empty, in any order: each of them has its
receipt. A name has the string it was given out for, and equal strings have one name. Equal regex
texts have one constant, each text has one definition, in the order of the first requests, names of
constants are distinct and lead to their definitions, and the initializer compiles the text. Equal
types, spans included, have one number, numbers have no gaps, follow the order of the first requests
and lead to what they were given out for. All temporaries are distinct, from each other and from the
constants. -/
theorem registries_injective (loader : Loader) (searchPaths : List SourcePath)
    (rs : List Registration) :
    let receipts := ((init .initial loader searchPaths).registerAll rs).1
    let p := ((init .initial loader searchPaths).registerAll rs).2
    receipts.map Receipt.request = rs ∧
    ((∀ text name, .string text name ∈ receipts → p.names.text? name = some text) ∧
      ∀ text name text' name', .string text name ∈ receipts → .string text' name' ∈ receipts →
        (name = name' ↔ text = text')) ∧
    ((∀ text s name text' s' name', .regex text s name ∈ receipts →
        .regex text' s' name' ∈ receipts → (name = name' ↔ text = text')) ∧
      p.constants.map (·.text) = (receipts.filterMap Receipt.regex?).eraseDups ∧
      (p.constants.map (·.name)).Nodup ∧
      (∀ c ∈ p.constants, p.constant? c.name = some c ∧
        p.print c.value = .ok ("::Regexp.new(\"" ++ p.names.text c.text ++ "\")")) ∧
      ∀ text s name, .regex text s name ∈ receipts →
        ∃ c ∈ p.constants, c.text = text ∧ c.name = name) ∧
    ((∀ t id t' id', .type t id ∈ receipts → .type t' id' ∈ receipts → (id = id' ↔ t = t')) ∧
      p.types.types = (receipts.filterMap Receipt.type?).eraseDups ∧
      (∀ t id, .type t id ∈ receipts → p.types.get? id = some t) ∧
      ∀ id, id.index < p.types.size ↔ ∃ t, .type t id ∈ receipts) ∧
    (receipts.filterMap Receipt.temp?).Nodup ∧
    ∀ name, .temp name ∈ receipts → ∀ c ∈ p.constants, name ≠ c.name := by
  intro receipts p
  have h : (init .initial loader searchPaths).Vouches receipts p :=
    vouches_registerAll loader searchPaths rs
  refine ⟨map_request_registerAll _ rs, ⟨h.strings, ?_⟩, ⟨?_, h.texts, h.nodup_constants,
    fun c hc => ⟨h.constant?_eq hc, p.print_value c⟩, h.regexes⟩,
    ⟨?_, h.types, h.ids, h.index_lt_iff⟩, ?_, fun _ hTemp _ hc => h.temp_ne_constant hTemp hc⟩
  · intro text name text' name' hMem hMem'
    have hText := h.strings text name hMem
    have hText' := h.strings text' name' hMem'
    constructor
    · rintro rfl
      exact Option.some.inj (hText.symm.trans hText')
    · rintro rfl
      exact SymbolTable.symbol_unique h.keyed.names hText hText'
  · intro text s name text' s' name' hMem hMem'
    obtain ⟨c, hc, rfl, rfl⟩ := h.regexes text s name hMem
    obtain ⟨d, hd, rfl, rfl⟩ := h.regexes text' s' name' hMem'
    exact ⟨fun hName => congrArg (·.text) (h.keyed.constant_unique hc hd (.inl hName)),
      fun hText => congrArg (·.name) (h.keyed.constant_unique hc hd (.inr hText))⟩
  · intro t id t' id' hMem hMem'
    have hType := h.ids t id hMem
    have hType' := h.ids t' id' hMem'
    constructor
    · rintro rfl
      exact Option.some.inj (hType.symm.trans hType')
    · rintro rfl
      exact TypePool.id_unique h.keyed.types hType hType'
  · rw [h.temps]
    exact nodup_tempsTo h.grows.toLater

end Program

namespace Sample

/-- Names like those that the program makes up are in the table before they are made up, a regex and
a type come twice, and one type comes once more with another span. -/
def mixedRegistrations : List Registration :=
  let type (s : Span) : Registration := .type .array [.merged [.nil s]]
  [.string "#Regexp_0", .string "#temp_2", .temp, .regex ⟨14⟩ ⟨1, 2⟩, type .nowhere, .temp,
    .regex .empty .nowhere, type ⟨3, 4⟩, .regex ⟨14⟩ ⟨5, 6⟩, type .nowhere, .string "#temp_2"]

def mixedReceipts : List Receipt :=
  let type (s : Span) : TypeId → Receipt := .type ⟨.array, [.merged [.nil s]]⟩
  [.string "#Regexp_0" ⟨14⟩, .string "#temp_2" ⟨15⟩, .temp ⟨16⟩, .regex ⟨14⟩ ⟨1, 2⟩ ⟨14⟩,
    type .nowhere ⟨0⟩, .temp ⟨15⟩, .regex .empty .nowhere ⟨17⟩, type ⟨3, 4⟩ ⟨1⟩,
    .regex ⟨14⟩ ⟨5, 6⟩ ⟨14⟩, type .nowhere ⟨0⟩, .string "#temp_2" ⟨15⟩]

theorem mixed_registries :
    let (receipts, p) := (Program.init .initial .empty []).registerAll mixedRegistrations
    receipts = mixedReceipts ∧ p.names.text? ⟨15⟩ = some "#temp_2" ∧
    p.constants.map (·.text) = [⟨14⟩, .empty] ∧ (⟨14⟩ : Symbol) ≠ ⟨17⟩ ∧
    (∃ c, p.constant? ⟨14⟩ = some c ∧ p.print c.value = .ok "::Regexp.new(\"#Regexp_0\")") ∧
    p.types.get? ⟨1⟩ = some ⟨.array, [.merged [.nil ⟨3, 4⟩]]⟩ ∧
    [(⟨16⟩ : Symbol), ⟨15⟩].Nodup := by
  have hReceipts : ((Program.init .initial .empty []).registerAll mixedRegistrations).1 =
      mixedReceipts := by rfl
  have hAll := Program.registries_injective .empty [] mixedRegistrations
  simp only [hReceipts] at hAll
  obtain ⟨-, ⟨hStrings, -⟩, ⟨hApart, hTexts, -, hConstants, hRegexes⟩, ⟨-, -, hTypes, -⟩,
    hTemps, -⟩ := hAll
  obtain ⟨c, hc, hText, hName⟩ := hRegexes ⟨14⟩ ⟨1, 2⟩ ⟨14⟩ (by decide)
  obtain ⟨hFound, hPrinted⟩ := hConstants c hc
  rw [hName] at hFound
  rw [hText] at hPrinted
  have hOther := hApart ⟨14⟩ ⟨1, 2⟩ ⟨14⟩ .empty .nowhere ⟨17⟩ (by decide) (by decide)
  exact ⟨hReceipts, hStrings "#temp_2" ⟨15⟩ (by decide), hTexts, mt hOther.mp (by decide),
    ⟨c, hFound, hPrinted⟩, hTypes _ ⟨1⟩ (by decide), hTemps⟩

end Sample

end CoreTree

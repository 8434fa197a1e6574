import CoreTree.Proofs.Renaming.Basic
import CoreTree.Proofs.Temps.Allocated
import CoreTree.Proofs.Types.Order
import Mathlib.SetTheory.Cardinal.Arithmetic

/-! # Registries of two programs

Names, regex constants and types are kept once each, so what a name is spelled by, which regex a
constant holds, and what a type is made of tell which one it is. Between two programs this makes a
correspondence that is one to one. It does not depend on numbers, and it only grows while the
programs do.
-/
namespace CoreTree
set_option autoImplicit false

namespace SymbolTable

variable {t : SymbolTable} {x y : Symbol} {text : String}

theorem nodup_intern (h : t.names.Nodup) (name : String) : (t.intern name).2.names.Nodup := by
  unfold intern
  split
  · exact h
  · rename_i hNone
    exact h.append (List.nodup_singleton name)
      (List.disjoint_singleton.mpr (List.idxOf?_eq_none_iff.mp hNone))

theorem symbol_unique (h : t.names.Nodup) (hx : t.text? x = some text)
    (hy : t.text? y = some text) : x = y := by
  obtain ⟨hLt, -⟩ := List.getElem?_eq_some_iff.mp hx
  have hIndex : x.id = y.id := (List.getElem?_inj hLt h).mp (hx.trans hy.symm)
  cases x
  cases y
  exact congrArg Symbol.mk hIndex

end SymbolTable

theorem TypePool.nodup_intern {pool : TypePool} (h : pool.types.Nodup) (t : GenericType) :
    (pool.intern t).2.types.Nodup := by
  unfold intern idOf?
  split
  · exact h
  · rename_i hNone
    exact h.append (List.nodup_singleton t)
      (List.disjoint_singleton.mpr (List.idxOf?_eq_none_iff.mp (Option.map_eq_none_iff.mp hNone)))

theorem TypePool.id_unique {pool : TypePool} {k k' : TypeId} {t : GenericType}
    (h : pool.types.Nodup) (hk : pool.get? k = some t) (hk' : pool.get? k' = some t) : k = k' := by
  have hIndex : k.index = k'.index :=
    (List.getElem?_inj (index_lt_size hk) h).mp (hk.trans hk'.symm)
  cases k
  cases k'
  exact congrArg TypeId.mk hIndex

namespace Program

variable {p p' q q' r : Program} {x x' y : Symbol}

def constantName (k : Nat) : String := s!"#Regexp_{k}"

theorem constantName_injective {j k : Nat} (h : constantName j = constantName k) : j = k := by
  have hRepr : toString j = toString k := by simpa [constantName] using h
  exact Nat.repr_injective hRepr

theorem head?_constantName (k : Nat) : (constantName k).toList.head? = some '#' := by
  simp only [constantName, String.toList_append, List.head?_append]
  rfl

theorem tempName_ne_constantName (j k : Nat) : tempName j ≠ constantName k := by
  intro h
  have hSecond : (tempName j).toList[1]? = (constantName k).toList[1]? := by rw [h]
  simp only [tempName, constantName, String.toList_append] at hSecond
  cases hSecond

/-- Each string, each regex and each type is registered once, and the constants are numbered. -/
structure Keyed (p : Program) : Prop where
  names : p.names.names.Nodup
  types : p.types.types.Nodup
  texts : (p.constants.map (·.text)).Nodup
  constants : ∀ k c, p.constants[k]? = some c → p.names.text? c.name = some (constantName k)

/-- What has been registered stays. -/
structure Grows (p q : Program) : Prop extends p.Later q where
  types : p.types.types <+: q.types.types
  constants : p.constants ⊆ q.constants

namespace Grows

theorem refl (p : Program) : p.Grows p := ⟨.refl p, List.prefix_refl _, List.Subset.refl _⟩

theorem trans (h : p.Grows q) (h' : q.Grows r) : p.Grows r :=
  ⟨h.toLater.trans h'.toLater, h.types.trans h'.types,
    List.Subset.trans h.constants h'.constants⟩

theorem text? (h : p.Grows q) {text : String} (hText : p.names.text? x = some text) :
    q.names.text? x = some text := SymbolTable.text?_of_prefix h.names hText

theorem get? (h : p.Grows q) {k : TypeId} {t : GenericType} (hk : p.types.get? k = some t) :
    q.types.get? k = some t := by
  obtain ⟨rest, hRest⟩ := h.types
  rw [TypePool.get?, ← hRest, List.getElem?_append_left (TypePool.index_lt_size hk)]
  exact hk

end Grows

/-! ## Registering -/

theorem Keyed.of_same (h : p.Keyed) (hNames : q.names = p.names) (hTypes : q.types = p.types)
    (hConstants : q.constants = p.constants) : q.Keyed := by
  obtain ⟨hUnique, hPool, hTexts, hNumbered⟩ := h
  rw [← hNames] at hUnique hNumbered
  rw [← hTypes] at hPool
  rw [← hConstants] at hTexts hNumbered
  exact ⟨hUnique, hPool, hTexts, hNumbered⟩

theorem grows_freshTemp (p : Program) : p.Grows p.freshTemp.2 :=
  ⟨later_freshTemp p, List.prefix_refl _, List.Subset.refl _⟩

theorem Keyed.freshTemp (h : p.Keyed) : p.freshTemp.2.Keyed where
  names := SymbolTable.nodup_intern h.names _
  types := h.types
  texts := h.texts
  constants k c hc := SymbolTable.text?_of_prefix (later_freshTemp p).names (h.constants k c hc)

theorem text?_freshTemp (p : Program) :
    p.freshTemp.2.names.text? p.freshTemp.1 = some (tempName (p.temps + 1)) :=
  SymbolTable.text?_intern p.names _

theorem grows_genericType (p : Program) (base : Symbol) (args : List TypeArg) :
    p.Grows (p.genericType base args).2 :=
  ⟨later_of_same rfl rfl (List.prefix_refl _), TypePool.prefix_intern _ _, List.Subset.refl _⟩

theorem Keyed.genericType (h : p.Keyed) (base : Symbol) (args : List TypeArg) :
    (p.genericType base args).2.Keyed :=
  ⟨h.names, TypePool.nodup_intern h.types _, h.texts, h.constants⟩

/-- The program in which a regex that was not met before has got a constant. -/
def withConstant (p : Program) (text : Symbol) (s : Span) : Program :=
  let name := p.names.intern (constantName p.constants.length)
  { p with names := name.2, constants := p.constants ++ [⟨text, name.1, s⟩] }

theorem regexConstant_cases (p : Program) (text : Symbol) (s : Span) :
    (∃ c ∈ p.constants, c.text = text ∧ p.regexConstant text s = (c.name, p)) ∨
      (∀ c ∈ p.constants, c.text ≠ text) ∧ p.regexConstant text s =
        ((p.names.intern (constantName p.constants.length)).1, p.withConstant text s) := by
  unfold regexConstant
  split
  · rename_i c hFind
    exact .inl ⟨c, List.mem_of_find?_eq_some hFind, by simpa using List.find?_some hFind, rfl⟩
  · rename_i hNone
    exact .inr ⟨fun c hc hText => List.find?_eq_none.mp hNone c hc (beq_iff_eq.mpr hText), rfl⟩

theorem grows_withConstant (p : Program) (text : Symbol) (s : Span) :
    p.Grows (p.withConstant text s) :=
  ⟨later_of_same rfl rfl (SymbolTable.prefix_intern _ _), List.prefix_refl _,
    List.subset_append_left _ _⟩

theorem Keyed.withConstant (h : p.Keyed) {text : Symbol} (hNew : ∀ c ∈ p.constants, c.text ≠ text)
    (s : Span) : (p.withConstant text s).Keyed where
  names := SymbolTable.nodup_intern h.names _
  types := h.types
  texts := by
    have hNotMem : text ∉ p.constants.map (·.text) := by simpa using hNew
    simp only [Program.withConstant, List.map_append, List.map_singleton]
    exact h.texts.append (List.nodup_singleton text) (List.disjoint_singleton.mpr hNotMem)
  constants k c hc := by
    rcases Nat.lt_or_ge k p.constants.length with hLt | hGe
    · have hOld : p.constants[k]? = some c := by
        rw [← hc]
        exact (List.getElem?_append_left hLt).symm
      exact (p.grows_withConstant text s).text? (h.constants k c hOld)
    · obtain ⟨hBound, hLast⟩ := List.getElem?_eq_some_iff.mp hc
      simp only [Program.withConstant, List.length_append, List.length_singleton] at hBound
      obtain rfl : k = p.constants.length := by omega
      simp only [Program.withConstant, List.getElem_concat_length] at hLast
      subst hLast
      exact SymbolTable.text?_intern p.names _

theorem grows_regexConstant (p : Program) (text : Symbol) (s : Span) :
    p.Grows (p.regexConstant text s).2 := by
  obtain ⟨_, -, -, hEq⟩ | ⟨-, hEq⟩ := p.regexConstant_cases text s
  · rw [hEq]
    exact .refl p
  · rw [hEq]
    exact p.grows_withConstant text s

theorem Keyed.regexConstant (h : p.Keyed) (text : Symbol) (s : Span) :
    (p.regexConstant text s).2.Keyed := by
  obtain ⟨_, -, -, hEq⟩ | ⟨hNew, hEq⟩ := p.regexConstant_cases text s
  · rw [hEq]
    exact h
  · rw [hEq]
    exact h.withConstant hNew s

theorem exists_regexConstant (p : Program) (text : Symbol) (s : Span) :
    ∃ c ∈ (p.regexConstant text s).2.constants, c.text = text ∧
      (p.regexConstant text s).1 = c.name := by
  obtain ⟨c, hc, hText, hEq⟩ | ⟨-, hEq⟩ := p.regexConstant_cases text s
  · rw [hEq]
    exact ⟨c, hc, hText, rfl⟩
  · rw [hEq]
    exact ⟨_, List.mem_append_right _ (.head _), rfl, rfl⟩

/-! ## Names that correspond -/

/-- Symbols of two programs name the same. A name that is not reserved names the same if it is
spelled the same. Of temporaries, those correspond that came as the same one since the programs had
so many, and of constants, those that hold the same regex. -/
inductive SameName (first second : Nat) (p p' : Program) : Symbol → Symbol → Prop where
  | own {x x' : Symbol} {name : String} (h : p.names.text? x = some name)
    (h' : p'.names.text? x' = some name) (hOwn : name.toList.head? ≠ some '#') :
    SameName first second p p' x x'
  | temp {x x' : Symbol} {k : Nat} (h : p.names.text? x = some (tempName (first + k + 1)))
    (h' : p'.names.text? x' = some (tempName (second + k + 1))) : SameName first second p p' x x'
  | constant {c c' : RegexConstant} {regex : String} (h : c ∈ p.constants) (h' : c' ∈ p'.constants)
    (hText : p.names.text? c.text = some regex) (hText' : p'.names.text? c'.text = some regex) :
    SameName first second p p' c.name c'.name

namespace SameName

variable {first second : Nat}

theorem grows (h : SameName first second p p' x x') (hp : p.Grows q) (hp' : p'.Grows q') :
    SameName first second q q' x x' := by
  cases h with
  | own h h' hOwn => exact .own (hp.text? h) (hp'.text? h') hOwn
  | temp h h' => exact .temp (hp.text? h) (hp'.text? h')
  | constant h h' hText hText' =>
    exact .constant (hp.constants h) (hp'.constants h') (hp.text? hText) (hp'.text? hText')

theorem symm (h : SameName first second p p' x x') : SameName second first p' p x' x := by
  cases h with
  | own h h' hOwn => exact .own h' h hOwn
  | temp h h' => exact .temp h' h
  | constant h h' hText hText' => exact .constant h' h hText' hText

end SameName

theorem Keyed.text?_constant (h : p.Keyed) {c : RegexConstant} (hc : c ∈ p.constants) :
    ∃ k, p.constants[k]? = some c ∧ p.names.text? c.name = some (constantName k) := by
  obtain ⟨k, hk⟩ := List.mem_iff_getElem?.mp hc
  exact ⟨k, hk, h.constants k c hk⟩

/-- A constant is known by its name, and by its regex. -/
theorem Keyed.constant_unique (h : p.Keyed) {c d : RegexConstant} (hc : c ∈ p.constants)
    (hd : d ∈ p.constants) (hEq : c.name = d.name ∨ c.text = d.text) : c = d := by
  obtain hName | hText := hEq
  · obtain ⟨j, hj, hj'⟩ := h.text?_constant hc
    obtain ⟨k, hk, hk'⟩ := h.text?_constant hd
    obtain rfl := constantName_injective (Option.some.inj (hj'.symm.trans (hName ▸ hk')))
    exact Option.some.inj (hj.symm.trans hk)
  · exact List.inj_on_of_nodup_map h.texts hc hd hText

namespace SameName

variable {first second : Nat}

/-- A name corresponds to one name at most: the three ways are told apart by the spelling. -/
theorem unique (hp : p.Keyed) (hp' : p'.Keyed) (h : SameName first second p p' x x')
    (h' : SameName first second p p' x y) : x' = y := by
  have hApart : ∀ {name other : String}, p.names.text? x = some name →
      p.names.text? x = some other → name = other := fun h h' => Option.some.inj (h.symm.trans h')
  cases h with
  | own hx hx' hOwn =>
    cases h' with
    | own hy hy' _ => exact SymbolTable.symbol_unique hp'.names hx' (hApart hx hy ▸ hy')
    | temp hy _ => exact absurd (hApart hx hy ▸ head?_tempName _) hOwn
    | constant hc _ _ _ =>
      obtain ⟨k, -, hy⟩ := hp.text?_constant hc
      exact absurd (hApart hx hy ▸ head?_constantName k) hOwn
  | temp hx hx' =>
    cases h' with
    | own hy _ hOwn => exact absurd (hApart hy hx ▸ head?_tempName _) hOwn
    | temp hy hy' =>
      have hIndex := tempName_injective (hApart hx hy)
      obtain rfl := Nat.add_left_cancel (Nat.succ.inj hIndex)
      exact SymbolTable.symbol_unique hp'.names hx' hy'
    | constant hc _ _ _ =>
      obtain ⟨k, -, hy⟩ := hp.text?_constant hc
      exact absurd (hApart hx hy) (tempName_ne_constantName _ k)
  | constant hc hc' hText hText' =>
    rename_i c c' regex
    obtain ⟨k, -, hx⟩ := hp.text?_constant hc
    generalize hName : c.name = z at h' hx
    cases h' with
    | own hy _ hOwn =>
      exact absurd (Option.some.inj (hx.symm.trans hy) ▸ head?_constantName k) hOwn
    | temp hy _ =>
      exact absurd (Option.some.inj (hy.symm.trans hx)) (tempName_ne_constantName _ k)
    | constant hd hd' hRegex hRegex' =>
      obtain rfl := hp.constant_unique hc hd (.inl hName)
      obtain rfl := Option.some.inj (hText.symm.trans hRegex)
      exact congrArg (·.name) (hp'.constant_unique hc' hd'
        (.inr (SymbolTable.symbol_unique hp'.names hText' hRegex')))

theorem known (hp : p.Keyed) (h : SameName first second p p' x x') :
    x.id < p.names.size := by
  have hKnown : ∀ {name : String}, p.names.text? x = some name → x.id < p.names.size := fun h =>
    (List.getElem?_eq_some_iff.mp h).1
  cases h with
  | own h | temp h => exact hKnown h
  | constant hc => exact hKnown (hp.text?_constant hc).choose_spec.2

end SameName

/-- There is a permutation of all symbols that takes each name to the one that corresponds. -/
theorem exists_perm_of_keyed (hp : p.Keyed) (hp' : p'.Keyed) (first second : Nat) :
    ∃ name : Equiv.Perm Symbol, ∀ x x', SameName first second p p' x x' → name x = x' := by
  let known : Set Symbol := {x | ∃ x', SameName first second p p' x x'}
  have hFinite : known.Finite := by
    have hBounded : {x : Symbol | x.id < p.names.size}.Finite :=
      Set.Finite.of_finite_image ((Set.finite_lt_nat p.names.size).subset fun _ ⟨x, hx, hEq⟩ =>
        hEq ▸ hx) fun x _ y _ hEq => by
          cases x
          cases y
          exact congrArg Symbol.mk hEq
    exact hBounded.subset fun x ⟨_, h⟩ => h.known hp
  have hPartner : ∀ x : known, SameName first second p p' x x.2.choose := fun x => x.2.choose_spec
  let partner : known ↪ Symbol := ⟨fun x => x.2.choose, fun x y (hEq : x.2.choose = y.2.choose) =>
    Subtype.ext (SameName.unique hp' hp (hPartner x).symm (hEq ▸ (hPartner y).symm))⟩
  have hInfinite : Infinite Symbol := Infinite.of_injective Symbol.mk fun _ _ => congrArg Symbol.id
  obtain ⟨name, hName⟩ := Cardinal.extend_function_of_lt partner
    ((Cardinal.lt_aleph0_iff_finite.mpr hFinite).trans_le (Cardinal.aleph0_le_mk _)) ⟨.refl _⟩
  exact ⟨name, fun x x' h => (hName ⟨x, x', h⟩).trans
    (SameName.unique hp hp' (Exists.choose_spec (⟨x', h⟩ : ∃ x', _)) h)⟩

end Program

/-! ## Types that correspond -/

/-- Types of two pools have the same content up to a renaming of names and texts, and so have the
types that the content mentions. -/
inductive SameType (name text : Symbol → Symbol) (pool pool' : TypePool) :
    TypeId → TypeId → Prop where
  | intro {k k' : TypeId} {t : GenericType} {type : TypeId → TypeId} (h : pool.get? k = some t)
    (h' : pool'.get? k' = some (t.rename ⟨name, text, type⟩))
    (hInner : ∀ e ∈ t.exprs, ∀ i ∈ e.generics, SameType name text pool pool' i (type i)) :
    SameType name text pool pool' k k'

namespace SameType

variable {name text : Symbol → Symbol} {k k' j : TypeId}

theorem unique {pool pool' : TypePool} (hPool : pool'.types.Nodup)
    (h : SameType name text pool pool' k k') (h' : SameType name text pool pool' k j) : k' = j := by
  induction h generalizing j with
  | intro hk hk' _ ih =>
    cases h' with
    | intro hj hj' hInner =>
      obtain rfl := Option.some.inj (hk.symm.trans hj)
      refine TypePool.id_unique hPool hk' (hj'.trans (congrArg some ?_))
      exact (GenericType.rename_eq_iff (g := ⟨name, text, _⟩) _).mpr fun e he i hi =>
        (ih e he i hi (hInner e he i hi)).symm

theorem grows {p p' q q' : Program} (h : SameType name text p.types p'.types k k')
    (hp : p.Grows q) (hp' : p'.Grows q') : SameType name text q.types q'.types k k' := by
  induction h with
  | intro h h' _ ih => exact .intro (hp.get? h) (hp'.get? h') ih

end SameType

end CoreTree

import CoreTree.Proofs.Normal.Ensures
import Mathlib.Data.List.Nodup

/-! # Temporaries that a run allocates

Temporaries are numbered, and the symbol of a number stays the same while a table of symbols grows.
So the temporaries of two runs, one after the other, are those of the first and then those of the
second, and no symbol is among both.
-/
namespace CoreTree
set_option autoImplicit false

namespace SymbolTable

variable {t u : SymbolTable} {name : String}

theorem intern_of_prefix (h : t.names <+: u.names) (hIn : name ∈ t.names) :
    (u.intern name).1 = (t.intern name).1 := by
  obtain ⟨rest, hRest⟩ := h
  have hSome : (t.names.idxOf? name).isSome := by
    rw [List.isSome_idxOf?]
    exact hIn
  obtain ⟨i, hi⟩ := Option.isSome_iff_exists.mp hSome
  have hIndex : u.names.idxOf? name = some i := by
    obtain ⟨hLt, hEq, hFirst⟩ := List.idxOf?_eq_some_iff.mp hi
    rw [← hRest]
    refine List.idxOf?_eq_some_iff.mpr ⟨by simp; omega, ?_, fun j hj => ?_⟩
    · rw [List.getElem_append_left hLt, hEq]
    · rw [List.getElem_append_left (Nat.lt_trans hj hLt)]
      exact hFirst j hj
  unfold intern
  rw [hi, hIndex]

theorem intern_of_mem (h : name ∈ t.names) : (t.intern name).2 = t := by
  unfold intern
  split
  · rfl
  · rename_i hNone
    exact absurd h (List.idxOf?_eq_none_iff.mp hNone)

theorem prefix_intern (t : SymbolTable) (name : String) : t.names <+: (t.intern name).2.names := by
  unfold intern
  split
  · exact List.prefix_refl _
  · exact List.prefix_append _ _

theorem mem_intern (t : SymbolTable) (name : String) : name ∈ (t.intern name).2.names :=
  List.mem_of_getElem? (t.text?_intern name)

theorem intern_intern (t : SymbolTable) (name : String) :
    ((t.intern name).2.intern name).1 = (t.intern name).1 := by
  cases hIndex : t.names.idxOf? name with
  | some i => simp [intern, hIndex]
  | none =>
    have hNew : (t.names ++ [name]).idxOf? name = some t.size := by
      refine List.idxOf?_eq_some_iff.mpr ⟨by simp [size], by simp [size], fun j hj => ?_⟩
      rw [List.getElem_append_left hj]
      rintro hEq
      exact List.idxOf?_eq_none_iff.mp hIndex (hEq ▸ List.getElem_mem hj)
    simp [intern, hIndex, hNew]

theorem text?_of_prefix (h : t.names <+: u.names) {x : Symbol} (hText : t.text? x = some name) :
    u.text? x = some name := by
  obtain ⟨rest, hRest⟩ := h
  obtain ⟨hLt, -⟩ := List.getElem?_eq_some_iff.mp hText
  rw [text?, ← hRest, List.getElem?_append_left hLt]
  exact hText

/-- The symbol has a name in the table, and the name does not start with `#`. -/
def Own (t : SymbolTable) (x : Symbol) : Prop :=
  ∃ name, t.text? x = some name ∧ name.toList.head? ≠ some '#'

end SymbolTable

namespace Program

variable {p q r : Program} {x : Symbol}

def tempName (k : Nat) : String := s!"#temp_{k}"

/-- The symbol of a temporary, if it has been allocated. -/
def temp (p : Program) (k : Nat) : Symbol := (p.names.intern (tempName k)).1

/-- The temporaries that have been allocated from one program to a later one. -/
def tempsTo (p q : Program) : List Symbol :=
  (List.range' (p.temps + 1) (q.temps - p.temps)).map q.temp

/-- There may be more symbols and more temporaries, each of which has a symbol, and the files are
the same. -/
structure Later (p q : Program) : Prop where
  loader : q.loader = p.loader
  temps : p.temps ≤ q.temps
  names : p.names.names <+: q.names.names
  made : ∀ k, p.temps < k → k ≤ q.temps → tempName k ∈ q.names.names

theorem Later.refl (p : Program) : p.Later p :=
  ⟨rfl, Nat.le_refl _, List.prefix_refl _, fun _ hLt hLe => absurd hLe (Nat.not_le_of_lt hLt)⟩

theorem Later.trans (h : p.Later q) (h' : q.Later r) : p.Later r where
  loader := h'.loader.trans h.loader
  temps := Nat.le_trans h.temps h'.temps
  names := h.names.trans h'.names
  made k hLt hLe := by
    rcases Nat.lt_or_ge q.temps k with hLater | hOld
    · exact h'.made k hLater hLe
    · exact h'.names.subset (h.made k hLt hOld)

theorem temp_of_later (h : p.Later q) {k : Nat} (hIn : tempName k ∈ p.names.names) :
    q.temp k = p.temp k :=
  SymbolTable.intern_of_prefix h.names hIn

theorem later_freshTemp (p : Program) : p.Later p.freshTemp.2 where
  loader := rfl
  temps := Nat.le_succ _
  names := SymbolTable.prefix_intern _ _
  made k hLt hLe := by
    obtain rfl : k = p.temps + 1 := Nat.le_antisymm hLe hLt
    exact SymbolTable.mem_intern p.names _

theorem later_of_same (hLoader : q.loader = p.loader) (hTemps : q.temps = p.temps)
    (hNames : p.names.names <+: q.names.names) : p.Later q :=
  ⟨hLoader, Nat.le_of_eq hTemps.symm, hNames, fun k hLt hLe => absurd hLe (by omega)⟩

theorem temps_regexConstant (p : Program) (text : Symbol) (s : Span) :
    (p.regexConstant text s).2.temps = p.temps := by
  unfold regexConstant
  split <;> rfl

theorem later_regexConstant (p : Program) (text : Symbol) (s : Span) :
    p.Later (p.regexConstant text s).2 := by
  unfold regexConstant
  split
  · exact .refl p
  · exact later_of_same rfl rfl (SymbolTable.prefix_intern _ _)

theorem later_genericType (p : Program) (base : Symbol) (args : List TypeArg) :
    p.Later (p.genericType base args).2 := later_of_same rfl rfl (List.prefix_refl _)

theorem text?_temp {k : Nat} (h : tempName k ∈ p.names.names) :
    p.names.text? (p.temp k) = some (tempName k) := by
  have hText := p.names.text?_intern (tempName k)
  rwa [SymbolTable.intern_of_mem h] at hText

theorem temp_freshTemp (p : Program) : p.freshTemp.2.temp (p.temps + 1) = p.freshTemp.1 :=
  p.names.intern_intern _

/-! ## The temporaries between two programs -/

theorem mem_tempsTo : x ∈ p.tempsTo q ↔ ∃ k, p.temps < k ∧ k ≤ q.temps ∧ q.temp k = x := by
  simp only [tempsTo, List.mem_map, List.mem_range'_1]
  constructor
  · rintro ⟨k, ⟨hLt, hLe⟩, hEq⟩
    exact ⟨k, by omega, by omega, hEq⟩
  · rintro ⟨k, hLt, hLe, hEq⟩
    exact ⟨k, ⟨by omega, by omega⟩, hEq⟩

theorem tempsTo_of_same (h : q.temps = p.temps) : p.tempsTo q = [] := by simp [tempsTo, h]

theorem tempsTo_append (h : p.Later q) (h' : q.Later r) :
    p.tempsTo q ++ q.tempsTo r = p.tempsTo r := by
  have hFirst : p.tempsTo q =
      (List.range' (p.temps + 1) (q.temps - p.temps)).map r.temp := by
    refine List.map_congr_left fun k hk => ?_
    obtain ⟨hLt, hLe⟩ := List.mem_range'_1.mp hk
    exact (temp_of_later h' (h.made k (by omega) (by omega))).symm
  have hTemps := h.temps
  have hTemps' := h'.temps
  have hStart : q.temps + 1 = p.temps + 1 + (q.temps - p.temps) := by omega
  have hCount : q.temps - p.temps + (r.temps - q.temps) = r.temps - p.temps := by omega
  rw [hFirst, tempsTo, tempsTo, ← List.map_append, hStart, List.range'_append_1, hCount]

theorem tempsTo_freshTemp (p : Program) : p.tempsTo p.freshTemp.2 = [p.freshTemp.1] := by
  have hCount : p.freshTemp.2.temps - p.temps = 1 := Nat.add_sub_cancel_left ..
  rw [tempsTo, hCount, List.range'_one, List.map_singleton, temp_freshTemp]

theorem mem_tempsTo_freshTemp (p : Program) : p.freshTemp.1 ∈ p.tempsTo p.freshTemp.2 := by
  rw [tempsTo_freshTemp]
  exact .head _

theorem text?_of_mem_tempsTo (h : p.Later q) (hx : x ∈ p.tempsTo q) :
    ∃ k, p.temps < k ∧ k ≤ q.temps ∧ q.names.text? x = some (tempName k) := by
  obtain ⟨k, hLt, hLe, rfl⟩ := mem_tempsTo.mp hx
  exact ⟨k, hLt, hLe, text?_temp (h.made k hLt hLe)⟩

theorem nodup_tempsTo (h : p.Later q) : (p.tempsTo q).Nodup := by
  refine List.Nodup.map_on (fun j hj k hk hEq => ?_) List.nodup_range'
  obtain ⟨hLt, hLe⟩ := List.mem_range'_1.mp hj
  obtain ⟨hLt', hLe'⟩ := List.mem_range'_1.mp hk
  have hText := text?_temp (h.made j (by omega) (by omega))
  have hText' := text?_temp (h.made k (by omega) (by omega))
  exact tempName_injective (Option.some.inj ((hText.symm.trans (congrArg _ hEq)).trans hText'))

/-! ## Other temporaries -/

/-- Names that start with `#` are reserved. -/
def Own (p : Program) (x : Symbol) : Prop := p.names.Own x

/-- The symbol is in the table, and no temporary that is still to come has its name. -/
def Old (p : Program) (x : Symbol) : Prop :=
  ∃ name, p.names.text? x = some name ∧ ∀ k, p.temps < k → name ≠ tempName k

theorem Own.later (h : p.Own x) (hLater : p.Later q) : q.Own x := by
  obtain ⟨name, hText, hName⟩ := h
  exact ⟨name, SymbolTable.text?_of_prefix hLater.names hText, hName⟩

theorem Old.later (h : p.Old x) (hLater : p.Later q) : q.Old x := by
  obtain ⟨name, hText, hName⟩ := h
  exact ⟨name, SymbolTable.text?_of_prefix hLater.names hText,
    fun k hk => hName k (Nat.lt_of_le_of_lt hLater.temps hk)⟩

theorem head?_tempName (k : Nat) : (tempName k).toList.head? = some '#' := by
  simp only [tempName, String.toList_append, List.head?_append]
  rfl

theorem not_own_of_mem_tempsTo (h : p.Later q) (hx : x ∈ p.tempsTo q) : ¬ q.Own x := by
  rintro ⟨name, hText, hName⟩
  obtain ⟨k, -, -, hTemp⟩ := text?_of_mem_tempsTo h hx
  obtain rfl := Option.some.inj (hText.symm.trans hTemp)
  exact hName (head?_tempName k)

theorem not_old_of_mem_tempsTo (h : p.Later q) (hx : x ∈ p.tempsTo q) : ¬ p.Old x := by
  rintro ⟨name, hText, hName⟩
  obtain ⟨k, hLt, -, hTemp⟩ := text?_of_mem_tempsTo h hx
  have hText := SymbolTable.text?_of_prefix h.names hText
  exact hName k hLt (Option.some.inj (hText.symm.trans hTemp))

theorem old_of_mem_tempsTo (h : p.Later q) (hx : x ∈ p.tempsTo q) : q.Old x := by
  obtain ⟨k, -, hLe, hText⟩ := text?_of_mem_tempsTo h hx
  refine ⟨_, hText, fun j hj hEq => ?_⟩
  have := tempName_injective hEq
  omega

theorem Own.old (h : p.Own x) : p.Old x := by
  obtain ⟨name, hText, hName⟩ := h
  refine ⟨name, hText, ?_⟩
  rintro k - rfl
  exact hName (head?_tempName k)

end Program

end CoreTree

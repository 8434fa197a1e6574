import CoreTree.Symbol

/-! # Maps keyed by symbols

A finite map, listed in ascending order of its symbols. The order is part of the type, so two
maps that agree on every symbol are equal.
-/
namespace CoreTree
set_option autoImplicit false

structure SymbolMap (α : Type) where
  entries : List (Symbol × α)
  ascending : entries.Pairwise (fun a b => a.1.id < b.1.id)

namespace SymbolMap

variable {α : Type}

def empty : SymbolMap α := ⟨[], .nil⟩

instance : Inhabited (SymbolMap α) := ⟨empty⟩

instance [DecidableEq α] : DecidableEq (SymbolMap α) := fun a b =>
  decidable_of_iff (a.entries = b.entries) (by cases a; cases b; simp)

def keys (m : SymbolMap α) : List Symbol := m.entries.map (·.1)

def lookup (key : Symbol) : List (Symbol × α) → Option α
  | [] => none
  | e :: rest => if e.1 = key then some e.2 else lookup key rest

def get? (m : SymbolMap α) (key : Symbol) : Option α := lookup key m.entries

def insertEntry (key : Symbol) (value : α) : List (Symbol × α) → List (Symbol × α)
  | [] => [(key, value)]
  | e :: rest =>
    if key.id < e.1.id then (key, value) :: e :: rest
    else if key = e.1 then (key, value) :: rest
    else e :: insertEntry key value rest

theorem mem_insertEntry {key : Symbol} {value : α} {e : Symbol × α} {l : List (Symbol × α)}
    (h : e ∈ insertEntry key value l) : e = (key, value) ∨ e ∈ l := by
  induction l with
  | nil => simpa [insertEntry] using h
  | cons head rest ih =>
    rw [insertEntry] at h
    split at h
    · simpa using h
    · split at h
      · rcases List.mem_cons.mp h with h | h
        · exact .inl h
        · exact .inr (.tail _ h)
      · rcases List.mem_cons.mp h with rfl | h
        · exact .inr (.head _)
        · exact (ih h).imp id (.tail _)

theorem ascending_insertEntry (key : Symbol) (value : α) {l : List (Symbol × α)}
    (h : l.Pairwise (fun a b => a.1.id < b.1.id)) :
    (insertEntry key value l).Pairwise (fun a b => a.1.id < b.1.id) := by
  induction l with
  | nil => simp [insertEntry]
  | cons head rest ih =>
    obtain ⟨hHead, hRest⟩ := List.pairwise_cons.mp h
    rw [insertEntry]
    split
    · rename_i hLt
      refine List.pairwise_cons.mpr ⟨fun e he => ?_, h⟩
      rcases List.mem_cons.mp he with rfl | he
      · exact hLt
      · exact Nat.lt_trans hLt (hHead e he)
    · rename_i hLt
      split
      · rename_i hEq
        subst hEq
        exact List.pairwise_cons.mpr ⟨hHead, hRest⟩
      · rename_i hNe
        refine List.pairwise_cons.mpr ⟨fun e he => ?_, ih hRest⟩
        rcases mem_insertEntry he with rfl | he
        · have : key.id ≠ head.1.id := fun h => hNe (by cases key; cases hk : head.1; simp_all)
          show head.1.id < key.id
          omega
        · exact hHead e he

def insert (m : SymbolMap α) (key : Symbol) (value : α) : SymbolMap α :=
  ⟨insertEntry key value m.entries, ascending_insertEntry key value m.ascending⟩

def erase (m : SymbolMap α) (key : Symbol) : SymbolMap α :=
  ⟨m.entries.filter (·.1 != key), m.ascending.filter _⟩

def map {β : Type} (m : SymbolMap α) (f : Symbol → α → β) : SymbolMap β :=
  ⟨m.entries.map fun e => (e.1, f e.1 e.2), List.pairwise_map.mpr m.ascending⟩

/-- The entries of both maps; where both have one, that of the second map. -/
def overlay (m n : SymbolMap α) : SymbolMap α :=
  n.entries.foldl (fun m e => m.insert e.1 e.2) m

theorem lookup_eq_none_of_lt {key : Symbol} {l : List (Symbol × α)}
    (h : ∀ e ∈ l, key.id < e.1.id) : lookup key l = none := by
  induction l with
  | nil => rfl
  | cons e rest ih =>
    have hNe : e.1 ≠ key := fun hEq => Nat.lt_irrefl _ (hEq ▸ h e (.head _))
    rw [lookup, if_neg hNe, ih fun e' he => h e' (.tail _ he)]

theorem lookup_insertEntry (key other : Symbol) (value : α) (l : List (Symbol × α)) :
    lookup other (insertEntry key value l) =
      if other = key then some value else lookup other l := by
  induction l with
  | nil => simp [insertEntry, lookup, @eq_comm _ key other]
  | cons e rest ih => rw [insertEntry]; grind [lookup]

@[simp]
theorem get?_empty (key : Symbol) : (empty : SymbolMap α).get? key = none := rfl

@[simp]
theorem get?_insert (m : SymbolMap α) (key other : Symbol) (value : α) :
    (m.insert key value).get? other = if other = key then some value else m.get? other :=
  lookup_insertEntry key other value m.entries

@[simp]
theorem get?_erase (m : SymbolMap α) (key other : Symbol) :
    (m.erase key).get? other = if other = key then none else m.get? other := by
  show lookup other (m.entries.filter (·.1 != key)) = _
  unfold get?
  induction m.entries with
  | nil => simp [lookup]
  | cons e rest ih => rw [List.filter_cons]; grind [lookup]

@[simp]
theorem get?_map {β : Type} (m : SymbolMap α) (f : Symbol → α → β) (key : Symbol) :
    (m.map f).get? key = (m.get? key).map (f key) := by
  show lookup key (m.entries.map fun e => (e.1, f e.1 e.2)) = _
  unfold get?
  induction m.entries with
  | nil => rfl
  | cons e rest ih => rw [List.map_cons]; grind [lookup]

theorem mem_entries_iff (m : SymbolMap α) (key : Symbol) (value : α) :
    (key, value) ∈ m.entries ↔ m.get? key = some value := by
  obtain ⟨entries, h⟩ := m
  show _ ∈ entries ↔ lookup key entries = _
  induction entries with
  | nil => simp [lookup]
  | cons e rest ih =>
    obtain ⟨hHead, hRest⟩ := List.pairwise_cons.mp h
    rw [List.mem_cons, ih hRest, lookup]
    split
    · rename_i hKey
      subst hKey
      rw [lookup_eq_none_of_lt hHead]
      simp [Prod.ext_iff, eq_comm]
    · rename_i hKey
      simp [show (key, value) ≠ e from fun h => hKey (h ▸ rfl)]

theorem mem_keys_iff (m : SymbolMap α) (key : Symbol) :
    key ∈ m.keys ↔ (m.get? key).isSome := by
  rw [Option.isSome_iff_exists, keys, List.mem_map]
  constructor
  · rintro ⟨⟨_, value⟩, hMem, rfl⟩
    exact ⟨value, (mem_entries_iff m _ value).mp hMem⟩
  · rintro ⟨value, h⟩
    exact ⟨(key, value), (mem_entries_iff m key value).mpr h, rfl⟩

end SymbolMap

end CoreTree

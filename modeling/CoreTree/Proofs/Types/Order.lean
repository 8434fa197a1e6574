import CoreTree.Proofs.Atoms.Law
import CoreTree.Tree.Printer
import Mathlib.Logic.Relation

/-! # The order of types

A type is made from expressions that are normalized by then, so it can mention only types with
lower numbers. To follow what types mention therefore comes to an end, and a tree that mentions
types of the pool alone is printed without a type missing and without a bound on the depth.
-/
namespace CoreTree
set_option autoImplicit false

@[simp]
def Atom.TypeBelow (count : Nat) : Atom → Prop
  | .generic type => type.index < count
  | _ => True

namespace Node

/-- Every type that the tree mentions at any depth is one of the first `count`. -/
def TypesBelow (count : Nat) : Node → Prop := AtomsAll (Atom.TypeBelow count)

variable {n : Node} {count : Nat}

theorem typesBelow_iff : n.TypesBelow count ↔
    n.AtomIs (Atom.TypeBelow count) ∧ ∀ part ∈ n.parts, part.TypesBelow count := atomsAll_iff

theorem TypesBelow.mono {count' : Nat} (hLe : count ≤ count') (h : n.TypesBelow count) :
    n.TypesBelow count' := by
  refine AtomsAll.mono h fun a ha => ?_
  cases a with
  | generic type => exact Nat.lt_of_lt_of_le ha hLe
  | _ => trivial

theorem typesBelow_iff_has : n.TypesBelow count ↔
    ∀ s type, n.Has (.atom s (.generic type)) → type.index < count := by
  constructor
  · exact fun h s type hHas => h _ (reaches_true_iff.mpr hHas)
  · intro h m hm
    have hHas := reaches_true_iff.mp hm
    unfold AtomIs
    split
    · unfold Atom.TypeBelow
      split
      · exact h _ _ hHas
      · trivial
    · trivial

end Node

/-! ## The types of a tree, listed -/

mutual
/-- The listing of types in reading order holds all that the tree mentions. -/
theorem Node.typesBelow_iff_generics (count : Nat) :
    ∀ n : Node, n.TypesBelow count ↔ ∀ type ∈ n.generics, type.index < count
  | .atom s a => by
    rw [Node.typesBelow_iff]
    cases a <;> simp [Node.generics]
  | .var .. | .regex .. | .require .. => by
    rw [Node.typesBelow_iff]
    simp [Node.generics]
  | .seq s stmts => by
    rw [Node.typesBelow_iff, Node.generics, ← listBelow_iff_generics count stmts]
    simp
  | .cond s form test body other => by
    have hBody := optionBelow_iff_generics count body
    have hOther := optionBelow_iff_generics count other
    rw [Node.typesBelow_iff, Node.generics]
    simp [or_imp, forall_and, Node.typesBelow_iff_generics count test, ← hBody, ← hOther]
  | .loop s test body => by
    have hBody := optionBelow_iff_generics count body
    rw [Node.typesBelow_iff, Node.generics]
    simp [or_imp, forall_and, Node.typesBelow_iff_generics count test, ← hBody]
  | .choose s subject whens other => by
    have hWhens := whensBelow_iff_generics count whens
    have hOther := optionBelow_iff_generics count other
    rw [Node.typesBelow_iff, Node.generics]
    simp only [List.mem_append, or_imp, forall_and, ← hWhens, ← hOther,
      ← Node.typesBelow_iff_generics count subject, Node.parts, List.forall_mem_cons, and_assoc]
    simp
  | .logic s op left right => by
    rw [Node.typesBelow_iff, Node.generics]
    simp [or_imp, forall_and, Node.typesBelow_iff_generics count left,
      Node.typesBelow_iff_generics count right]
  | .jump s kind value => by
    rw [Node.typesBelow_iff, Node.generics, ← optionBelow_iff_generics count value]
    simp
  | .assign s target value => by
    rw [Node.typesBelow_iff, Node.generics]
    simp [or_imp, forall_and, Node.typesBelow_iff_generics count target,
      Node.typesBelow_iff_generics count value]
  | .multi s targets values => by
    have hTargets := listBelow_iff_generics count targets
    have hValues := listBelow_iff_generics count values
    rw [Node.typesBelow_iff, Node.generics]
    simp [or_imp, forall_and, ← hTargets, ← hValues]
  | .call s receiver name args none => by
    have hReceiver := optionBelow_iff_generics count receiver
    have hArgs := listBelow_iff_generics count args
    rw [Node.typesBelow_iff, Node.generics]
    simp [or_imp, forall_and, ← hReceiver, ← hArgs]
  | .call s receiver name args (some ⟨params, body⟩) => by
    have hReceiver := optionBelow_iff_generics count receiver
    have hArgs := listBelow_iff_generics count args
    have hBody := optionBelow_iff_generics count body
    rw [Node.typesBelow_iff, Node.generics]
    simp [or_imp, forall_and, ← hReceiver, ← hArgs, ← hBody]
  | .isA s subject type => by
    rw [Node.typesBelow_iff, Node.generics, ← Node.typesBelow_iff_generics count subject]
    simp
  | .define s kind name params body => by
    have hParams := paramsBelow_iff_generics count params
    have hBody := optionBelow_iff_generics count body
    rw [Node.typesBelow_iff, Node.generics]
    simp only [Node.parts, List.mem_append, or_imp, forall_and, ← hParams, ← hBody]
    simp
  | .interp s pieces => by
    rw [Node.typesBelow_iff, Node.generics, ← listBelow_iff_generics count pieces]
    simp
  | .range s first last exclusive => by
    rw [Node.typesBelow_iff, Node.generics]
    simp [or_imp, forall_and, Node.typesBelow_iff_generics count first,
      Node.typesBelow_iff_generics count last]
  | .array s elements type => by
    rw [Node.typesBelow_iff, Node.generics, ← listBelow_iff_generics count elements]
    simp
  | .hash s entries types => by
    rw [Node.typesBelow_iff, Node.generics, ← entriesBelow_iff_generics count entries]
    simp

theorem optionBelow_iff_generics (count : Nat) : ∀ n : Option Node,
    (∀ m, n = some m → m.TypesBelow count) ↔ ∀ type ∈ optionGenerics n, type.index < count
  | none => by simp [optionGenerics]
  | some n => by simp [optionGenerics, Node.typesBelow_iff_generics count n]

theorem listBelow_iff_generics (count : Nat) : ∀ ns : List Node,
    (∀ n ∈ ns, n.TypesBelow count) ↔ ∀ type ∈ listGenerics ns, type.index < count
  | [] => by simp [listGenerics]
  | n :: ns => by
    have hRest := listBelow_iff_generics count ns
    simp [listGenerics, Node.typesBelow_iff_generics count n, or_imp, forall_and, ← hRest]

theorem whensBelow_iff_generics (count : Nat) : ∀ ws : List (When Node),
    (∀ n ∈ ws.flatMap (fun w => w.patterns ++ w.body.toList), n.TypesBelow count) ↔
      ∀ type ∈ whenGenerics ws, type.index < count
  | [] => by simp [whenGenerics]
  | ⟨patterns, body⟩ :: ws => by
    have hPatterns := listBelow_iff_generics count patterns
    have hBody := optionBelow_iff_generics count body
    have hRest := whensBelow_iff_generics count ws
    simp only [whenGenerics, List.flatMap_cons, List.mem_append, or_imp, forall_and, ← hRest,
      ← hPatterns, ← hBody, Option.mem_toList]

theorem paramsBelow_iff_generics (count : Nat) : ∀ ps : List (Param Node),
    (∀ n ∈ ps.filterMap (·.default), n.TypesBelow count) ↔
      ∀ type ∈ paramGenerics ps, type.index < count
  | [] => by simp [paramGenerics]
  | ⟨name, default⟩ :: ps => by
    have hDefault := optionBelow_iff_generics count default
    have hRest := paramsBelow_iff_generics count ps
    simp only [paramGenerics, List.mem_append, or_imp, forall_and, ← hRest, ← hDefault]
    cases default <;> simp

theorem entriesBelow_iff_generics (count : Nat) : ∀ es : List (HashEntry Node),
    (∀ n ∈ es.flatMap (fun e => [e.key, e.value]), n.TypesBelow count) ↔
      ∀ type ∈ entryGenerics es, type.index < count
  | [] => by simp [entryGenerics]
  | ⟨key, value⟩ :: es => by
    have hRest := entriesBelow_iff_generics count es
    simp only [entryGenerics, List.flatMap_cons, List.mem_append, or_imp, forall_and, ← hRest,
      ← Node.typesBelow_iff_generics count key, ← Node.typesBelow_iff_generics count value]
    simp
end

/-! ## The types of a pool -/

namespace TypePool

variable {p : TypePool} {t : GenericType}

/-- A type mentions only types with lower numbers. -/
def Ordered (p : TypePool) : Prop :=
  ∀ type t, p.get? type = some t → ∀ e ∈ t.exprs, e.TypesBelow type.index

/-- The first type stands in an expression of the second. -/
def Mentions (p : TypePool) (inner outer : TypeId) : Prop :=
  ∃ t, p.get? outer = some t ∧ inner ∈ listGenerics t.exprs

theorem ordered_empty : empty.Ordered := by simp [Ordered, empty, get?]

theorem prefix_intern (p : TypePool) (t : GenericType) : p.types <+: (p.intern t).2.types := by
  unfold intern
  split
  · exact List.prefix_refl _
  · exact List.prefix_append _ _

theorem index_lt_size {type : TypeId} (h : p.get? type = some t) : type.index < p.size :=
  (List.getElem?_eq_some_iff.mp h).1

theorem exists_get? {type : TypeId} (h : type.index < p.size) : ∃ t, p.get? type = some t :=
  ⟨_, List.getElem?_eq_getElem h⟩

theorem index_intern_lt (p : TypePool) (t : GenericType) :
    (p.intern t).1.index < (p.intern t).2.size :=
  index_lt_size (p.get?_intern t)

/-- A new type is the last one, and an old one stays where it is. -/
theorem Ordered.intern (h : p.Ordered) (ht : ∀ e ∈ t.exprs, e.TypesBelow p.size) :
    (p.intern t).2.Ordered := by
  unfold TypePool.intern
  split
  · exact h
  · intro type u hu
    rcases Nat.lt_or_ge type.index p.size with hLt | hGe
    · rw [get?, List.getElem?_append_left hLt] at hu
      exact h type u hu
    · rw [get?, List.getElem?_append_right hGe, List.getElem?_singleton] at hu
      split at hu
      · cases hu
        exact fun e he => (ht e he).mono hGe
      · cases hu

variable (h : p.Ordered)
include h

theorem Ordered.index_lt {inner outer : TypeId} (hMentions : p.Mentions inner outer) :
    inner.index < outer.index := by
  obtain ⟨t, ht, hInner⟩ := hMentions
  exact (listBelow_iff_generics outer.index t.exprs).mp (h outer t ht) inner hInner

theorem Ordered.wellFounded_mentions : WellFounded p.Mentions :=
  Subrelation.wf h.index_lt (InvImage.wf TypeId.index Nat.lt_wfRel.wf)

/-- Whatever a type of the pool mentions, directly or not, is in the pool. -/
theorem Ordered.index_lt_of_reflTransGen {inner outer : TypeId}
    (hReaches : Relation.ReflTransGen p.Mentions inner outer) (hOuter : outer.index < p.size) :
    inner.index < p.size := by
  induction hReaches with
  | refl => exact hOuter
  | tail _ hStep ih => exact ih (Nat.lt_trans (h.index_lt hStep) hOuter)

theorem Ordered.missing?_eq_none (depth : Nat) {types : List TypeId}
    (hTypes : ∀ type ∈ types, type.index < p.size) : p.missing? depth types = none := by
  induction depth generalizing types with
  | zero => rfl
  | succ depth ih =>
    refine List.findSome?_eq_none_iff.mpr fun type hType => ?_
    obtain ⟨t, ht⟩ := exists_get? (hTypes type hType)
    simp only [ht]
    exact ih fun inner hInner => Nat.lt_trans (h.index_lt ⟨t, ht, hInner⟩) (hTypes type hType)

end TypePool

end CoreTree

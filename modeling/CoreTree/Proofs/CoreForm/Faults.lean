import CoreTree.Proofs.CoreForm.Everywhere
import CoreTree.Tree.Query

/-! # Faults of a tree

The ways in which one node can be against core form, each with the report that names it. The check
walks the tree once and stops at a fault. It passes exactly the trees in which no node is at fault,
at any depth and in any position, and what it reports otherwise is the fault of a node of the tree.
-/
namespace CoreTree
set_option autoImplicit false

namespace Node

/-- Constructs that normalization takes away. -/
@[simp]
def IsSugar : Node → Prop
  | .cond _ .whenFalse _ _ _ | .choose .. | .logic .. | .interp .. | .range .. | .regex ..
  | .array .. | .hash .. | .require .. => True
  | _ => False

def IsSequence : Node → Prop
  | .seq .. => True
  | _ => False

/-- What can be wrong with one node, whatever its parts are like. -/
inductive AtFault : Node → CoreFault → Prop where
  | sugar {n : Node} (h : n.IsSugar) : AtFault n (.sugar n.span)
  | shortSequence {s : Span} {stmts : List Node} (h : stmts.length < 2) :
    AtFault (.seq s stmts) (.shortSequence s stmts.length)
  | nestedSequence {s : Span} {stmts : List Node} {n : Node} (hMem : n ∈ stmts)
    (h : n.IsSequence ∨ n.isNop = true) : AtFault (.seq s stmts) (.nestedSequence n.span)
  | defaults {s : Span} {kind : DefKind} {name : Symbol} {params : List (Param Node)}
    {body : Option Node} {p : Param Node} (hMem : p ∈ params) (h : p.default.isSome = true) :
    AtFault (.define s kind name params body) (.defaults s)

theorem isStatement_eq_false_iff (n : Node) :
    n.isStatement = false ↔ n.IsSequence ∨ n.isNop = true := by
  cases n with
  | atom s a => cases a <;> simp [isStatement, IsSequence, isNop]
  | _ => simp [isStatement, IsSequence, isNop]

theorem IsSugar.not_isCore {n : Node} (h : n.IsSugar) : ¬ n.IsCore := by
  cases n with
  | cond s form test body other => cases form <;> simp_all
  | _ => simp_all

/-- A node is as core form asks exactly if nothing is wrong with it. -/
theorem isCore_iff_not_atFault (n : Node) : n.IsCore ↔ ∀ f, ¬ n.AtFault f := by
  constructor
  · rintro hCore f (hSugar | hShort | ⟨hMem, hNested⟩ | ⟨hMem, hSome⟩)
    · exact hSugar.not_isCore hCore
    · exact Nat.not_le.mpr hShort hCore.1
    · have hStatement := hCore.2 _ hMem
      rw [(isStatement_eq_false_iff _).mpr hNested] at hStatement
      cases hStatement
    · rw [hCore _ hMem] at hSome
      cases hSome
  · intro hNone
    have hPlain : ¬ n.IsSugar := fun h => hNone _ (.sugar h)
    cases n with
    | cond s form test body other => cases form <;> simp_all
    | seq s stmts =>
      refine ⟨Nat.not_lt.mp fun h => hNone _ (.shortSequence h), fun n hn => ?_⟩
      by_contra hNested
      exact hNone _ (.nestedSequence hn ((isStatement_eq_false_iff n).mp (by simpa using hNested)))
    | define s kind name params body =>
      intro p hp
      by_contra hSome
      exact hNone _ (.defaults hp (Option.isSome_iff_ne_none.mpr hSome))
    | _ => simp_all

/-- One of the nodes that the tree holds has this fault. -/
def HasFault (root : Node) (f : CoreFault) : Prop := ∃ n, root.Has n ∧ n.AtFault f

theorem AtFault.hasFault {n : Node} {f : CoreFault} (h : n.AtFault f) : n.HasFault f :=
  ⟨n, .root, h⟩

theorem HasFault.of_part {root part : Node} {f : CoreFault} (h : part.HasFault f)
    (hPart : part ∈ root.parts) : root.HasFault f :=
  let ⟨n, hHas, hFault⟩ := h
  ⟨n, .of_part hPart hHas, hFault⟩

/-- The check stops at sugar. -/
theorem IsSugar.hasFault {n : Node} {f : CoreFault} (h : n.IsSugar)
    (hFault : n.coreFault? = some f) : n.HasFault f := by
  have hSugar : n.coreFault? = some (.sugar n.span) := by
    cases n with
    | cond s form test body other =>
      cases form with
      | whenTrue => exact h.elim
      | whenFalse => rfl
    | atom | var | seq | loop | jump | assign | multi | call | isA | define => exact h.elim
    | _ => rfl
  obtain rfl := Option.some.inj (hSugar.symm.trans hFault)
  exact (AtFault.sugar h).hasFault

end Node

open Node

mutual
/-- What the check reports is wrong with a node of the tree. -/
theorem Node.hasFault_of_coreFault? {f : CoreFault} :
    ∀ n : Node, n.coreFault? = some f → n.HasFault f
  | .atom .., h | .var .., h => by simp [Node.coreFault?] at h
  | .seq s stmts, h => by
    rw [Node.coreFault?] at h
    split at h
    · cases h
      exact (AtFault.shortSequence (by omega)).hasFault
    · obtain ⟨n, hn, ⟨hStatement, rfl⟩ | hFault⟩ := hasFault_of_stmtsFault? stmts h
      · exact (AtFault.nestedSequence hn ((isStatement_eq_false_iff n).mp hStatement)).hasFault
      · exact hFault.of_part hn
  | .cond s .whenTrue test body other, h => by
    simp only [Node.coreFault?, Option.orElse_eq_some] at h
    obtain hTest | ⟨-, hBody | ⟨-, hOther⟩⟩ := h
    · exact (Node.hasFault_of_coreFault? test hTest).of_part (.head _)
    · obtain ⟨n, hn, hFault⟩ := hasFault_of_optionFault? body hBody
      exact hFault.of_part (by simp [Option.mem_def.mp hn])
    · obtain ⟨n, hn, hFault⟩ := hasFault_of_optionFault? other hOther
      exact hFault.of_part (by simp [Option.mem_def.mp hn])
  | .loop s test body, h => by
    simp only [Node.coreFault?, Option.orElse_eq_some] at h
    obtain hTest | ⟨-, hBody⟩ := h
    · exact (Node.hasFault_of_coreFault? test hTest).of_part (.head _)
    · obtain ⟨n, hn, hFault⟩ := hasFault_of_optionFault? body hBody
      exact hFault.of_part (by simp [Option.mem_def.mp hn])
  | .jump s kind value, h => by
    rw [Node.coreFault?] at h
    obtain ⟨n, hn, hFault⟩ := hasFault_of_optionFault? value h
    exact hFault.of_part (by simp [Option.mem_def.mp hn])
  | .assign s target value, h => by
    simp only [Node.coreFault?, Option.orElse_eq_some] at h
    obtain hTarget | ⟨-, hValue⟩ := h
    · exact (Node.hasFault_of_coreFault? target hTarget).of_part (.head _)
    · exact (Node.hasFault_of_coreFault? value hValue).of_part (.tail _ (.head _))
  | .multi s targets values, h => by
    simp only [Node.coreFault?, Option.orElse_eq_some] at h
    obtain hTargets | ⟨-, hValues⟩ := h
    · obtain ⟨n, hn, hFault⟩ := hasFault_of_listFault? targets hTargets
      exact hFault.of_part (List.mem_append_left _ hn)
    · obtain ⟨n, hn, hFault⟩ := hasFault_of_listFault? values hValues
      exact hFault.of_part (List.mem_append_right _ hn)
  | .call s receiver name args none, h => by
    simp only [Node.coreFault?, Option.orElse_eq_some] at h
    obtain hReceiver | ⟨-, hArgs⟩ := h
    · obtain ⟨n, hn, hFault⟩ := hasFault_of_optionFault? receiver hReceiver
      exact hFault.of_part (by simp [Option.mem_def.mp hn])
    · obtain ⟨n, hn, hFault⟩ := hasFault_of_listFault? args hArgs
      exact hFault.of_part (by simp [hn])
  | .call s receiver name args (some ⟨params, body⟩), h => by
    simp only [Node.coreFault?, Option.orElse_eq_some] at h
    obtain hReceiver | ⟨-, hArgs | ⟨-, hBody⟩⟩ := h
    · obtain ⟨n, hn, hFault⟩ := hasFault_of_optionFault? receiver hReceiver
      exact hFault.of_part (by simp [Option.mem_def.mp hn])
    · obtain ⟨n, hn, hFault⟩ := hasFault_of_listFault? args hArgs
      exact hFault.of_part (by simp [hn])
    · obtain ⟨n, hn, hFault⟩ := hasFault_of_optionFault? body hBody
      exact hFault.of_part (by simp [Option.mem_def.mp hn])
  | .isA s subject type, h => by
    rw [Node.coreFault?] at h
    exact (Node.hasFault_of_coreFault? subject h).of_part (.head _)
  | .define s kind name params body, h => by
    rw [Node.coreFault?] at h
    split at h
    · rename_i hDefault
      cases h
      obtain ⟨p, hp, hSome⟩ := List.any_eq_true.mp hDefault
      exact (AtFault.defaults hp hSome).hasFault
    · obtain ⟨n, hn, hFault⟩ := hasFault_of_optionFault? body h
      exact hFault.of_part (by simp [Option.mem_def.mp hn])
  | .cond _ .whenFalse _ _ _, h | .choose .., h | .logic .., h | .interp .., h | .range .., h
  | .regex .., h | .array .., h | .hash .., h | .require .., h => IsSugar.hasFault trivial h

theorem hasFault_of_optionFault? {f : CoreFault} :
    ∀ n : Option Node, optionFault? n = some f → ∃ m ∈ n, m.HasFault f
  | none, h => by simp [optionFault?] at h
  | some n, h => by
    rw [optionFault?] at h
    exact ⟨n, rfl, Node.hasFault_of_coreFault? n h⟩

theorem hasFault_of_listFault? {f : CoreFault} :
    ∀ ns : List Node, listFault? ns = some f → ∃ n ∈ ns, n.HasFault f
  | [], h => by simp [listFault?] at h
  | n :: ns, h => by
    simp only [listFault?, Option.orElse_eq_some] at h
    obtain hFirst | ⟨-, hRest⟩ := h
    · exact ⟨n, .head _, Node.hasFault_of_coreFault? n hFirst⟩
    · obtain ⟨m, hm, hFault⟩ := hasFault_of_listFault? ns hRest
      exact ⟨m, .tail _ hm, hFault⟩

theorem hasFault_of_stmtsFault? {f : CoreFault} : ∀ ns : List Node, stmtsFault? ns = some f →
    ∃ n ∈ ns, (n.isStatement = false ∧ f = .nestedSequence n.span) ∨ n.HasFault f
  | [], h => by simp [stmtsFault?] at h
  | n :: ns, h => by
    rw [stmtsFault?] at h
    split at h
    · simp only [Option.orElse_eq_some] at h
      obtain hFirst | ⟨-, hRest⟩ := h
      · exact ⟨n, .head _, .inr (Node.hasFault_of_coreFault? n hFirst)⟩
      · obtain ⟨m, hm, hFault⟩ := hasFault_of_stmtsFault? ns hRest
        exact ⟨m, .tail _ hm, hFault⟩
    · rename_i hNested
      cases h
      exact ⟨n, .head _, .inl ⟨by simpa using hNested, rfl⟩⟩
end

theorem GenericType.mem_exprs_iff (t : GenericType) (e : Node) :
    e ∈ t.exprs ↔ ∃ nodes, .merged nodes ∈ t.args ∧ e ∈ nodes := by
  simp only [exprs, List.mem_flatMap]
  constructor
  · rintro ⟨arg, hArg, he⟩
    cases arg with
    | named path => cases he
    | merged nodes => exact ⟨nodes, hArg, he⟩
  · rintro ⟨nodes, hArg, he⟩
    exact ⟨_, hArg, he⟩

/-- The check passes exactly the trees without a fault at any depth, and a pool of types exactly
if no expression of a merged argument of its types has one. What it reports otherwise is a fault
of the tree, or of one of these expressions. -/
theorem check_passes_core_grammar :
    (∀ n : Node, n.coreFault? = none ↔ ∀ m, n.Has m → ∀ f, ¬ m.AtFault f) ∧
    (∀ p : TypePool, p.coreFault? = none ↔ ∀ t ∈ p.types, ∀ nodes, .merged nodes ∈ t.args →
      ∀ e ∈ nodes, ∀ m, e.Has m → ∀ f, ¬ m.AtFault f) ∧
    (∀ (n : Node) f, n.coreFault? = some f → ∃ m, n.Has m ∧ m.AtFault f) ∧
    ∀ (p : TypePool) f, p.coreFault? = some f → ∃ t ∈ p.types, ∃ nodes, .merged nodes ∈ t.args ∧
      ∃ e ∈ nodes, ∃ m, e.Has m ∧ m.AtFault f := by
  have hNode : ∀ n : Node, n.coreFault? = none ↔ ∀ m, n.Has m → ∀ f, ¬ m.AtFault f := fun n => by
    rw [Node.coreFault?_eq_none_iff]
    exact forall₂_congr fun m _ => isCore_iff_not_atFault m
  refine ⟨hNode, fun p => ?_, fun n f => Node.hasFault_of_coreFault? n, fun p f h => ?_⟩
  · rw [TypePool.coreFault?_eq_none_iff]
    refine forall₂_congr fun t _ => ?_
    constructor
    · exact fun h nodes hArg e he =>
        (hNode e).mp (e.coreFault?_eq_none_iff.mpr
          (h e ((t.mem_exprs_iff e).mpr ⟨nodes, hArg, he⟩)))
    · intro h e he
      obtain ⟨nodes, hArg, he⟩ := (t.mem_exprs_iff e).mp he
      exact e.coreFault?_eq_none_iff.mp ((hNode e).mpr (h nodes hArg e he))
  · obtain ⟨e, hMem, hFault⟩ := hasFault_of_listFault? _ h
    obtain ⟨t, ht, he⟩ := List.mem_flatMap.mp hMem
    obtain ⟨nodes, hArg, he⟩ := (t.mem_exprs_iff e).mp he
    exact ⟨t, ht, nodes, hArg, e, he, hFault⟩

end CoreTree

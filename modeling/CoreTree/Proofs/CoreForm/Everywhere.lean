import CoreTree.CoreForm
import Mathlib.Data.Option.Basic

/-! # Core form at every depth

What core form asks of one node, and of every node that a tree holds at any depth. The check
that reports the first fault finds none exactly if every node is as it should be.
-/
namespace CoreTree
set_option autoImplicit false

namespace Node

@[simp]
def parts : Node → List Node
  | .atom .. | .var .. | .regex .. | .require .. => []
  | .seq _ stmts => stmts
  | .cond _ _ test body other => test :: (body.toList ++ other.toList)
  | .loop _ test body => test :: body.toList
  | .choose _ subject whens other =>
    subject :: (whens.flatMap (fun w => w.patterns ++ w.body.toList) ++ other.toList)
  | .logic _ _ left right => [left, right]
  | .jump _ _ value => value.toList
  | .assign _ target value => [target, value]
  | .multi _ targets values => targets ++ values
  | .call _ receiver _ args block =>
    receiver.toList ++ (args ++ (block.bind (·.body)).toList)
  | .isA _ subject _ => [subject]
  | .define _ _ _ params body => params.filterMap (·.default) ++ body.toList
  | .interp _ pieces => pieces
  | .range _ first last _ => [first, last]
  | .array _ elements _ => elements
  | .hash _ entries _ => entries.flatMap fun e => [e.key, e.value]

/-- A node that a tree holds at any depth, the tree itself included. -/
inductive Has (root : Node) : Node → Prop where
  | root : root.Has root
  | part {n part : Node} (h : root.Has n) (hPart : part ∈ n.parts) : root.Has part

/-- What core form asks of one node: it is no sugar, a definition has no default values, and a
sequence has two statements or more, none of them a sequence or empty. -/
@[simp]
def IsCore : Node → Prop
  | .cond _ .whenFalse _ _ _ | .choose .. | .logic .. | .interp .. | .range .. | .regex ..
  | .array .. | .hash .. | .require .. => False
  | .seq _ stmts => 2 ≤ stmts.length ∧ ∀ n ∈ stmts, n.isStatement = true
  | .define _ _ _ params _ => ∀ p ∈ params, p.default = none
  | _ => True

/-- Every node is as core form asks, at any depth. -/
def AllCore (root : Node) : Prop := ∀ n, root.Has n → n.IsCore

theorem Has.of_part {root part n : Node} (hPart : part ∈ root.parts) (h : part.Has n) :
    root.Has n := by
  induction h with
  | root => exact .part .root hPart
  | part _ hMem ih => exact .part ih hMem

theorem Has.cases_root {root n : Node} (h : root.Has n) :
    n = root ∨ ∃ part ∈ root.parts, part.Has n := by
  induction h with
  | root => exact .inl rfl
  | part _ hMem ih =>
    obtain rfl | ⟨p, hp, hHas⟩ := ih
    · exact .inr ⟨_, hMem, .root⟩
    · exact .inr ⟨p, hp, .part hHas hMem⟩

theorem forall_has_iff {P : Node → Prop} (n : Node) : (∀ m, n.Has m → P m) ↔
    P n ∧ ∀ part ∈ n.parts, ∀ m, part.Has m → P m := by
  constructor
  · exact fun h => ⟨h n .root, fun part hPart m hm => h m (.of_part hPart hm)⟩
  · rintro ⟨hRoot, hParts⟩ m hm
    obtain rfl | ⟨part, hPart, hHas⟩ := hm.cases_root
    · exact hRoot
    · exact hParts part hPart m hHas

theorem allCore_iff (n : Node) : n.AllCore ↔ n.IsCore ∧ ∀ part ∈ n.parts, part.AllCore :=
  n.forall_has_iff

variable {s : Span}

@[simp]
theorem allCore_atom (a : Atom) : (Node.atom s a).AllCore := by
  rw [allCore_iff]
  simp

@[simp]
theorem allCore_var (v : Var) : (Node.var s v).AllCore := by
  rw [allCore_iff]
  simp

@[simp]
theorem allCore_seq {stmts : List Node} : (Node.seq s stmts).AllCore ↔
    2 ≤ stmts.length ∧ ∀ n ∈ stmts, n.isStatement = true ∧ n.AllCore := by
  rw [allCore_iff]
  simp [forall_and, and_assoc]

@[simp]
theorem allCore_cond {form : CondForm} {test : Node} {body other : Option Node} :
    (Node.cond s form test body other).AllCore ↔ form = .whenTrue ∧ test.AllCore ∧
      (∀ n ∈ body, n.AllCore) ∧ ∀ n ∈ other, n.AllCore := by
  rw [allCore_iff]
  cases form <;> simp [or_imp, forall_and]

@[simp]
theorem allCore_loop {test : Node} {body : Option Node} :
    (Node.loop s test body).AllCore ↔ test.AllCore ∧ ∀ n ∈ body, n.AllCore := by
  rw [allCore_iff]
  simp

@[simp]
theorem allCore_jump {kind : JumpKind} {value : Option Node} :
    (Node.jump s kind value).AllCore ↔ ∀ n ∈ value, n.AllCore := by
  rw [allCore_iff]
  simp

@[simp]
theorem allCore_assign {target value : Node} :
    (Node.assign s target value).AllCore ↔ target.AllCore ∧ value.AllCore := by
  rw [allCore_iff]
  simp

@[simp]
theorem allCore_multi {targets values : List Node} : (Node.multi s targets values).AllCore ↔
    (∀ n ∈ targets, n.AllCore) ∧ ∀ n ∈ values, n.AllCore := by
  rw [allCore_iff]
  simp [or_imp, forall_and]

@[simp]
theorem allCore_call {receiver : Option Node} {name : Symbol} {args : List Node}
    {block : Option (Block Node)} : (Node.call s receiver name args block).AllCore ↔
      (∀ n ∈ receiver, n.AllCore) ∧ (∀ n ∈ args, n.AllCore) ∧
        ∀ b ∈ block, ∀ n ∈ b.body, n.AllCore := by
  rw [allCore_iff]
  cases block <;> simp [or_imp, forall_and]

@[simp]
theorem allCore_isA {subject : Node} {type : ConstPath} :
    (Node.isA s subject type).AllCore ↔ subject.AllCore := by
  rw [allCore_iff]
  simp

@[simp]
theorem allCore_define {kind : DefKind} {name : Symbol} {params : List (Param Node)}
    {body : Option Node} : (Node.define s kind name params body).AllCore ↔
      (∀ p ∈ params, p.default = none) ∧ ∀ n ∈ body, n.AllCore := by
  rw [allCore_iff, IsCore, parts]
  constructor
  · rintro ⟨hParams, hParts⟩
    exact ⟨hParams, fun n hn => hParts n (List.mem_append_right _ (Option.mem_toList.mpr hn))⟩
  · rintro ⟨hParams, hBody⟩
    refine ⟨hParams, fun n hn => ?_⟩
    rcases List.mem_append.mp hn with hn | hn
    · obtain ⟨p, hp, hDefault⟩ := List.mem_filterMap.mp hn
      rw [hParams p hp] at hDefault
      cases hDefault
    · exact hBody n (Option.mem_toList.mp hn)

theorem not_allCore_of_not_isCore {n : Node} (h : ¬ n.IsCore) : ¬ n.AllCore := fun hAll =>
  h (hAll n .root)

end Node

/-! ## The check -/

mutual
/-- The check finds no fault exactly if there is none at any depth. -/
theorem Node.coreFault?_eq_none_iff : ∀ n : Node, n.coreFault? = none ↔ n.AllCore
  | .atom s a => by
    rw [Node.coreFault?]
    exact iff_of_true rfl (Node.allCore_atom a)
  | .var s v => by
    rw [Node.coreFault?]
    exact iff_of_true rfl (Node.allCore_var v)
  | .seq s stmts => by
    rw [Node.coreFault?, Node.allCore_seq, ← stmtsFault?_eq_none_iff stmts]
    split
    · rename_i hShort
      refine iff_of_false nofun fun h => ?_
      omega
    · rename_i hLong
      exact (and_iff_right (by omega)).symm
  | .cond s form test body other => by
    have hTest := Node.coreFault?_eq_none_iff test
    have hBody := optionFault?_eq_none_iff body
    have hOther := optionFault?_eq_none_iff other
    rw [Node.allCore_cond]
    cases form with
    | whenTrue => simp [Node.coreFault?, hTest, hBody, hOther]
    | whenFalse => simp [Node.coreFault?]
  | .loop s test body => by
    rw [Node.allCore_loop, ← Node.coreFault?_eq_none_iff test, ← optionFault?_eq_none_iff body,
      Node.coreFault?, Option.orElse_eq_none]
  | .jump s kind value => by
    rw [Node.allCore_jump, ← optionFault?_eq_none_iff value, Node.coreFault?]
  | .assign s target value => by
    rw [Node.allCore_assign, ← Node.coreFault?_eq_none_iff target,
      ← Node.coreFault?_eq_none_iff value, Node.coreFault?, Option.orElse_eq_none]
  | .multi s targets values => by
    rw [Node.allCore_multi, ← listFault?_eq_none_iff targets, ← listFault?_eq_none_iff values,
      Node.coreFault?, Option.orElse_eq_none]
  | .call s receiver name args none => by
    rw [Node.allCore_call, ← optionFault?_eq_none_iff receiver, ← listFault?_eq_none_iff args,
      Node.coreFault?, Option.orElse_eq_none]
    simp
  | .call s receiver name args (some ⟨params, body⟩) => by
    rw [Node.allCore_call, ← optionFault?_eq_none_iff receiver, ← listFault?_eq_none_iff args,
      Node.coreFault?, Option.orElse_eq_none, Option.orElse_eq_none, optionFault?_eq_none_iff body]
    simp
  | .isA s subject type => by
    rw [Node.allCore_isA, ← Node.coreFault?_eq_none_iff subject, Node.coreFault?]
  | .define s kind name params body => by
    rw [Node.allCore_define, ← optionFault?_eq_none_iff body, Node.coreFault?]
    split
    · rename_i hDefault
      refine iff_of_false nofun fun h => ?_
      obtain ⟨p, hp, hSome⟩ := List.any_eq_true.mp hDefault
      rw [h.1 p hp] at hSome
      cases hSome
    · rename_i hPlain
      refine (and_iff_right fun p hp => ?_).symm
      by_contra hSome
      exact hPlain (List.any_eq_true.mpr ⟨p, hp, Option.isSome_iff_ne_none.mpr hSome⟩)
  | .choose .. | .logic .. | .interp .. | .range .. | .regex .. | .array .. | .hash ..
  | .require .. => by
    rw [Node.coreFault?]
    exact iff_of_false nofun (Node.not_allCore_of_not_isCore id)

theorem optionFault?_eq_none_iff :
    ∀ n : Option Node, optionFault? n = none ↔ ∀ m ∈ n, m.AllCore
  | none => by simp [optionFault?]
  | some n => by simp [optionFault?, Node.coreFault?_eq_none_iff n]

theorem listFault?_eq_none_iff : ∀ ns : List Node, listFault? ns = none ↔ ∀ n ∈ ns, n.AllCore
  | [] => by simp [listFault?]
  | n :: ns => by
    simp [listFault?, Node.coreFault?_eq_none_iff n, listFault?_eq_none_iff ns]

theorem stmtsFault?_eq_none_iff :
    ∀ ns : List Node, stmtsFault? ns = none ↔ ∀ n ∈ ns, n.isStatement = true ∧ n.AllCore
  | [] => by simp [stmtsFault?]
  | n :: ns => by
    have hHead := Node.coreFault?_eq_none_iff n
    have hTail := stmtsFault?_eq_none_iff ns
    rw [stmtsFault?]
    split <;> simp_all
end

theorem TypePool.coreFault?_eq_none_iff (p : TypePool) :
    p.coreFault? = none ↔ ∀ t ∈ p.types, ∀ e ∈ t.exprs, e.AllCore := by
  rw [coreFault?, listFault?_eq_none_iff]
  simp only [List.mem_flatMap]
  constructor
  · exact fun h t ht e he => h e ⟨t, ht, he⟩
  · rintro h e ⟨t, ht, he⟩
    exact h t ht e he

end CoreTree

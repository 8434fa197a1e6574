import CoreTree.Proofs.CoreForm.Everywhere

/-! # Trees that spare a variable

A tree spares a variable if nothing that runs with the tree assigns it. The body of a
definition does not run where the definition stands. What a `require` stands for is not in the
tree, so it is told apart which requires may stand in it.
-/
namespace CoreTree
set_option autoImplicit false

namespace Node

def IsDefinition : Node → Prop
  | .define .. => True
  | _ => False

/-- A node that runs when the tree does: one at any depth, but not inside a definition. -/
inductive Runs (root : Node) : Node → Prop where
  | root : root.Runs root
  | part {n part : Node} (h : root.Runs n) (hOpen : ¬ n.IsDefinition) (hPart : part ∈ n.parts) :
    root.Runs part

/-- Normalized as a target, the node may be the variable. Of anything but a variable or an atom
it is not told here what it becomes. -/
def MayBe (x : Symbol) : Node → Prop
  | .var _ v => v.name = x
  | .atom .. => False
  | _ => True

/-- The node itself does not assign the variable, as an `out` variable or as a target. -/
@[simp]
def SparesHere (allowed : Span → Symbol → Prop) (x : Symbol) : Node → Prop
  | .var _ v => v.out = true → v.name ≠ x
  | .assign _ target _ => ¬ target.MayBe x
  | .multi _ targets _ => ∀ t ∈ targets, ¬ t.MayBe x
  | .require s path => allowed s path
  | _ => True

/-- Nothing that runs with the tree assigns the variable, and every `require` in it is allowed. -/
def Spares (allowed : Span → Symbol → Prop) (x : Symbol) (root : Node) : Prop :=
  ∀ n, root.Runs n → n.SparesHere allowed x

def noRequire (_ : Span) (_ : Symbol) : Prop := False

theorem Runs.of_part {root part n : Node} (hOpen : ¬ root.IsDefinition)
    (hPart : part ∈ root.parts) (h : part.Runs n) : root.Runs n := by
  induction h with
  | root => exact .part .root hOpen hPart
  | part _ hOpen' hMem ih => exact .part ih hOpen' hMem

theorem Runs.cases_root {root n : Node} (h : root.Runs n) :
    n = root ∨ ¬ root.IsDefinition ∧ ∃ part ∈ root.parts, part.Runs n := by
  induction h with
  | root => exact .inl rfl
  | part _ hOpen hMem ih =>
    obtain rfl | ⟨hRoot, p, hp, hRuns⟩ := ih
    · exact .inr ⟨hOpen, _, hMem, .root⟩
    · exact .inr ⟨hRoot, p, hp, .part hRuns hOpen hMem⟩

variable {allowed : Span → Symbol → Prop} {x : Symbol} {s : Span}

theorem spares_iff (n : Node) : n.Spares allowed x ↔
    n.SparesHere allowed x ∧ (¬ n.IsDefinition → ∀ part ∈ n.parts, part.Spares allowed x) := by
  constructor
  · exact fun h => ⟨h n .root, fun hOpen part hPart m hm => h m (.of_part hOpen hPart hm)⟩
  · rintro ⟨hRoot, hParts⟩ m hm
    obtain rfl | ⟨hOpen, part, hPart, hRuns⟩ := hm.cases_root
    · exact hRoot
    · exact hParts hOpen part hPart m hRuns

@[simp]
theorem spares_atom (a : Atom) : (Node.atom s a).Spares allowed x := by
  rw [spares_iff]
  simp

@[simp]
theorem spares_var {v : Var} :
    (Node.var s v).Spares allowed x ↔ (v.out = true → v.name ≠ x) := by
  rw [spares_iff]
  simp

@[simp]
theorem spares_seq {stmts : List Node} :
    (Node.seq s stmts).Spares allowed x ↔ ∀ n ∈ stmts, n.Spares allowed x := by
  rw [spares_iff]
  simp [IsDefinition]

@[simp]
theorem spares_cond {form : CondForm} {test : Node} {body other : Option Node} :
    (Node.cond s form test body other).Spares allowed x ↔ test.Spares allowed x ∧
      (∀ n ∈ body, n.Spares allowed x) ∧ ∀ n ∈ other, n.Spares allowed x := by
  rw [spares_iff]
  simp [IsDefinition, or_imp, forall_and]

@[simp]
theorem spares_loop {test : Node} {body : Option Node} : (Node.loop s test body).Spares allowed x ↔
    test.Spares allowed x ∧ ∀ n ∈ body, n.Spares allowed x := by
  rw [spares_iff]
  simp [IsDefinition]

@[simp]
theorem spares_choose {subject : Node} {whens : List (When Node)} {other : Option Node} :
    (Node.choose s subject whens other).Spares allowed x ↔ subject.Spares allowed x ∧
      (∀ w ∈ whens, (∀ n ∈ w.patterns, n.Spares allowed x) ∧ ∀ n ∈ w.body, n.Spares allowed x) ∧
      ∀ n ∈ other, n.Spares allowed x := by
  rw [spares_iff]
  simp only [SparesHere, IsDefinition, parts, List.forall_mem_cons, List.forall_mem_append,
    List.mem_flatMap, true_and, not_false_eq_true, true_imp_iff, Option.mem_toList]
  refine and_congr_right fun _ => and_congr_left fun _ => ?_
  constructor
  · refine fun h w hw => ⟨fun n hn => h n ⟨w, hw, List.mem_append_left _ hn⟩, fun n hn => ?_⟩
    exact h n ⟨w, hw, List.mem_append_right _ (Option.mem_toList.mpr hn)⟩
  · rintro h n ⟨w, hw, hn⟩
    rcases List.mem_append.mp hn with hn | hn
    · exact (h w hw).1 n hn
    · exact (h w hw).2 n (Option.mem_toList.mp hn)

@[simp]
theorem spares_logic {op : LogicOp} {left right : Node} :
    (Node.logic s op left right).Spares allowed x ↔
      left.Spares allowed x ∧ right.Spares allowed x := by
  rw [spares_iff]
  simp [IsDefinition]

@[simp]
theorem spares_jump {kind : JumpKind} {value : Option Node} :
    (Node.jump s kind value).Spares allowed x ↔ ∀ n ∈ value, n.Spares allowed x := by
  rw [spares_iff]
  simp [IsDefinition]

@[simp]
theorem spares_assign {target value : Node} : (Node.assign s target value).Spares allowed x ↔
    ¬ target.MayBe x ∧ target.Spares allowed x ∧ value.Spares allowed x := by
  rw [spares_iff]
  simp [IsDefinition]

@[simp]
theorem spares_multi {targets values : List Node} :
    (Node.multi s targets values).Spares allowed x ↔
      (∀ t ∈ targets, ¬ t.MayBe x) ∧ (∀ t ∈ targets, t.Spares allowed x) ∧
        ∀ n ∈ values, n.Spares allowed x := by
  rw [spares_iff]
  simp [IsDefinition, or_imp, forall_and]

@[simp]
theorem spares_call {receiver : Option Node} {name : Symbol} {args : List Node}
    {block : Option (Block Node)} : (Node.call s receiver name args block).Spares allowed x ↔
      (∀ n ∈ receiver, n.Spares allowed x) ∧ (∀ n ∈ args, n.Spares allowed x) ∧
        ∀ b ∈ block, ∀ n ∈ b.body, n.Spares allowed x := by
  rw [spares_iff]
  cases block <;> simp [IsDefinition, or_imp, forall_and]

@[simp]
theorem spares_isA {subject : Node} {type : ConstPath} :
    (Node.isA s subject type).Spares allowed x ↔ subject.Spares allowed x := by
  rw [spares_iff]
  simp [IsDefinition]

@[simp]
theorem spares_define {kind : DefKind} {name : Symbol} {params : List (Param Node)}
    {body : Option Node} : (Node.define s kind name params body).Spares allowed x := by
  rw [spares_iff]
  simp [IsDefinition]

@[simp]
theorem spares_interp {pieces : List Node} :
    (Node.interp s pieces).Spares allowed x ↔ ∀ n ∈ pieces, n.Spares allowed x := by
  rw [spares_iff]
  simp [IsDefinition]

@[simp]
theorem spares_range {first last : Node} {exclusive : Bool} :
    (Node.range s first last exclusive).Spares allowed x ↔
      first.Spares allowed x ∧ last.Spares allowed x := by
  rw [spares_iff]
  simp [IsDefinition]

@[simp]
theorem spares_array {elements : List Node} {type : Option ConstPath} :
    (Node.array s elements type).Spares allowed x ↔ ∀ n ∈ elements, n.Spares allowed x := by
  rw [spares_iff]
  simp [IsDefinition]

@[simp]
theorem spares_hash {entries : List (HashEntry Node)} {types : Option HashTypes} :
    (Node.hash s entries types).Spares allowed x ↔
      ∀ e ∈ entries, e.key.Spares allowed x ∧ e.value.Spares allowed x := by
  rw [spares_iff]
  simp only [SparesHere, IsDefinition, parts, List.mem_flatMap, true_and, not_false_eq_true,
    true_imp_iff]
  constructor
  · exact fun h e he => ⟨h _ ⟨e, he, .head _⟩, h _ ⟨e, he, .tail _ (.head _)⟩⟩
  · rintro h n ⟨e, he, hn⟩
    obtain rfl | hn := List.mem_cons.mp hn
    · exact (h e he).1
    · exact List.mem_singleton.mp hn ▸ (h e he).2

@[simp]
theorem spares_require {path : Symbol} :
    (Node.require s path).Spares allowed x ↔ allowed s path := by
  rw [spares_iff]
  simp

end Node

end CoreTree

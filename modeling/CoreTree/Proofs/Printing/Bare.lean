import CoreTree.Tree.Printer

/-! # Bare trees

A tree without the places it was read from. Printing shows no place, so trees that differ in their
spans only have one text.
-/
namespace CoreTree
set_option autoImplicit false

mutual
/-- The same tree, read from nowhere. -/
def Node.bare : Node → Node
  | .atom _ a => .atom .nowhere a
  | .var _ v => .var .nowhere v
  | .seq _ stmts => .seq .nowhere (bareList stmts)
  | .cond _ form test body other =>
    .cond .nowhere form test.bare (bareOption body) (bareOption other)
  | .loop _ test body => .loop .nowhere test.bare (bareOption body)
  | .choose _ subject whens other =>
    .choose .nowhere subject.bare (bareWhens whens) (bareOption other)
  | .logic _ op left right => .logic .nowhere op left.bare right.bare
  | .jump _ kind value => .jump .nowhere kind (bareOption value)
  | .assign _ target value => .assign .nowhere target.bare value.bare
  | .multi _ targets values => .multi .nowhere (bareList targets) (bareList values)
  | .call _ receiver name args none =>
    .call .nowhere (bareOption receiver) name (bareList args) none
  | .call _ receiver name args (some ⟨params, body⟩) =>
    .call .nowhere (bareOption receiver) name (bareList args) (some ⟨params, bareOption body⟩)
  | .isA _ subject type => .isA .nowhere subject.bare type
  | .define _ kind name params body =>
    .define .nowhere kind name (bareParams params) (bareOption body)
  | .interp _ pieces => .interp .nowhere (bareList pieces)
  | .range _ first last exclusive => .range .nowhere first.bare last.bare exclusive
  | .regex _ text => .regex .nowhere text
  | .array _ elements type => .array .nowhere (bareList elements) type
  | .hash _ entries types => .hash .nowhere (bareEntries entries) types
  | .require _ path => .require .nowhere path
termination_by structural n => n

def bareOption : Option Node → Option Node
  | none => none
  | some n => some n.bare
termination_by structural n => n

def bareList : List Node → List Node
  | [] => []
  | n :: ns => n.bare :: bareList ns
termination_by structural n => n

def bareWhens : List (When Node) → List (When Node)
  | [] => []
  | ⟨patterns, body⟩ :: whens => ⟨bareList patterns, bareOption body⟩ :: bareWhens whens
termination_by structural n => n

def bareParams : List (Param Node) → List (Param Node)
  | [] => []
  | ⟨name, default⟩ :: params => ⟨name, bareOption default⟩ :: bareParams params
termination_by structural n => n

def bareEntries : List (HashEntry Node) → List (HashEntry Node)
  | [] => []
  | ⟨key, value⟩ :: entries => ⟨key.bare, value.bare⟩ :: bareEntries entries
termination_by structural n => n
end

open Printer

theorem bareList_eq_map (ns : List Node) : bareList ns = ns.map Node.bare := by
  induction ns with
  | nil => rfl
  | cons n ns ih => rw [bareList, ih, List.map_cons]

@[simp]
theorem length_bareList (ns : List Node) : (bareList ns).length = ns.length := by
  rw [bareList_eq_map, List.length_map]

theorem isEmpty_bareParams (ps : List (Param Node)) : (bareParams ps).isEmpty = ps.isEmpty := by
  cases ps <;> rfl

namespace Wording

variable (w : Wording)

@[simp]
theorem isInfix_bare (n : Node) : w.isInfix n.bare = w.isInfix n := by
  cases n with
  | call s receiver name args block =>
    cases block <;> cases receiver <;> simp [Node.bare, isInfix, bareOption]
  | _ => rfl

@[simp]
theorem operand_bare (n : Node) (text : String) : w.operand n.bare text = w.operand n text := by
  rw [operand, operand, isInfix_bare]

theorem call_bare (receiver : Option String) (name : String) (hasBlock : Bool) (args : List Node)
    (texts : List String) :
    Printer.call w receiver name ((bareList args).zip texts) hasBlock =
      Printer.call w receiver name (args.zip texts) hasBlock := by
  rw [bareList_eq_map, List.zip_map_left]
  generalize args.zip texts = pairs
  unfold Printer.call
  rw [List.length_map]
  cases receiver with
  | none => simp [Function.comp_def]
  | some r =>
    cases CallForm.of name pairs.length hasBlock with
    | plain => simp [Function.comp_def]
    | operator | indexWrite | setter =>
      rcases pairs with _ | ⟨a, _ | ⟨b, _ | ⟨c, rest⟩⟩⟩ <;> simp [Function.comp_def]

end Wording

section

variable (w : Wording)

mutual
theorem Node.expr_bare (indent : Nat) : ∀ n : Node, n.bare.expr w indent = n.expr w indent
  | .atom .. | .var .. | .regex .. | .require .. => by simp only [Node.bare, Node.expr]
  | .seq s stmts => by rw [Node.bare, Node.expr, Node.expr, exprs_bare indent stmts]
  | .cond s form test body other => by
    rw [Node.bare, Node.expr, Node.expr, Node.expr_bare indent test, bodyText_bare indent body,
      elseText_bare indent other]
  | .loop s test body => by
    rw [Node.bare, Node.expr, Node.expr, Node.expr_bare indent test, bodyText_bare indent body]
  | .choose s subject whens other => by
    rw [Node.bare, Node.expr, Node.expr, Node.expr_bare indent subject, whenTexts_bare indent whens,
      elseText_bare indent other]
  | .logic s op left right => by
    simp only [Node.bare, Node.expr, Wording.operand_bare, Node.expr_bare indent left,
      Node.expr_bare indent right]
  | .jump s kind value => by rw [Node.bare, Node.expr, Node.expr, optionExpr_bare indent value]
  | .assign s target value => by
    rw [Node.bare, Node.expr, Node.expr, Node.expr_bare indent target, Node.expr_bare indent value]
  | .multi s targets values => by
    rw [Node.bare, Node.expr, Node.expr, exprs_bare indent targets, exprs_bare indent values]
  | .call s receiver name args none => by
    rw [Node.bare, Node.expr, Node.expr, operandText_bare indent receiver, exprs_bare indent args,
      w.call_bare]
  | .call s receiver name args (some ⟨params, body⟩) => by
    rw [Node.bare, Node.expr, Node.expr, operandText_bare indent receiver, exprs_bare indent args,
      w.call_bare, bodyText_bare indent body]
  | .isA s subject type => by
    rw [Node.bare, Node.expr, Node.expr, w.operand_bare, Node.expr_bare indent subject]
  | .define s kind name params body => by
    rw [Node.bare, Node.expr, Node.expr, isEmpty_bareParams, paramTexts_bare indent params,
      bodyText_bare indent body]
  | .interp s pieces => by rw [Node.bare, Node.expr, Node.expr, pieceTexts_bare indent pieces]
  | .range s first last exclusive => by
    simp only [Node.bare, Node.expr, Wording.operand_bare, Node.expr_bare indent first,
      Node.expr_bare indent last]
  | .array s elements type => by rw [Node.bare, Node.expr, Node.expr, exprs_bare indent elements]
  | .hash s entries types => by rw [Node.bare, Node.expr, Node.expr, entryTexts_bare indent entries]

theorem optionExpr_bare (indent : Nat) :
    ∀ n : Option Node, optionExpr w indent (bareOption n) = optionExpr w indent n
  | none => rfl
  | some n => by rw [bareOption, optionExpr, optionExpr, Node.expr_bare indent n]

theorem operandText_bare (indent : Nat) :
    ∀ n : Option Node, operandText w indent (bareOption n) = operandText w indent n
  | none => rfl
  | some n => by
    rw [bareOption, operandText, operandText, w.operand_bare, Node.expr_bare indent n]

theorem bodyText_bare (indent : Nat) :
    ∀ n : Option Node, bodyText w indent (bareOption n) = bodyText w indent n
  | none => rfl
  | some n => by
    have hExpr := Node.expr_bare (indent + 1) n
    cases n with
    | seq s stmts => rw [bareOption, Node.bare, bodyText, bodyText, exprs_bare (indent + 1) stmts]
    | call s receiver name args block =>
      cases block <;> simp_all only [bareOption, Node.bare, bodyText]
    | _ => simp_all only [bareOption, Node.bare, bodyText]

theorem elseText_bare (indent : Nat) :
    ∀ n : Option Node, elseText w indent (bareOption n) = elseText w indent n
  | none => rfl
  | some n => by
    have hExpr := Node.expr_bare (indent + 1) n
    cases n with
    | seq s stmts => rw [bareOption, Node.bare, elseText, elseText, exprs_bare (indent + 1) stmts]
    | call s receiver name args block =>
      cases block <;> simp_all only [bareOption, Node.bare, elseText]
    | _ => simp_all only [bareOption, Node.bare, elseText]

theorem exprs_bare (indent : Nat) :
    ∀ ns : List Node, exprs w indent (bareList ns) = exprs w indent ns
  | [] => rfl
  | n :: ns => by
    rw [bareList, exprs, exprs, Node.expr_bare indent n, exprs_bare indent ns]

theorem whenTexts_bare (indent : Nat) :
    ∀ ws : List (When Node), whenTexts w indent (bareWhens ws) = whenTexts w indent ws
  | [] => rfl
  | ⟨patterns, body⟩ :: ws => by
    rw [bareWhens, whenTexts, whenTexts, exprs_bare indent patterns, bodyText_bare indent body,
      whenTexts_bare indent ws]

theorem paramTexts_bare (indent : Nat) :
    ∀ ps : List (Param Node), paramTexts w indent (bareParams ps) = paramTexts w indent ps
  | [] => rfl
  | ⟨name, default⟩ :: ps => by
    rw [bareParams, paramTexts, paramTexts, optionExpr_bare indent default,
      paramTexts_bare indent ps]

theorem pieceTexts_bare (indent : Nat) :
    ∀ ns : List Node, pieceTexts w indent (bareList ns) = pieceTexts w indent ns
  | [] => rfl
  | n :: ns => by
    have hExpr := Node.expr_bare indent n
    have hRest := pieceTexts_bare indent ns
    cases n with
    | atom s a => cases a <;> simp_all only [bareList, Node.bare, pieceTexts]
    | call s receiver name args block =>
      cases block <;> simp_all only [bareList, Node.bare, pieceTexts]
    | _ => simp_all only [bareList, Node.bare, pieceTexts]

theorem entryTexts_bare (indent : Nat) :
    ∀ es : List (HashEntry Node), entryTexts w indent (bareEntries es) = entryTexts w indent es
  | [] => rfl
  | ⟨key, value⟩ :: es => by
    rw [bareEntries, entryTexts, entryTexts, Node.expr_bare indent key, Node.expr_bare indent value,
      entryTexts_bare indent es]
end

theorem Node.print_bare (n : Node) : n.bare.print w = n.print w := by
  have hExpr := n.expr_bare w 0
  cases n with
  | seq s stmts => rw [Node.bare, Node.print, Node.print, exprs_bare w 0 stmts]
  | call s receiver name args block => cases block <;> simp_all only [Node.bare, Node.print]
  | _ => simp_all only [Node.bare, Node.print]

end

end CoreTree

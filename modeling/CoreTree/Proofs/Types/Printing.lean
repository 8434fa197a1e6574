import CoreTree.Proofs.Types.Order

/-! # Types spelled out

The text of a tree depends on the texts of the types that it mentions and on no other types. In an
ordered pool the text of a type is therefore the same at every depth that is large enough, and it
is put together from the texts of the types it mentions, without any bound.
-/
namespace CoreTree
set_option autoImplicit false

open Printer

namespace Wording

/-- Both spell names alike, and these types. -/
structure Agree (w v : Wording) (types : List TypeId) : Prop where
  names : w.names = v.names
  typeText : ∀ type ∈ types, ∀ indent, w.typeText indent type = v.typeText indent type

variable {w v : Wording} {types types' : List TypeId}

theorem agree_append_iff : w.Agree v (types ++ types') ↔ w.Agree v types ∧ w.Agree v types' := by
  constructor
  · exact fun h => ⟨⟨h.names, fun type hType => h.typeText type (List.mem_append_left _ hType)⟩,
      ⟨h.names, fun type hType => h.typeText type (List.mem_append_right _ hType)⟩⟩
  · rintro ⟨h, h'⟩
    refine ⟨h.names, fun type hType => ?_⟩
    rcases List.mem_append.mp hType with hType | hType
    · exact h.typeText type hType
    · exact h'.typeText type hType

theorem Agree.isInfix (h : w.Agree v types) (n : Node) : w.isInfix n = v.isInfix n := by
  unfold Wording.isInfix
  rw [h.names]

theorem Agree.operand (h : w.Agree v types) (n : Node) (text : String) :
    w.operand n text = v.operand n text := by
  unfold Wording.operand
  rw [h.isInfix]

theorem Agree.path (h : w.Agree v types) (p : ConstPath) : w.path p = v.path p := by
  unfold Wording.path
  rw [h.names]

theorem Agree.atom {s : Span} {a : Atom} (h : w.Agree v (Node.atom s a).generics) (indent : Nat) :
    w.atom indent a = v.atom indent a := by
  cases a with
  | generic type => exact h.typeText type (by simp [Node.generics]) indent
  | bool value => cases value <;> rfl
  | _ => simp [Wording.atom, Wording.path, h.names]

theorem Agree.call (h : w.Agree v types) (receiver : Option String) (name : String)
    (args : List (Node × String)) (hasBlock : Bool) :
    Printer.call w receiver name args hasBlock = Printer.call v receiver name args hasBlock := by
  unfold Printer.call
  simp only [h.operand]

end Wording

open Wording

section

variable {w v : Wording}

mutual
theorem Node.expr_congr (indent : Nat) :
    ∀ n : Node, w.Agree v n.generics → n.expr w indent = n.expr v indent
  | .atom s a, h => by
    rw [Node.expr, Node.expr, h.atom indent]
  | .var s x, h => by simp [Node.expr, Wording.var, h.names]
  | .seq s stmts, h => by
    rw [Node.generics] at h
    rw [Node.expr, Node.expr, exprs_congr indent stmts h]
  | .cond s form test body other, h => by
    rw [Node.generics, agree_append_iff, agree_append_iff] at h
    obtain ⟨⟨hTest, hBody⟩, hOther⟩ := h
    rw [Node.expr, Node.expr, Node.expr_congr indent test hTest, bodyText_congr indent body hBody,
      elseText_congr indent other hOther]
  | .loop s test body, h => by
    rw [Node.generics, agree_append_iff] at h
    rw [Node.expr, Node.expr, Node.expr_congr indent test h.1, bodyText_congr indent body h.2]
  | .choose s subject whens other, h => by
    rw [Node.generics, agree_append_iff, agree_append_iff] at h
    obtain ⟨⟨hSubject, hWhens⟩, hOther⟩ := h
    rw [Node.expr, Node.expr, Node.expr_congr indent subject hSubject,
      whenTexts_congr indent whens hWhens, elseText_congr indent other hOther]
  | .logic s op left right, h => by
    have hOperand := h.operand
    rw [Node.generics, agree_append_iff] at h
    rw [Node.expr, Node.expr, Node.expr_congr indent left h.1, Node.expr_congr indent right h.2,
      hOperand, hOperand]
  | .jump s kind value, h => by
    rw [Node.generics] at h
    rw [Node.expr, Node.expr, optionExpr_congr indent value h]
  | .assign s target value, h => by
    rw [Node.generics, agree_append_iff] at h
    rw [Node.expr, Node.expr, Node.expr_congr indent target h.1, Node.expr_congr indent value h.2]
  | .multi s targets values, h => by
    rw [Node.generics, agree_append_iff] at h
    rw [Node.expr, Node.expr, exprs_congr indent targets h.1, exprs_congr indent values h.2]
  | .call s receiver name args none, h => by
    have hCall := h.call
    have hNames := h.names
    rw [Node.generics, agree_append_iff] at h
    rw [Node.expr, Node.expr, operandText_congr indent receiver h.1, exprs_congr indent args h.2,
      hCall, hNames]
  | .call s receiver name args (some ⟨params, body⟩), h => by
    have hCall := h.call
    have hNames := h.names
    rw [Node.generics, agree_append_iff, agree_append_iff] at h
    obtain ⟨⟨hReceiver, hArgs⟩, hBody⟩ := h
    rw [Node.expr, Node.expr, operandText_congr indent receiver hReceiver,
      exprs_congr indent args hArgs, bodyText_congr indent body hBody, hCall, blockParams,
      blockParams, hNames]
  | .isA s subject type, h => by
    rw [Node.generics] at h
    rw [Node.expr, Node.expr, Node.expr_congr indent subject h, h.operand, h.path]
  | .define s kind name params body, h => by
    have hNames := h.names
    rw [Node.generics, agree_append_iff] at h
    rw [Node.expr, Node.expr, paramTexts_congr indent params h.1, bodyText_congr indent body h.2,
      hNames]
  | .interp s pieces, h => by
    rw [Node.generics] at h
    rw [Node.expr, Node.expr, pieceTexts_congr indent pieces h]
  | .range s first last exclusive, h => by
    have hOperand := h.operand
    rw [Node.generics, agree_append_iff] at h
    rw [Node.expr, Node.expr, Node.expr_congr indent first h.1, Node.expr_congr indent last h.2,
      hOperand, hOperand]
  | .regex s text, h => by rw [Node.expr, Node.expr, h.names]
  | .array s elements type, h => by
    have hPath := h.path
    rw [Node.generics] at h
    rw [Node.expr, Node.expr, exprs_congr indent elements h]
    simp only [hPath]
  | .hash s entries types, h => by
    have hPath := h.path
    rw [Node.generics] at h
    rw [Node.expr, Node.expr, entryTexts_congr indent entries h]
    simp only [hPath]
  | .require s path, h => by rw [Node.expr, Node.expr, h.names]

theorem optionExpr_congr (indent : Nat) :
    ∀ n : Option Node, w.Agree v (optionGenerics n) → optionExpr w indent n = optionExpr v indent n
  | none, _ => by rw [optionExpr, optionExpr]
  | some n, h => by
    rw [optionGenerics] at h
    rw [optionExpr, optionExpr, Node.expr_congr indent n h]

theorem operandText_congr (indent : Nat) : ∀ n : Option Node, w.Agree v (optionGenerics n) →
    operandText w indent n = operandText v indent n
  | none, _ => by rw [operandText, operandText]
  | some n, h => by
    rw [optionGenerics] at h
    rw [operandText, operandText, Node.expr_congr indent n h, h.operand]

theorem bodyText_congr (indent : Nat) :
    ∀ n : Option Node, w.Agree v (optionGenerics n) → bodyText w indent n = bodyText v indent n
  | none, _ => by rw [bodyText, bodyText]
  | some n, h => by
    rw [optionGenerics] at h
    have hExpr := Node.expr_congr (indent + 1) n h
    cases n with
    | seq s stmts =>
      rw [Node.generics] at h
      rw [bodyText, bodyText, exprs_congr (indent + 1) stmts h]
    | _ => simp only [bodyText, hExpr]

theorem elseText_congr (indent : Nat) :
    ∀ n : Option Node, w.Agree v (optionGenerics n) → elseText w indent n = elseText v indent n
  | none, _ => by rw [elseText, elseText]
  | some n, h => by
    rw [optionGenerics] at h
    have hExpr := Node.expr_congr (indent + 1) n h
    cases n with
    | seq s stmts =>
      rw [Node.generics] at h
      rw [elseText, elseText, exprs_congr (indent + 1) stmts h]
    | _ => simp only [elseText, hExpr]

theorem exprs_congr (indent : Nat) :
    ∀ ns : List Node, w.Agree v (listGenerics ns) → exprs w indent ns = exprs v indent ns
  | [], _ => by rw [exprs, exprs]
  | n :: ns, h => by
    rw [listGenerics, agree_append_iff] at h
    rw [exprs, exprs, Node.expr_congr indent n h.1, exprs_congr indent ns h.2]

theorem whenTexts_congr (indent : Nat) : ∀ ws : List (When Node), w.Agree v (whenGenerics ws) →
    whenTexts w indent ws = whenTexts v indent ws
  | [], _ => by rw [whenTexts, whenTexts]
  | ⟨patterns, body⟩ :: ws, h => by
    rw [whenGenerics, agree_append_iff, agree_append_iff] at h
    obtain ⟨⟨hPatterns, hBody⟩, hRest⟩ := h
    rw [whenTexts, whenTexts, exprs_congr indent patterns hPatterns,
      bodyText_congr indent body hBody, whenTexts_congr indent ws hRest]

theorem paramTexts_congr (indent : Nat) : ∀ ps : List (Param Node), w.Agree v (paramGenerics ps) →
    paramTexts w indent ps = paramTexts v indent ps
  | [], _ => by rw [paramTexts, paramTexts]
  | ⟨name, default⟩ :: ps, h => by
    have hNames := h.names
    rw [paramGenerics, agree_append_iff] at h
    rw [paramTexts, paramTexts, optionExpr_congr indent default h.1,
      paramTexts_congr indent ps h.2, param, param, hNames]

theorem pieceTexts_congr (indent : Nat) : ∀ ns : List Node, w.Agree v (listGenerics ns) →
    pieceTexts w indent ns = pieceTexts v indent ns
  | [], _ => by rw [pieceTexts, pieceTexts]
  | .atom s (.str text) :: ns, h => by
    have hNames := h.names
    rw [listGenerics, agree_append_iff] at h
    rw [pieceTexts, pieceTexts, pieceTexts_congr indent ns h.2, hNames]
  | n :: ns, h => by
    rw [listGenerics, agree_append_iff] at h
    have hExpr := Node.expr_congr indent n h.1
    have hRest := pieceTexts_congr indent ns h.2
    have hNames := h.1.names
    unfold pieceTexts
    split <;> simp_all

theorem entryTexts_congr (indent : Nat) : ∀ es : List (HashEntry Node),
    w.Agree v (entryGenerics es) → entryTexts w indent es = entryTexts v indent es
  | [], _ => by rw [entryTexts, entryTexts]
  | ⟨key, value⟩ :: es, h => by
    rw [entryGenerics, agree_append_iff, agree_append_iff] at h
    obtain ⟨⟨hKey, hValue⟩, hRest⟩ := h
    rw [entryTexts, entryTexts, Node.expr_congr indent key hKey,
      Node.expr_congr indent value hValue, entryTexts_congr indent es hRest]
end

end

/-! ## The texts of types -/

theorem mem_listGenerics_iff {ns : List Node} {type : TypeId} :
    type ∈ listGenerics ns ↔ ∃ n ∈ ns, type ∈ n.generics := by
  induction ns with
  | nil => simp [listGenerics]
  | cons n ns ih => simp [listGenerics, ih]

namespace TypePool

/-- The text of a type, from the texts of those that it mentions. -/
def spelling (w : Wording) (indent : Nat) (t : GenericType) : String :=
  w.names.text t.base ++ "(" ++ commas (t.args.map fun
    | .named path => w.path path
    | .merged nodes => "typeof(" ++ commas (exprs w indent nodes) ++ ")") ++ ")"

theorem spelling_congr {w v : Wording} (indent : Nat) {t : GenericType}
    (h : w.Agree v (listGenerics t.exprs)) : spelling w indent t = spelling v indent t := by
  have hArg : ∀ nodes, .merged nodes ∈ t.args → exprs w indent nodes = exprs v indent nodes := by
    intro nodes hMem
    refine exprs_congr indent nodes ⟨h.names, fun type hType => h.typeText type ?_⟩
    obtain ⟨n, hn, hGeneric⟩ := mem_listGenerics_iff.mp hType
    exact mem_listGenerics_iff.mpr ⟨n, List.mem_flatMap.mpr ⟨_, hMem, hn⟩, hGeneric⟩
  have hArgs : ∀ arg ∈ t.args, (match arg with
      | .named path => w.path path
      | .merged nodes => "typeof(" ++ commas (exprs w indent nodes) ++ ")") = match arg with
      | .named path => v.path path
      | .merged nodes => "typeof(" ++ commas (exprs v indent nodes) ++ ")" := by
    intro arg hMem
    cases arg with
    | named path => exact h.path path
    | merged nodes => simp only [hArg nodes hMem]
  rw [spelling, spelling, h.names, List.map_congr_left hArgs]

theorem textWithin_succ {p : TypePool} {names : SymbolTable} {depth : Nat} {type : TypeId}
    {t : GenericType} (ht : p.get? type = some t) (indent : Nat) :
    p.textWithin names (depth + 1) indent type =
      spelling ⟨names, p.textWithin names depth⟩ indent t := by
  rw [textWithin, ht]
  rfl

variable {p : TypePool} (h : p.Ordered) (names : SymbolTable)
include h

/-- Depth makes no difference once there is enough of it for the number of a type. -/
theorem Ordered.textWithin_eq {depth depth' : Nat} {type : TypeId} (hDepth : type.index < depth)
    (hDepth' : type.index < depth') (indent : Nat) :
    p.textWithin names depth indent type = p.textWithin names depth' indent type := by
  induction depth generalizing depth' type indent with
  | zero => exact absurd hDepth (Nat.not_lt_zero _)
  | succ depth ih =>
    obtain ⟨depth', rfl⟩ := Nat.exists_eq_succ_of_ne_zero (Nat.ne_zero_of_lt hDepth')
    cases ht : p.get? type with
    | none => rw [textWithin, textWithin, ht]
    | some t =>
      rw [textWithin_succ ht, textWithin_succ ht]
      refine spelling_congr indent ⟨rfl, fun inner hInner indent => ?_⟩
      have hLt := h.index_lt ⟨t, ht, hInner⟩
      exact ih (by omega) (by omega) indent

/-- The text of each type is spelled from the texts of the types that it mentions. -/
theorem Ordered.typeText_eq {type : TypeId} {t : GenericType} (ht : p.get? type = some t)
    (indent : Nat) : (Wording.ofPool names p).typeText indent type =
      spelling (.ofPool names p) indent t := by
  have hLt := index_lt_size ht
  obtain ⟨depth, hDepth⟩ := Nat.exists_eq_succ_of_ne_zero (Nat.ne_zero_of_lt hLt)
  have hText : (Wording.ofPool names p).typeText indent type = _ :=
    (congrArg (p.textWithin names · indent type) hDepth).trans (textWithin_succ ht indent)
  rw [hText]
  refine spelling_congr indent ⟨rfl, fun inner hInner indent => ?_⟩
  have hInnerLt := h.index_lt ⟨t, ht, hInner⟩
  exact h.textWithin_eq names (by omega) (by omega) indent

/-- No type is missing when the tree is printed. -/
theorem Ordered.print_eq {n : Node} (hn : n.TypesBelow p.size) :
    p.print names n = .ok (n.print (.ofPool names p)) := by
  rw [TypePool.print, h.missing?_eq_none (p.size + 1) ((n.typesBelow_iff_generics p.size).mp hn)]

end TypePool

end CoreTree

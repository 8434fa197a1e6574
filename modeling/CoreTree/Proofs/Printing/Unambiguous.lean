import CoreTree.Proofs.CoreForm.Everywhere
import CoreTree.Proofs.Printing.Bare
import CoreTree.Proofs.Printing.Reading

/-! # Texts of expressions

The operand rule puts parentheses around whatever would be read another way, but for a write, which
it leaves bare. So an expression is read back from its text if no write stands at the left of
anything, and then no other such expression has that text.
-/
namespace CoreTree
set_option autoImplicit false

open Printer

def CallForm.isWrite : CallForm → Bool
  | .indexWrite | .setter => true
  | .operator | .plain => false

namespace Node

/-- Locals, numbers, assignments, `and`, `or`, and the calls of one receiver: operators, sends and
the two forms of writes. -/
inductive Expression (names : SymbolTable) : Node → Prop where
  | var {s : Span} {x : Symbol} (hName : IsWord (names.text x)) :
    Expression names (.var s ⟨x, 0, false⟩)
  | int {s : Span} (k : Nat) : Expression names (.int s k)
  | assign {s s' : Span} {x : Symbol} {value : Node} (hName : IsWord (names.text x))
    (hValue : value.Expression names) : Expression names (.assign s (.var s' ⟨x, 0, false⟩) value)
  | logic {s : Span} {op : LogicOp} {left right : Node} (hLeft : left.Expression names)
    (hRight : right.Expression names) : Expression names (.logic s op left right)
  | operator {s : Span} {receiver arg : Node} {name : Symbol}
    (hName : CallForm.isOperatorName (names.text name) = true) (hNe : names.text name ≠ "=")
    (hReceiver : receiver.Expression names) (hArg : arg.Expression names) :
    Expression names (.send s receiver name [arg])
  | send {s : Span} {receiver : Node} {name : Symbol} {args : List Node}
    (hName : IsWord (names.text name)) (hReceiver : receiver.Expression names)
    (hArgs : ∀ arg ∈ args, arg.Expression names) : Expression names (.send s receiver name args)
  | setter {s : Span} {receiver value : Node} {name : Symbol} {field : String}
    (hField : IsWord field) (hName : names.text name = field ++ "=")
    (hReceiver : receiver.Expression names) (hValue : value.Expression names) :
    Expression names (.send s receiver name [value])
  | index {s : Span} {receiver index value : Node} {name : Symbol}
    (hName : names.text name = "[]=") (hReceiver : receiver.Expression names)
    (hIndex : index.Expression names) (hValue : value.Expression names) :
    Expression names (.send s receiver name [index, value])

/-- A call that is written as an assignment to a field or to an element. -/
def isWrite (names : SymbolTable) : Node → Bool
  | .call _ (some _) name args none =>
    (CallForm.of (names.text name) args.length false).isWrite
  | _ => false

/-- What a node asks of its left part: that it is no write. A method called like `and` or `or` is
written as these are. -/
def Guarded (names : SymbolTable) : Node → Prop
  | .logic _ _ left _ => left.isWrite names = false
  | .call _ (some receiver) name _ _ =>
    receiver.isWrite names = false ∧ names.text name ≠ "&&" ∧ names.text name ≠ "||"
  | _ => True

/-- Every node is guarded, at any depth. -/
def AllGuarded (names : SymbolTable) (root : Node) : Prop := ∀ n, root.Has n → n.Guarded names

section

variable {names : SymbolTable} {s : Span}

theorem allGuarded_iff (n : Node) :
    n.AllGuarded names ↔ n.Guarded names ∧ ∀ part ∈ n.parts, part.AllGuarded names :=
  n.forall_has_iff

theorem allGuarded_var (v : Var) : (Node.var s v).AllGuarded names := by
  rw [allGuarded_iff]
  simp [Guarded]

theorem allGuarded_assign {target value : Node} : (Node.assign s target value).AllGuarded names ↔
    target.AllGuarded names ∧ value.AllGuarded names := by
  rw [allGuarded_iff]
  simp [Guarded]

theorem allGuarded_logic {op : LogicOp} {left right : Node} :
    (Node.logic s op left right).AllGuarded names ↔
      left.isWrite names = false ∧ left.AllGuarded names ∧ right.AllGuarded names := by
  rw [allGuarded_iff]
  simp [Guarded]

theorem allGuarded_send {receiver : Node} {name : Symbol} {args : List Node} :
    (Node.send s receiver name args).AllGuarded names ↔
      (receiver.isWrite names = false ∧ names.text name ≠ "&&" ∧ names.text name ≠ "||") ∧
        receiver.AllGuarded names ∧ ∀ arg ∈ args, arg.AllGuarded names := by
  rw [allGuarded_iff]
  simp [Node.send, Guarded]

end

/-- The phrase is the node's text, and reads as the node. Where the node stands bare and is no
write, what follows it takes all of it. -/
structure ReadsAs (w : Wording) (n : Node) (p : Phrase) : Prop where
  text : (n.expr w 0).toList = p.chars
  tree : p.tree w.names = n.bare
  chain : w.isInfix n = false → n.isWrite w.names = false → p.IsChain

/-- The node is read back from its text. -/
def IsReadBack (w : Wording) (n : Node) : Prop := ∃ p, n.ReadsAs w p

variable {w : Wording} {n : Node} {p : Phrase}

theorem ReadsAs.operand (h : n.ReadsAs w p) : ∃ q : Phrase,
    (w.operand n (n.expr w 0)).toList = q.chars ∧ q.tree w.names = n.bare ∧
      (n.isWrite w.names = false → q.IsChain) := by
  unfold Wording.operand
  cases hInfix : w.isInfix n with
  | false => exact ⟨p, h.text, h.tree, h.chain hInfix⟩
  | true =>
    refine ⟨.group p .done, ?_, h.tree, fun _ => trivial⟩
    simp [Phrase.chars, Tail.chars, h.text]

theorem exists_readsAs_list {args : List Node} (h : ∀ arg ∈ args, arg.IsReadBack w) :
    ∃ ps, List.Forall₂ (ReadsAs w) args ps := by
  induction args with
  | nil => exact ⟨[], .nil⟩
  | cons arg args ih =>
    obtain ⟨p, hp⟩ := h arg List.mem_cons_self
    obtain ⟨ps, hps⟩ := ih fun arg hArg => h arg (List.mem_cons_of_mem _ hArg)
    exact ⟨p :: ps, .cons hp hps⟩

theorem trees_eq_bareList {args : List Node} {ps : List Phrase}
    (h : List.Forall₂ (ReadsAs w) args ps) : trees w.names ps = bareList args := by
  induction h with
  | nil => rfl
  | cons hHead _ ih => rw [trees, bareList, hHead.tree, ih]

theorem commas_exprs {arg : Node} {args : List Node} {p : Phrase} {ps : List Phrase}
    (h : arg.ReadsAs w p) (hRest : List.Forall₂ (ReadsAs w) args ps) :
    (commas (exprs w 0 (arg :: args))).toList ++ [')'] = p.chars ++ moreChars ps := by
  induction hRest generalizing arg p with
  | nil => simp [exprs, commas, moreChars, h.text]
  | cons hHead _ ih =>
    have ih := ih hHead
    simp only [exprs, commas] at ih ⊢
    rw [String.intercalate_cons_cons, String.toList_append, String.toList_append, h.text,
      List.append_assoc, ih]
    simp [moreChars]

theorem map_snd_zip_exprs (args : List Node) (indent : Nat) :
    (args.zip (exprs w indent args)).map (·.2) = exprs w indent args := by
  induction args with
  | nil => rfl
  | cons arg args ih => rw [exprs, List.zip_cons_cons, List.map_cons, ih]

theorem expr_send {s : Span} {receiver : Node} {name : Symbol} {args : List Node}
    {ps : List Phrase} (hName : IsWord (w.names.text name))
    (h : List.Forall₂ (ReadsAs w) args ps) :
    ((Node.send s receiver name args).expr w 0).toList =
      (w.operand receiver (receiver.expr w 0)).toList ++
        '.' :: ((w.names.text name).toList ++ argChars ps) := by
  simp only [Node.send, Node.expr, operandText, Printer.call, CallForm.of_isWord hName, plainCall,
    map_snd_zip_exprs]
  cases h with
  | nil => simp [exprs, argChars]
  | cons hHead hRest =>
    have hText := commas_exprs hHead hRest
    simp only [exprs, List.isEmpty_cons] at hText ⊢
    simp [argChars, ← hText]

/-- A node is read back if its left operand is, and it reads as its tail makes of that. -/
theorem IsReadBack.of_left {left : Node} (hLeft : left.IsReadBack w)
    (hWrite : left.isWrite w.names = false) (t : Tail)
    (hText : (n.expr w 0).toList = (w.operand left (left.expr w 0)).toList ++ t.chars)
    (hTree : t.tree w.names left.bare = n.bare)
    (hChain : w.isInfix n = false → n.isWrite w.names = false → t.IsChain) : n.IsReadBack w := by
  obtain ⟨p, hp⟩ := hLeft
  obtain ⟨q, hqText, hqTree, hqChain⟩ := hp.operand
  have hq : q.IsChain := hqChain hWrite
  refine ⟨q.extend t, ?_, ?_, fun hInfix hWrite => hq.extend (hChain hInfix hWrite)⟩
  · rw [hText, hqText, q.chars_extend]
  · rw [Phrase.tree_extend hq, hqTree, hTree]

theorem ReadsAs.ofInt {s : Span} (k : Nat) :
    (Node.int s k).ReadsAs w (.token (.ofNat k) .done) where
  text := by
    rw [Phrase.chars, Tail.chars, List.append_nil]
    rfl
  tree := Token.leaf_ofNat k
  chain _ _ := trivial

theorem IsReadBack.ofLogic {s : Span} {op : LogicOp} {left right : Node}
    (hWrite : left.isWrite w.names = false) (hLeft : left.IsReadBack w)
    (hRight : right.IsReadBack w) : (Node.logic s op left right).IsReadBack w := by
  obtain ⟨p, hp⟩ := hRight
  obtain ⟨q, hqText, hqTree, -⟩ := hp.operand
  refine IsReadBack.of_left hLeft hWrite (.join (.ofLogic op) q) ?_ ?_ fun hInfix => by cases hInfix
  · cases op <;> simp [Node.expr, Tail.chars, logicWord, Operator.ofLogic, Operator.ofName,
      Token.chars, hqText]
  · rw [Tail.tree, hqTree, Operator.apply_ofLogic, bare]

section

variable (hNames : w.names.names.Nodup)
include hNames

theorem localVar_text {x : Symbol} (h : IsWord (w.names.text x)) :
    localVar w.names (w.names.text x) = .var .nowhere ⟨x, 0, false⟩ := by
  rw [localVar, SymbolTable.symbolOf_text hNames h.ne_empty]

theorem ReadsAs.ofVar {s : Span} {x : Symbol} (hName : IsWord (w.names.text x)) :
    (Node.var s ⟨x, 0, false⟩).ReadsAs w (.token (.ofWord _ hName) .done) where
  text := by simp [Node.expr, Wording.var, Phrase.chars, Tail.chars, Token.ofWord, Token.chars]
  tree := by rw [Phrase.tree, Tail.tree, Token.leaf_ofWord, localVar_text hNames hName, bare]
  chain _ _ := trivial

theorem ReadsAs.ofAssign {s s' : Span} {x : Symbol} {value : Node}
    (hName : IsWord (w.names.text x)) (hValue : value.ReadsAs w p) :
    (Node.assign s (.var s' ⟨x, 0, false⟩) value).ReadsAs w (.assign (.ofWord _ hName) p) where
  text := by
    simp [Node.expr, Wording.var, Phrase.chars, Token.ofWord, Token.chars, assigned, hValue.text]
  tree := by rw [Phrase.tree, hValue.tree, Token.ofWord, localVar_text hNames hName, bare, bare]
  chain hInfix := by cases hInfix

section

variable {s : Span} {receiver value : Node} {name : Symbol}

theorem IsReadBack.ofOperator {arg : Node}
    (hName : CallForm.isOperatorName (w.names.text name) = true) (hNe : w.names.text name ≠ "=")
    (hGuarded : (Node.send s receiver name [arg]).Guarded w.names)
    (hReceiver : receiver.IsReadBack w) (hArg : arg.IsReadBack w) :
    (Node.send s receiver name [arg]).IsReadBack w := by
  obtain ⟨hWrite, hAnd, hOr⟩ := hGuarded
  obtain ⟨p, hp⟩ := hArg
  obtain ⟨q, hqText, hqTree, -⟩ := hp.operand
  have hForm := CallForm.of_operator hName
  have hEmpty := CallForm.ne_empty_of_isOperatorName hName
  refine IsReadBack.of_left hReceiver hWrite (.join (.ofName _ hName hNe) q) ?_ ?_ fun hInfix => ?_
  · simp [Node.send, Node.expr, exprs, operandText, Printer.call, hForm, Tail.chars,
      Operator.ofName, Token.chars, hqText]
  · rw [Tail.tree, hqTree, Operator.apply, Operator.ofName, if_neg hAnd, if_neg hOr,
      SymbolTable.symbolOf_text hNames hEmpty]
    rfl
  · simp [Node.send, Wording.isInfix, hForm] at hInfix

theorem IsReadBack.ofSend {args : List Node} (hName : IsWord (w.names.text name))
    (hWrite : receiver.isWrite w.names = false) (hReceiver : receiver.IsReadBack w)
    (hArgs : ∀ arg ∈ args, arg.IsReadBack w) : (Node.send s receiver name args).IsReadBack w := by
  obtain ⟨ps, hps⟩ := exists_readsAs_list hArgs
  refine IsReadBack.of_left hReceiver hWrite (.link (.ofWord _ hName) ps .done) ?_ ?_
    fun _ _ => trivial
  · rw [expr_send hName hps, Tail.chars, Tail.chars, List.append_nil]
    rfl
  · rw [Tail.tree, Tail.tree, Token.ofWord, SymbolTable.symbolOf_text hNames hName.ne_empty,
      trees_eq_bareList hps]
    rfl

theorem IsReadBack.ofSetter {field : String} (hField : IsWord field)
    (hName : w.names.text name = field ++ "=") (hWrite : receiver.isWrite w.names = false)
    (hReceiver : receiver.IsReadBack w) (hValue : value.IsReadBack w) :
    (Node.send s receiver name [value]).IsReadBack w := by
  obtain ⟨p, hp⟩ := hValue
  have hForm : CallForm.of (field ++ "=") 1 false = .setter := CallForm.of_setter hField
  have hEmpty : w.names.text name ≠ "" := by simp [hName]
  refine IsReadBack.of_left hReceiver hWrite (.set (.ofWord _ hField) p) ?_ ?_ fun _ hPlain => ?_
  · simp [Node.send, Node.expr, exprs, operandText, Printer.call, Tail.chars, Token.ofWord,
      Token.chars, assigned, hp.text, hName, hForm]
  · rw [Tail.tree, hp.tree, Token.ofWord, ← hName, SymbolTable.symbolOf_text hNames hEmpty]
    rfl
  · simp [Node.send, isWrite, hName, hForm, CallForm.isWrite] at hPlain

theorem IsReadBack.ofIndex {index : Node} (hName : w.names.text name = "[]=")
    (hWrite : receiver.isWrite w.names = false) (hReceiver : receiver.IsReadBack w)
    (hIndex : index.IsReadBack w) (hValue : value.IsReadBack w) :
    (Node.send s receiver name [index, value]).IsReadBack w := by
  obtain ⟨i, hi⟩ := hIndex
  obtain ⟨p, hp⟩ := hValue
  have hForm : CallForm.of (w.names.text name) 2 false = .indexWrite := hName ▸ CallForm.of_index
  have hEmpty : w.names.text name ≠ "" := by simp [hName]
  refine IsReadBack.of_left hReceiver hWrite (.write i p) ?_ ?_ fun _ hPlain => ?_
  · simp [Node.send, Node.expr, exprs, operandText, Printer.call, hForm, Tail.chars, assigned,
      hi.text, hp.text]
  · rw [Tail.tree, hi.tree, hp.tree, ← hName, SymbolTable.symbolOf_text hNames hEmpty]
    rfl
  · simp [Node.send, isWrite, hForm, CallForm.isWrite] at hPlain

end

/-- A guarded expression is read back from its text. -/
theorem Expression.isReadBack (h : n.Expression w.names) (hGuarded : n.AllGuarded w.names) :
    n.IsReadBack w := by
  induction h with
  | var hName => exact ⟨_, ReadsAs.ofVar hNames hName⟩
  | int k => exact ⟨_, ReadsAs.ofInt k⟩
  | assign hName _ ih =>
    obtain ⟨p, hp⟩ := ih (allGuarded_assign.mp hGuarded).2
    exact ⟨_, ReadsAs.ofAssign hNames hName hp⟩
  | logic _ _ ihLeft ihRight =>
    obtain ⟨hWrite, hLeft, hRight⟩ := allGuarded_logic.mp hGuarded
    exact IsReadBack.ofLogic hWrite (ihLeft hLeft) (ihRight hRight)
  | operator hName hNe _ _ ihReceiver ihArg =>
    obtain ⟨hRoot, hReceiver, hArgs⟩ := allGuarded_send.mp hGuarded
    exact IsReadBack.ofOperator hNames hName hNe hRoot (ihReceiver hReceiver)
      (ihArg (hArgs _ List.mem_cons_self))
  | send hName _ _ ihReceiver ihArgs =>
    obtain ⟨hRoot, hReceiver, hArgs⟩ := allGuarded_send.mp hGuarded
    exact IsReadBack.ofSend hNames hName hRoot.1 (ihReceiver hReceiver) fun arg hArg =>
      ihArgs arg hArg (hArgs arg hArg)
  | setter hField hName _ _ ihReceiver ihValue =>
    obtain ⟨hRoot, hReceiver, hArgs⟩ := allGuarded_send.mp hGuarded
    exact IsReadBack.ofSetter hNames hField hName hRoot.1 (ihReceiver hReceiver)
      (ihValue (hArgs _ List.mem_cons_self))
  | index hName _ _ _ ihReceiver ihIndex ihValue =>
    obtain ⟨hRoot, hReceiver, hArgs⟩ := allGuarded_send.mp hGuarded
    exact IsReadBack.ofIndex hNames hName hRoot.1 (ihReceiver hReceiver)
      (ihIndex (hArgs _ (by simp))) (ihValue (hArgs _ (by simp)))

end

/-! What a guarded expression leaves out is written as something else. -/

section

variable {s s' : Span} {name : Symbol} {receiver value left right : Node} (indent : Nat)

/-- A connective after a write belongs to the value that is written. -/
theorem expr_setter_logic (op : LogicOp)
    (hForm : CallForm.of (w.names.text name) 1 false = .setter) (hValue : w.isInfix value = false) :
    (Node.logic s op (.send s' receiver name [value]) right).expr w indent =
      (Node.send s' receiver name [.logic s op value right]).expr w indent := by
  have hBare : w.isInfix (.call s' (some receiver) name [value] none) = false := by
    simp [Wording.isInfix, hForm]
  simp [Node.send, Node.expr, exprs, operandText, Printer.call, Wording.operand, hForm, hBare,
    hValue, String.append_assoc]

/-- So does one after a write to an element. -/
theorem expr_index_logic {index : Node} (op : LogicOp)
    (hForm : CallForm.of (w.names.text name) 2 false = .indexWrite)
    (hValue : w.isInfix value = false) :
    (Node.logic s op (.send s' receiver name [index, value]) right).expr w indent =
      (Node.send s' receiver name [index, .logic s op value right]).expr w indent := by
  have hBare : w.isInfix (.call s' (some receiver) name [index, value] none) = false := by
    simp [Wording.isInfix, hForm]
  simp [Node.send, Node.expr, exprs, operandText, Printer.call, Wording.operand, hForm, hBare,
    hValue, String.append_assoc]

/-- A call of a method named like a connective is written as the connective is. -/
theorem expr_send_connective (op : LogicOp)
    (hName : w.names.text name = (Operator.ofLogic op).text) :
    (Node.send s left name [right]).expr w indent = (Node.logic s op left right).expr w indent := by
  have hForm : CallForm.of (Operator.ofLogic op).text 1 false = .operator := by cases op <;> decide
  have hWord : logicWord op = " " ++ (Operator.ofLogic op).text ++ " " := by cases op <;> rfl
  simp [Node.send, Node.expr, exprs, operandText, Printer.call, hName, hForm, hWord,
    String.append_assoc]

end

theorem Expression.print_eq (h : n.Expression w.names) : n.print w = n.expr w 0 := by
  cases h <;> rfl

end Node

/-- Two expressions have one text exactly if they are the same tree, whatever places they were read
from, provided that no write in them stands at the left of anything, where it is printed bare, and
that no method is called like a connective.
-/
theorem guarded_print_eq_iff {w : Wording} {t u : Node} (hNames : w.names.names.Nodup)
    (ht : t.Expression w.names) (hu : u.Expression w.names) (htGuarded : t.AllGuarded w.names)
    (huGuarded : u.AllGuarded w.names) : t.print w = u.print w ↔ t.bare = u.bare := by
  constructor
  · intro hPrint
    obtain ⟨p, hp⟩ := ht.isReadBack hNames htGuarded
    obtain ⟨q, hq⟩ := hu.isReadBack hNames huGuarded
    have hChars : p.chars = q.chars := by
      rw [← hp.text, ← hq.text, ← ht.print_eq, hPrint, hu.print_eq]
    rw [← hp.tree, ← hq.tree, Phrase.chars_injective hChars]
  · intro hBare
    rw [← t.print_bare, hBare, u.print_bare]

namespace Sample

def fieldNames : SymbolTable := ⟨commonNames ++ ["a", "b", "c", "x="], List.prefix_append _ _⟩

def fieldSet (receiver value : Node) : Node :=
  .send .nowhere receiver (fieldNames.symbolOf "x=") [value]

/-- `(a.x = b) && c` -/
def settingFirst : Node :=
  .logic .nowhere .and (fieldSet (localVar fieldNames "a") (localVar fieldNames "b"))
    (localVar fieldNames "c")

/-- `a.x = (b && c)` -/
def settingLast : Node :=
  fieldSet (localVar fieldNames "a")
    (.logic .nowhere .and (localVar fieldNames "b") (localVar fieldNames "c"))

/-- `c && (a.x = b)` -/
def settingSecond : Node :=
  .logic .nowhere .and (localVar fieldNames "c")
    (fieldSet (localVar fieldNames "a") (localVar fieldNames "b"))

theorem fieldSet_expression {receiver value : Node} (hReceiver : receiver.Expression fieldNames)
    (hValue : value.Expression fieldNames) : (fieldSet receiver value).Expression fieldNames := by
  have hField : IsWord "x" := by decide
  exact .setter hField (by decide) hReceiver hValue

/-- A write that is the left operand has the text of a write of the whole. -/
theorem settingFirst_printed_alike :
    settingFirst.Expression fieldNames ∧ settingLast.Expression fieldNames ∧
      settingFirst.bare ≠ settingLast.bare ∧
      settingFirst.print (.plain fieldNames) = "a.x = b && c" ∧
      settingLast.print (.plain fieldNames) = "a.x = b && c" := by
  have hA : (localVar fieldNames "a").Expression fieldNames := .var (by decide)
  have hB : (localVar fieldNames "b").Expression fieldNames := .var (by decide)
  have hC : (localVar fieldNames "c").Expression fieldNames := .var (by decide)
  have hAlike : settingFirst.print (.plain fieldNames) = settingLast.print (.plain fieldNames) :=
    Node.expr_setter_logic 0 .and (by decide) rfl
  have hText : settingLast.print (.plain fieldNames) = "a.x = b && c" := by decide
  exact ⟨.logic (fieldSet_expression hA hB) hC, fieldSet_expression hA (.logic hB hC), by decide,
    hAlike.trans hText, hText⟩

theorem settingLast_printed_apart :
    fieldNames.names.Nodup ∧ settingLast.Expression fieldNames ∧
      settingSecond.Expression fieldNames ∧ settingLast.AllGuarded fieldNames ∧
      settingSecond.AllGuarded fieldNames ∧
      settingLast.print (.plain fieldNames) ≠ settingSecond.print (.plain fieldNames) := by
  have hNames : fieldNames.names.Nodup := by decide
  have hA : (localVar fieldNames "a").Expression fieldNames := .var (by decide)
  have hB : (localVar fieldNames "b").Expression fieldNames := .var (by decide)
  have hC : (localVar fieldNames "c").Expression fieldNames := .var (by decide)
  have hLast : settingLast.Expression fieldNames := fieldSet_expression hA (.logic hB hC)
  have hSecond : settingSecond.Expression fieldNames := .logic hC (fieldSet_expression hA hB)
  have hLeaf : ∀ name, (localVar fieldNames name).AllGuarded fieldNames := fun _ =>
    Node.allGuarded_var _
  have hLastGuarded : settingLast.AllGuarded fieldNames := by
    simp only [settingLast, fieldSet, Node.allGuarded_send, Node.allGuarded_logic,
      List.forall_mem_singleton, hLeaf]
    decide
  have hSecondGuarded : settingSecond.AllGuarded fieldNames := by
    simp only [settingSecond, fieldSet, Node.allGuarded_send, Node.allGuarded_logic,
      List.forall_mem_singleton, hLeaf]
    decide
  have hIff := guarded_print_eq_iff (w := .plain fieldNames) hNames hLast hSecond hLastGuarded
    hSecondGuarded
  have hBare : settingLast.bare ≠ settingSecond.bare := by decide
  exact ⟨hNames, hLast, hSecond, hLastGuarded, hSecondGuarded, fun h => hBare (hIff.mp h)⟩

end Sample

end CoreTree

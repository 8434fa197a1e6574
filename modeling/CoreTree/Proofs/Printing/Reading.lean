import CoreTree.Proofs.Printing.Words
import CoreTree.Tree.Basic

/-! # Phrases as trees

A phrase reads as one tree: sends gather from the left, and an operator or a write takes all that
follows it.
-/
namespace CoreTree
set_option autoImplicit false

namespace SymbolTable

variable {t : SymbolTable}

/-- Where a string stands in the table. -/
def symbolOf (t : SymbolTable) (name : String) : Symbol := ⟨t.names.idxOf name⟩

theorem symbolOf_text (h : t.names.Nodup) {x : Symbol} (hText : t.text x ≠ "") :
    t.symbolOf (t.text x) = x := by
  cases hGet : t.text? x with
  | none => simp [text, hGet] at hText
  | some name =>
    obtain ⟨hLt, hName⟩ := List.getElem?_eq_some_iff.mp hGet
    rw [text, hGet, Option.getD_some, symbolOf, ← hName, h.idxOf_getElem]

end SymbolTable

section

variable (names : SymbolTable)

def localVar (name : String) : Node := .var .nowhere ⟨names.symbolOf name, 0, false⟩

/-- A token of nothing but digits is a number. -/
def Token.leaf (word : Token) : Node :=
  if word.chars.all Char.isDigit then .int .nowhere (Nat.ofDigitChars 10 word.chars 0)
  else localVar names word.text

def Operator.apply (op : Operator) (left right : Node) : Node :=
  if op.text = "&&" then .logic .nowhere .and left right
  else if op.text = "||" then .logic .nowhere .or left right
  else .send .nowhere left (names.symbolOf op.text) [right]

/-- The sign of a connective. -/
def Operator.ofLogic : LogicOp → Operator
  | .and => .ofName "&&" (by decide) (by decide)
  | .or => .ofName "||" (by decide) (by decide)

theorem Operator.apply_ofLogic (op : LogicOp) (left right : Node) :
    (ofLogic op).apply names left right = .logic .nowhere op left right := by
  cases op <;> rfl

mutual
def Phrase.tree : Phrase → Node
  | .token word rest => rest.tree (word.leaf names)
  | .group inner rest => rest.tree inner.tree
  | .assign target value => .assign .nowhere (localVar names target.text) value.tree
termination_by structural p => p

/-- The tree that comes of what stands to the left. -/
def Tail.tree : Tail → Node → Node
  | .done, left => left
  | .link name args rest, left =>
    rest.tree (.send .nowhere left (names.symbolOf name.text) (trees args))
  | .join op right, left => op.apply names left right.tree
  | .set name value, left =>
    .send .nowhere left (names.symbolOf (name.text ++ "=")) [value.tree]
  | .write index value, left =>
    .send .nowhere left (names.symbolOf "[]=") [index.tree, value.tree]
termination_by structural t => t

def trees : List Phrase → List Node
  | [] => []
  | p :: ps => p.tree :: trees ps
termination_by structural ps => ps
end

variable {names}

theorem Tail.tree_extend (t : Tail) : ∀ (u : Tail) (left : Node), u.IsChain →
    (u.extend t).tree names left = t.tree names (u.tree names left)
  | .done, _, _ => rfl
  | .link name args rest, left, h =>
    Tail.tree_extend t rest (.send .nowhere left (names.symbolOf name.text) (trees names args)) h

/-- What follows a chain takes all of it as its left operand. -/
theorem Phrase.tree_extend {p : Phrase} (h : p.IsChain) (t : Tail) :
    (p.extend t).tree names = t.tree names (p.tree names) := by
  cases p with
  | token word rest => exact t.tree_extend rest (word.leaf names) h
  | group inner rest => exact t.tree_extend rest (inner.tree names) h
  | assign target value => exact h.elim

theorem Token.leaf_ofWord {name : String} (h : IsWord name) :
    (ofWord name h).leaf names = localVar names name := by
  obtain ⟨c, cs, hName, hStart⟩ := h.exists_cons
  have hDigits : (ofWord name h).chars.all Char.isDigit ≠ true := by
    intro hAll
    exact hStart.not_isDigit (List.all_eq_true.mp hAll c (by simp [chars, ofWord, hName]))
  rw [leaf, if_neg hDigits]
  rfl

theorem Token.leaf_ofNat (k : Nat) : (ofNat k).leaf names = .int .nowhere k := by
  have hChars : (ofNat k).chars = Nat.toDigits 10 k := Nat.toList_repr
  have hDigits : (ofNat k).chars.all Char.isDigit = true :=
    List.all_eq_true.mpr fun _ hc => isDigit_of_mem_repr hc
  rw [leaf, if_pos hDigits, hChars, Nat.ofDigitChars_toDigits (by decide) (by decide)]

end

end CoreTree

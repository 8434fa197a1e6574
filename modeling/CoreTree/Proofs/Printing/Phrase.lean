import Mathlib.Data.List.Basic

/-! # Phrases

What a printed expression consists of, before it is read as a tree: a chain that starts with a
token, a group in parentheses or an assignment, and goes on with sends, until an operator or a write
takes all the rest of it. The text of a phrase can be read as no other phrase.
-/
namespace CoreTree
set_option autoImplicit false

/-- The characters that structure a text and stand in no token. -/
def marks : List Char := [' ', '.', '(', ')', '[', ']', ',']

/-- A word, a number or an operator. -/
@[ext]
structure Token where
  text : String
  unmarked : ∀ c ∈ text.toList, c ∉ marks

/-- What joins two operands. An assignment has no operand to its left, so `=` is no operator. -/
@[ext]
structure Operator extends Token where
  ne_assign : text ≠ "="

mutual
inductive Phrase where
  | token (word : Token) (rest : Tail)
  | group (inner : Phrase) (rest : Tail)
  | assign (target : Token) (value : Phrase)

/-- What follows an operand. -/
inductive Tail where
  | done
  | link (name : Token) (args : List Phrase) (rest : Tail)
  | join (op : Operator) (right : Phrase)
  | set (name : Token) (value : Phrase)
  | write (index value : Phrase)
end

def Token.chars (t : Token) : List Char := t.text.toList

/-- The sign of an assignment and what it assigns. -/
def assigned (value : List Char) : List Char := ' ' :: '=' :: ' ' :: value

mutual
def Phrase.chars : Phrase → List Char
  | .token word rest => word.chars ++ rest.chars
  | .group inner rest => '(' :: (inner.chars ++ ')' :: rest.chars)
  | .assign target value => target.chars ++ assigned value.chars
termination_by structural p => p

def Tail.chars : Tail → List Char
  | .done => []
  | .link name args rest => '.' :: (name.chars ++ (argChars args ++ rest.chars))
  | .join op right => ' ' :: (op.chars ++ ' ' :: right.chars)
  | .set name value => '.' :: (name.chars ++ assigned value.chars)
  | .write index value => '[' :: (index.chars ++ ']' :: assigned value.chars)
termination_by structural t => t

/-- Without arguments there is no argument list. -/
def argChars : List Phrase → List Char
  | [] => []
  | p :: ps => '(' :: (p.chars ++ moreChars ps)
termination_by structural ps => ps

def moreChars : List Phrase → List Char
  | [] => [')']
  | p :: ps => ',' :: ' ' :: (p.chars ++ moreChars ps)
termination_by structural ps => ps
end

section

variable {x y r : List Char}

/-- A token ends before this. -/
def EndsToken (x : List Char) : Prop := ∀ c ∈ x.head?, c ∈ marks

/-- An operand ends before this. What stands in parentheses right after it is its arguments. -/
def EndsOperand (x : List Char) : Prop := ∀ c ∈ x.head?, c ∈ marks ∧ c ≠ '('

/-- A whole phrase ends before this. -/
def EndsPhrase (x : List Char) : Prop := ∀ c ∈ x.head?, c ∈ [')', ']', ',']

theorem EndsOperand.endsToken (h : EndsOperand x) : EndsToken x := fun c hc => (h c hc).1

theorem EndsPhrase.endsOperand (h : EndsPhrase x) : EndsOperand x := by
  have hClosing : ∀ c ∈ [')', ']', ','], c ∈ marks ∧ c ≠ '(' := by simp [marks]
  exact fun c hc => hClosing c (h c hc)

@[simp]
theorem endsToken_cons (c : Char) : EndsToken (c :: x) ↔ c ∈ marks := by simp [EndsToken]

@[simp]
theorem endsOperand_cons (c : Char) : EndsOperand (c :: x) ↔ c ∈ marks ∧ c ≠ '(' := by
  simp [EndsOperand]

@[simp]
theorem endsPhrase_nil : EndsPhrase [] := by simp [EndsPhrase]

@[simp]
theorem endsPhrase_cons (c : Char) : EndsPhrase (c :: x) ↔ c ∈ [')', ']', ','] := by
  simp [EndsPhrase]

theorem endsOperand_assigned (value : List Char) : EndsOperand (assigned value) := by
  simp [assigned, marks]

theorem endsToken_assigned (value : List Char) : EndsToken (assigned value) :=
  (endsOperand_assigned value).endsToken

theorem endsPhrase_moreChars (ps : List Phrase) : EndsPhrase (moreChars ps ++ x) := by
  cases ps <;> simp [moreChars]

theorem endsToken_argChars (ps : List Phrase) (h : EndsOperand x) :
    EndsToken (argChars ps ++ x) := by
  cases ps with
  | nil => exact h.endsToken
  | cons p ps => simp [argChars, marks]

theorem Tail.endsOperand (t : Tail) (h : EndsPhrase r) : EndsOperand (t.chars ++ r) := by
  cases t with
  | done => exact h.endsOperand
  | link | join | set | write => simp [Tail.chars, marks]

theorem Tail.endsToken (t : Tail) (h : EndsPhrase r) : EndsToken (t.chars ++ r) :=
  (t.endsOperand h).endsToken

namespace Token

theorem takeWhile_append (t : Token) (h : EndsToken x) :
    (t.chars ++ x).takeWhile (· ∉ marks) = t.chars := by
  have hToken : ∀ c ∈ t.chars, decide (c ∉ marks) = true := fun c hc =>
    decide_eq_true (t.unmarked c hc)
  rw [List.takeWhile_append_of_pos hToken]
  cases x with
  | nil => rw [List.takeWhile_nil, List.append_nil]
  | cons c cs => rw [List.takeWhile_cons_of_neg (by simpa using h), List.append_nil]

theorem append_inj {t u : Token} (h : t.chars ++ x = u.chars ++ y) (hx : EndsToken x)
    (hy : EndsToken y) : t = u ∧ x = y := by
  have hChars : t.chars = u.chars := by
    rw [← t.takeWhile_append hx, h, u.takeWhile_append hy]
  rw [hChars] at h
  exact ⟨Token.ext (String.toList_inj.mp hChars), List.append_cancel_left h⟩

theorem append_ne_group (t : Token) (h : EndsOperand x) : t.chars ++ x ≠ '(' :: y := by
  intro hEq
  cases hChars : t.chars with
  | nil =>
    rw [hChars, List.nil_append] at hEq
    subst hEq
    simp at h
  | cons c cs =>
    rw [hChars, List.cons_append] at hEq
    obtain ⟨rfl, -⟩ := List.cons.inj hEq
    have hMem : '(' ∈ t.chars := by simp [hChars]
    exact t.unmarked _ hMem (by decide)

end Token

/-- Only an assignment is written with `=` between blanks. -/
theorem Tail.append_ne_assigned (t : Tail) (h : EndsPhrase r) : t.chars ++ r ≠ assigned x := by
  intro hEq
  cases t with
  | done =>
    obtain rfl : r = assigned x := hEq
    simp [assigned] at h
  | join op right =>
    let sign : Token := ⟨"=", by simp [marks]⟩
    have hSign : op.chars ++ ' ' :: (right.chars ++ r) = sign.chars ++ ' ' :: x := by
      simpa [Tail.chars, assigned, sign, Token.chars] using hEq
    have hOp := (Token.append_inj hSign (by simp [marks]) (by simp [marks])).1
    exact op.ne_assign (congrArg Token.text hOp)
  | link | set | write => simp [Tail.chars, assigned] at hEq

/-- A send whose name an assignment follows is a write. -/
theorem argChars_append_ne_assigned (args : List Phrase) (rest : Tail) (h : EndsPhrase r) :
    argChars args ++ (rest.chars ++ r) ≠ assigned x := by
  cases args with
  | nil => exact rest.append_ne_assigned h
  | cons p ps => simp [argChars, assigned]

end

mutual
theorem Phrase.append_inj {r s : List Char} (hr : EndsPhrase r) (hs : EndsPhrase s) :
    ∀ p q : Phrase, p.chars ++ r = q.chars ++ s → p = q ∧ r = s
  | .token word rest, .token word' rest', h => by
    simp only [Phrase.chars, List.append_assoc] at h
    obtain ⟨rfl, hRest⟩ := Token.append_inj h (rest.endsToken hr) (rest'.endsToken hs)
    obtain ⟨rfl, rfl⟩ := Tail.append_inj hr hs rest rest' hRest
    exact ⟨rfl, rfl⟩
  | .group inner rest, .group inner' rest', h => by
    simp only [Phrase.chars, List.cons_append, List.append_assoc, List.cons.injEq, true_and] at h
    obtain ⟨rfl, hRest⟩ := Phrase.append_inj (by simp) (by simp) inner inner' h
    obtain ⟨rfl, rfl⟩ := Tail.append_inj hr hs rest rest' (List.cons.inj hRest).2
    exact ⟨rfl, rfl⟩
  | .assign target value, .assign target' value', h => by
    simp only [Phrase.chars, List.append_assoc] at h
    obtain ⟨rfl, hValue⟩ := Token.append_inj h (endsToken_assigned _) (endsToken_assigned _)
    obtain ⟨rfl, rfl⟩ := Phrase.append_inj hr hs value value' (by simpa [assigned] using hValue)
    exact ⟨rfl, rfl⟩
  | .token word rest, .assign target value, h => by
    simp only [Phrase.chars, List.append_assoc] at h
    have hRest := (Token.append_inj h (rest.endsToken hr) (endsToken_assigned _)).2
    exact absurd hRest (rest.append_ne_assigned hr)
  | .assign target value, .token word rest, h => by
    simp only [Phrase.chars, List.append_assoc] at h
    have hRest := (Token.append_inj h (endsToken_assigned _) (rest.endsToken hs)).2
    exact absurd hRest.symm (rest.append_ne_assigned hs)
  | .token word rest, .group inner rest', h => by
    simp only [Phrase.chars, List.append_assoc] at h
    exact absurd h (word.append_ne_group (rest.endsOperand hr))
  | .group inner rest', .token word rest, h => by
    simp only [Phrase.chars, List.append_assoc] at h
    exact absurd h.symm (word.append_ne_group (rest.endsOperand hs))
  | .assign target value, .group inner rest, h => by
    simp only [Phrase.chars, List.append_assoc] at h
    exact absurd h (target.append_ne_group (endsOperand_assigned _))
  | .group inner rest, .assign target value, h => by
    simp only [Phrase.chars, List.append_assoc] at h
    exact absurd h.symm (target.append_ne_group (endsOperand_assigned _))

theorem Tail.append_inj {r s : List Char} (hr : EndsPhrase r) (hs : EndsPhrase s) :
    ∀ t u : Tail, t.chars ++ r = u.chars ++ s → t = u ∧ r = s
  | .done, .done, h => ⟨rfl, h⟩
  | .link name args rest, .link name' args' rest', h => by
    simp only [Tail.chars, List.cons_append, List.append_assoc, List.cons.injEq, true_and] at h
    obtain ⟨rfl, hArgs⟩ := Token.append_inj h (endsToken_argChars args (rest.endsOperand hr))
      (endsToken_argChars args' (rest'.endsOperand hs))
    obtain ⟨rfl, hRest⟩ := argChars_append_inj (rest.endsOperand hr) (rest'.endsOperand hs) args
      args' hArgs
    obtain ⟨rfl, rfl⟩ := Tail.append_inj hr hs rest rest' hRest
    exact ⟨rfl, rfl⟩
  | .join op right, .join op' right', h => by
    simp only [Tail.chars, List.cons_append, List.append_assoc, List.cons.injEq, true_and] at h
    obtain ⟨hOp, hRight⟩ := Token.append_inj h (by simp [marks]) (by simp [marks])
    obtain rfl : op = op' := Operator.ext (congrArg Token.text hOp)
    obtain ⟨rfl, rfl⟩ := Phrase.append_inj hr hs right right' (List.cons.inj hRight).2
    exact ⟨rfl, rfl⟩
  | .set name value, .set name' value', h => by
    simp only [Tail.chars, List.cons_append, List.append_assoc, List.cons.injEq, true_and] at h
    obtain ⟨rfl, hValue⟩ := Token.append_inj h (endsToken_assigned _) (endsToken_assigned _)
    obtain ⟨rfl, rfl⟩ := Phrase.append_inj hr hs value value' (by simpa [assigned] using hValue)
    exact ⟨rfl, rfl⟩
  | .write index value, .write index' value', h => by
    simp only [Tail.chars, List.cons_append, List.append_assoc, List.cons.injEq, true_and] at h
    obtain ⟨rfl, hValue⟩ := Phrase.append_inj (by simp) (by simp) index index' h
    obtain ⟨rfl, rfl⟩ := Phrase.append_inj hr hs value value' (by simpa [assigned] using hValue)
    exact ⟨rfl, rfl⟩
  | .link name args rest, .set name' value, h => by
    simp only [Tail.chars, List.cons_append, List.append_assoc, List.cons.injEq, true_and] at h
    have hArgs := (Token.append_inj h (endsToken_argChars args (rest.endsOperand hr))
      (endsToken_assigned _)).2
    exact absurd hArgs (argChars_append_ne_assigned args rest hr)
  | .set name' value, .link name args rest, h => by
    simp only [Tail.chars, List.cons_append, List.append_assoc, List.cons.injEq, true_and] at h
    have hArgs := (Token.append_inj h (endsToken_assigned _)
      (endsToken_argChars args (rest.endsOperand hs))).2
    exact absurd hArgs.symm (argChars_append_ne_assigned args rest hs)
  | .done, .link .., h | .done, .join .., h | .done, .set .., h | .done, .write .., h => by
    obtain rfl := h
    simp [Tail.chars] at hr
  | .link .., .done, h | .join .., .done, h | .set .., .done, h | .write .., .done, h => by
    obtain rfl := h
    simp [Tail.chars] at hs
  | .link .., .join .., h | .link .., .write .., h | .join .., .link .., h | .join .., .set .., h
  | .join .., .write .., h | .set .., .join .., h | .set .., .write .., h | .write .., .link .., h
  | .write .., .join .., h | .write .., .set .., h => by
    simp [Tail.chars] at h

theorem argChars_append_inj {r s : List Char} (hr : EndsOperand r) (hs : EndsOperand s) :
    ∀ ps qs : List Phrase, argChars ps ++ r = argChars qs ++ s → ps = qs ∧ r = s
  | [], [], h => ⟨rfl, h⟩
  | p :: ps, q :: qs, h => by
    simp only [argChars, List.cons_append, List.append_assoc, List.cons.injEq, true_and] at h
    obtain ⟨rfl, hMore⟩ := Phrase.append_inj (endsPhrase_moreChars ps) (endsPhrase_moreChars qs)
      p q h
    obtain ⟨rfl, rfl⟩ := moreChars_append_inj ps qs hMore
    exact ⟨rfl, rfl⟩
  | [], _ :: _, h => by
    obtain rfl := h
    simp [argChars] at hr
  | _ :: _, [], h => by
    obtain rfl := h
    simp [argChars] at hs

theorem moreChars_append_inj {r s : List Char} :
    ∀ ps qs : List Phrase, moreChars ps ++ r = moreChars qs ++ s → ps = qs ∧ r = s
  | [], [], h => ⟨rfl, by simpa [moreChars] using h⟩
  | p :: ps, q :: qs, h => by
    simp only [moreChars, List.cons_append, List.append_assoc, List.cons.injEq, true_and] at h
    obtain ⟨rfl, hMore⟩ := Phrase.append_inj (endsPhrase_moreChars ps) (endsPhrase_moreChars qs)
      p q h
    obtain ⟨rfl, rfl⟩ := moreChars_append_inj ps qs hMore
    exact ⟨rfl, rfl⟩
  | [], _ :: _, h | _ :: _, [], h => by simp [moreChars] at h
end

/-- No two phrases have the same text. -/
theorem Phrase.chars_injective : Function.Injective Phrase.chars := by
  intro p q h
  exact (Phrase.append_inj endsPhrase_nil endsPhrase_nil p q (by simpa using h)).1

/-! ## Going on

A text that goes on after a phrase goes on inside what the phrase ends with. Only a chain of sends
stays whole as the operand of what comes next.
-/

mutual
def Phrase.extend : Phrase → Tail → Phrase
  | .token word rest, t => .token word (rest.extend t)
  | .group inner rest, t => .group inner (rest.extend t)
  | .assign target value, t => .assign target (value.extend t)
termination_by structural p => p

def Tail.extend : Tail → Tail → Tail
  | .done, t => t
  | .link name args rest, t => .link name args (rest.extend t)
  | .join op right, t => .join op (right.extend t)
  | .set name value, t => .set name (value.extend t)
  | .write index value, t => .write index (value.extend t)
termination_by structural t => t
end

mutual
theorem Phrase.chars_extend :
    ∀ (p : Phrase) (t : Tail), (p.extend t).chars = p.chars ++ t.chars
  | .token word rest, t => by simp [Phrase.extend, Phrase.chars, rest.chars_extend t]
  | .group inner rest, t => by simp [Phrase.extend, Phrase.chars, rest.chars_extend t]
  | .assign target value, t => by
    simp [Phrase.extend, Phrase.chars, assigned, value.chars_extend t]

theorem Tail.chars_extend : ∀ u t : Tail, (u.extend t).chars = u.chars ++ t.chars
  | .done, _ => rfl
  | .link name args rest, t => by simp [Tail.extend, Tail.chars, rest.chars_extend t]
  | .join op right, t => by simp [Tail.extend, Tail.chars, right.chars_extend t]
  | .set name value, t => by simp [Tail.extend, Tail.chars, assigned, value.chars_extend t]
  | .write index value, t => by simp [Tail.extend, Tail.chars, assigned, value.chars_extend t]
end

def Tail.IsChain : Tail → Prop
  | .done => True
  | .link _ _ rest => rest.IsChain
  | .join .. | .set .. | .write .. => False

/-- Nothing but sends to a token or a group. -/
def Phrase.IsChain : Phrase → Prop
  | .token _ rest | .group _ rest => rest.IsChain
  | .assign .. => False

theorem Tail.IsChain.extend {t : Tail} (ht : t.IsChain) :
    ∀ u : Tail, u.IsChain → (u.extend t).IsChain
  | .done, _ => ht
  | .link _ _ rest, hu => Tail.IsChain.extend ht rest hu

theorem Phrase.IsChain.extend {p : Phrase} {t : Tail} (hp : p.IsChain) (ht : t.IsChain) :
    (p.extend t).IsChain := by
  cases p with
  | token word rest | group inner rest => exact ht.extend rest hp
  | assign target value => exact hp.elim

end CoreTree

import CoreTree.Proofs.Printing.Phrase
import CoreTree.Tree.Printer
import Mathlib.Data.Bool.AllAny

/-! # Words, numbers and operators

The tokens of printed expressions. How a name begins tells a word from a number and from an
operator, and with the number of arguments it tells how a call of that name is written.
-/
namespace CoreTree
set_option autoImplicit false

theorem Unicode.isAlpha_or_of_isAlphabetic {c : Char} (h : isAlphabetic c = true) :
    c.isAlpha = true ∨ 0xAA ≤ c.toNat := by
  have hRanges : ∀ r ∈ alphabeticRanges, 0xAA ≤ r.1 := by decide +kernel
  simp only [isAlphabetic, Bool.or_eq_true, List.any_eq_true, Bool.and_eq_true,
    decide_eq_true_eq] at h
  obtain hAlpha | ⟨r, hr, hLow, -⟩ := h
  · exact .inl hAlpha
  · exact .inr (Nat.le_trans (hRanges r hr) hLow)

/-- A letter or an underscore. -/
def StartsWord (c : Char) : Prop := Unicode.isAlphabetic c = true ∨ c = '_'

instance (c : Char) : Decidable (StartsWord c) :=
  inferInstanceAs (Decidable (Unicode.isAlphabetic c = true ∨ c = '_'))

namespace StartsWord

variable {c : Char}

theorem isAlpha_or (h : StartsWord c) : c.isAlpha = true ∨ c = '_' ∨ 0xAA ≤ c.toNat := by
  obtain hAlphabetic | rfl := h
  · exact (Unicode.isAlpha_or_of_isAlphabetic hAlphabetic).imp_right .inr
  · exact .inr (.inl rfl)

theorem not_operatorChar (h : StartsWord c) : c ∉ CallForm.operatorChars := by
  have hChars : ∀ c ∈ CallForm.operatorChars,
      ¬ (c.isAlpha = true ∨ c = '_' ∨ 0xAA ≤ c.toNat) :=
    List.all_iff_forall_prop.mp (by decide)
  exact fun hMem => hChars c hMem h.isAlpha_or

theorem not_isDigit (h : StartsWord c) : ¬ c.isDigit = true := by
  intro hDigit
  have hLow : c.toNat ≤ 0x39 := by
    simp only [Char.isDigit, Bool.and_eq_true, decide_eq_true_eq, UInt32.le_iff_toNat_le] at hDigit
    exact hDigit.2
  obtain hAlpha | rfl | hBeyond := h.isAlpha_or
  · have hLetter : 'A'.val ≤ c.val ∨ 'a'.val ≤ c.val :=
      ((Bool.or_eq_true _ _).mp hAlpha).imp (fun h => (of_decide_eq_true h).1)
        fun h => of_decide_eq_true ((Bool.and_eq_true _ _).mp h).1
    have hHigh : 0x41 ≤ c.toNat ∨ 0x61 ≤ c.toNat :=
      hLetter.imp UInt32.le_iff_toNat_le.mp UInt32.le_iff_toNat_le.mp
    omega
  · cases hDigit
  · omega

end StartsWord

/-- A name that begins as a word does and holds no mark and no sign of assignment. -/
structure IsWord (name : String) : Prop where
  starts : ∃ c ∈ name.toList.head?, StartsWord c
  unmarked : ∀ c ∈ name.toList, c ∉ '=' :: marks

instance (name : String) : Decidable (IsWord name) :=
  decidable_of_iff
    (name.toList.head?.any (StartsWord ·) = true ∧ name.toList.all (· ∉ '=' :: marks) = true) (by
      rw [Option.any_eq_true, List.all_iff_forall_prop]
      simp only [decide_eq_true_eq]
      exact ⟨fun h => ⟨h.1, h.2⟩, fun h => ⟨h.starts, h.unmarked⟩⟩)

namespace IsWord

variable {name : String}

theorem exists_cons (h : IsWord name) : ∃ c cs, name.toList = c :: cs ∧ StartsWord c := by
  obtain ⟨c, hHead, hStart⟩ := h.starts
  obtain ⟨cs, hName⟩ := List.head?_eq_some_iff.mp hHead
  exact ⟨c, cs, hName, hStart⟩

theorem ne_empty (h : IsWord name) : name ≠ "" := by
  obtain ⟨c, cs, hName, -⟩ := h.exists_cons
  rintro rfl
  cases hName

end IsWord

namespace CallForm

variable {name : String}

theorem isOperatorName_append (h : IsWord name) (rest : String) :
    isOperatorName (name ++ rest) = false := by
  obtain ⟨c, cs, hName, hStart⟩ := h.exists_cons
  simp [isOperatorName, hName, hStart.not_operatorChar]

theorem of_isWord (h : IsWord name) (argCount : Nat) : of name argCount false = .plain := by
  have hOperator : isOperatorName name = false := by simpa using isOperatorName_append h ""
  have hIndex : name ≠ "[]=" := fun hName => h.unmarked '=' (by simp [hName]) List.mem_cons_self
  have hSetter : isSetterName name = false := by
    have hLast : name.toList.getLast? ≠ some '=' := fun hLast =>
      h.unmarked _ (List.mem_of_getLast? hLast) List.mem_cons_self
    simp [isSetterName, hLast]
  simp [of, hOperator, hIndex, hSetter]

theorem of_setter (h : IsWord name) : of (name ++ "=") 1 false = .setter := by
  obtain ⟨c, cs, hName, hStart⟩ := h.exists_cons
  have hFirst : (Unicode.isAlphabetic c || c == '_') = true := by
    simpa [StartsWord] using hStart
  have hLast : (name ++ "=").toList.getLast? = some '=' := by simp
  have hSetter : isSetterName (name ++ "=") = true := by
    unfold isSetterName
    rw [hLast, String.toList_append, hName]
    exact Bool.and_eq_true_iff.mpr ⟨rfl, hFirst⟩
  simp [of, isOperatorName_append h, hSetter]

theorem of_operator (h : isOperatorName name = true) : of name 1 false = .operator := by
  simp [of, h]

theorem of_index : of "[]=" 2 false = .indexWrite := by decide

theorem ne_empty_of_isOperatorName (h : isOperatorName name = true) : name ≠ "" := by
  rintro rfl
  cases h

theorem unmarked_of_isOperatorName (h : isOperatorName name = true) :
    ∀ c ∈ name.toList, c ∉ marks := by
  have hMarks : ∀ c ∈ operatorChars, c ∉ marks := List.all_iff_forall_prop.mp (by decide)
  simp only [isOperatorName, Bool.and_eq_true, List.all_eq_true, List.contains_iff_mem] at h
  exact fun c hc => hMarks c (h.2 c hc)

end CallForm

theorem isDigit_of_mem_repr {n : Nat} {c : Char} (h : c ∈ n.repr.toList) : c.isDigit = true :=
  Nat.isDigit_of_mem_toDigits (by decide) (by decide) (Nat.toList_repr ▸ h)

/-! ## As tokens -/

def Token.ofWord (name : String) (h : IsWord name) : Token :=
  ⟨name, fun c hc hMem => h.unmarked c hc (List.mem_cons_of_mem _ hMem)⟩

def Token.ofNat (n : Nat) : Token where
  text := n.repr
  unmarked c hc := by
    have hMarks : ∀ c ∈ marks, ¬ c.isDigit = true := List.all_iff_forall_prop.mp (by decide)
    exact fun hMem => hMarks c hMem (isDigit_of_mem_repr hc)

def Operator.ofName (name : String) (h : CallForm.isOperatorName name = true) (hNe : name ≠ "=") :
    Operator :=
  ⟨⟨name, CallForm.unmarked_of_isOperatorName h⟩, hNe⟩

end CoreTree

/-! # Symbols

A symbol stands for a string of a `SymbolTable`: its number is the string's position there.
Symbols are ordered by number, so by the order in which their strings were first met, and
every listing of variables follows that order. Fourteen strings are in every table, at
fixed positions, and have names here.
-/
namespace CoreTree
set_option autoImplicit false

structure Symbol where
  id : Nat
deriving DecidableEq, Inhabited

namespace Symbol

def empty : Symbol := ⟨0⟩
def selfName : Symbol := ⟨1⟩
def newName : Symbol := ⟨2⟩
def toS : Symbol := ⟨3⟩
def append : Symbol := ⟨4⟩
def caseEq : Symbol := ⟨5⟩
def indexSet : Symbol := ⟨6⟩
def buffer : Symbol := ⟨7⟩
def setLength : Symbol := ⟨8⟩
def array : Symbol := ⟨9⟩
def hash : Symbol := ⟨10⟩
def range : Symbol := ⟨11⟩
def regexp : Symbol := ⟨12⟩
def stringBuilder : Symbol := ⟨13⟩

/-- A symbol without its table. -/
def debugText (s : Symbol) : String := s!"Name({s.id})"

end Symbol

/-- The strings every table starts with. -/
def commonNames : List String :=
  ["", "self", "new", "to_s", "<<", "===", "[]=", "buffer", "length=", "Array", "Hash",
   "Range", "Regexp", "StringBuilder"]

structure SymbolTable where
  names : List String
  common : commonNames <+: names

namespace SymbolTable

def initial : SymbolTable := ⟨commonNames, List.prefix_refl _⟩

instance : Inhabited SymbolTable := ⟨initial⟩

def size (t : SymbolTable) : Nat := t.names.length

def isEmpty (t : SymbolTable) : Bool := t.size ≤ 1

def text? (t : SymbolTable) (s : Symbol) : Option String := t.names[s.id]?

/-- The string of a symbol; a symbol of another table may have none and reads as empty. -/
def text (t : SymbolTable) (s : Symbol) : String := (t.text? s).getD ""

/-- The symbol of a string, added at the end if it is new. -/
def intern (t : SymbolTable) (name : String) : Symbol × SymbolTable :=
  match t.names.idxOf? name with
  | some i => (⟨i⟩, t)
  | none => (⟨t.size⟩, ⟨t.names ++ [name], t.common.trans (List.prefix_append _ _)⟩)

/-- Symbols are 32 bits wide, which bounds a table. -/
def maxSize : Nat := 4294967295

inductive CapacityError where
  | full (count : Nat)

def CapacityError.message : CapacityError → String
  | .full count => s!"interner exceeded capacity: {count} strings, max is {maxSize}"

theorem text?_of_common (t : SymbolTable) {s : Symbol} {name : String}
    (h : commonNames[s.id]? = some name) : t.text? s = some name := by
  obtain ⟨rest, hRest⟩ := t.common
  obtain ⟨hLt, _⟩ := List.getElem?_eq_some_iff.mp h
  rw [text?, ← hRest, List.getElem?_append_left hLt, h]

theorem text?_intern (t : SymbolTable) (name : String) :
    (t.intern name).2.text? (t.intern name).1 = some name := by
  unfold intern
  split
  · rename_i i h
    obtain ⟨hLt, hEq⟩ := List.idxOf?_eq_some_iff.mp h
    simp_all [text?]
  · simp [text?, size]

theorem text?_intern_of_some {t : SymbolTable} {s : Symbol} {old : String}
    (h : t.text? s = some old) (name : String) : (t.intern name).2.text? s = some old := by
  unfold intern
  split
  · exact h
  · obtain ⟨hLt, _⟩ := List.getElem?_eq_some_iff.mp h
    rw [text?, List.getElem?_append_left hLt]
    exact h

end SymbolTable

end CoreTree

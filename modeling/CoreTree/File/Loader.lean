import CoreTree.Tree.Basic
import CoreTree.File.Location

/-! # Loaders

Where the trees of required files come from: a table from locations to what is there. A tree
is there ready-made, a file's bytes are decoded and parsed when it is loaded, and a broken
entry exists but cannot be loaded.
-/
namespace CoreTree
set_option autoImplicit false

inductive Content where
  | tree (root : Node)
  | bytes (data : ByteArray)
  | broken (message : String)

/-- `parse` reads the text of a file. It may add symbols even where it fails. -/
structure Loader where
  files : List (Location × Content)
  parse : String → SymbolTable → Except String Node × SymbolTable

namespace Loader

def empty : Loader := ⟨[], fun _ names => (.error "no parser", names)⟩

def content? (l : Loader) (place : Location) : Option Content := l.files.lookup place

/-- A later entry hides an earlier one. -/
def insert (l : Loader) (place : Location) (c : Content) : Loader :=
  { l with files := (place, c) :: l.files }

/-- Registers a tree. A location known to be broken stays broken. -/
def addTree (l : Loader) (place : Location) (root : Node) : Loader :=
  match l.content? place with
  | some (.broken _) => l
  | _ => l.insert place (.tree root)

def addBroken (l : Loader) (place : Location) (message : String) : Loader :=
  l.insert place (.broken message)

/-- A file on disk is found under every path that leads to it, so under its normal location. -/
def addFile (l : Loader) (place : Location) (data : ByteArray) : Loader :=
  l.insert place.normal (.bytes data)

def load (l : Loader) (names : SymbolTable) : Content → Except String Node × SymbolTable
  | .tree root => (.ok root, names)
  | .broken message => (.error message, names)
  | .bytes data =>
    match String.fromUTF8? data with
    | some text => l.parse text names
    | none => (.error "stream did not contain valid UTF-8", names)

end Loader

end CoreTree

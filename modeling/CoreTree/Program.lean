import CoreTree.Tree.Printer
import CoreTree.File.Loader
import CoreTree.File.Require

/-! # Programs

What the files of one program share: symbols, the count of temporaries, the constants that
hold compiled regexes, generic types, and the requires met so far. Each operation returns
the program it leaves behind; one that fails still leaves one.
-/
namespace CoreTree
set_option autoImplicit false

/-- The constant of one regex text. `span` is where the text was first met. -/
structure RegexConstant where
  text : Symbol
  name : Symbol
  span : Span
deriving DecidableEq

/-- The initializer: `::Regexp.new("text")`. -/
def RegexConstant.value (c : RegexConstant) : Node :=
  .send c.span (.globalConst c.span .regexp) .newName [.atom c.span (.str c.text)]

structure Program where
  names : SymbolTable
  temps : Nat
  constants : List RegexConstant
  types : TypePool
  requires : Tracker
  loader : Loader
  searchPaths : List SourcePath

/-- A file met for the first time, with its tree. It stays in flight until it is finished. -/
structure RequiredFile where
  file : Location
  root : Node

namespace Program

def init (names : SymbolTable) (loader : Loader) (searchPaths : List SourcePath) : Program where
  names
  temps := 0
  constants := []
  types := .empty
  requires := .empty
  loader
  searchPaths

def intern (p : Program) (name : String) : Symbol × Program :=
  let (symbol, names) := p.names.intern name
  (symbol, { p with names })

/-- A temporary not used before. No name of a source file starts with `#`. -/
def freshTemp (p : Program) : Symbol × Program :=
  { p with temps := p.temps + 1 }.intern s!"#temp_{p.temps + 1}"

/-- The constant of a regex text, defined when the text is first met. -/
def regexConstant (p : Program) (text : Symbol) (span : Span) : Symbol × Program :=
  match p.constants.find? (·.text == text) with
  | some c => (c.name, p)
  | none =>
    let (name, q) := p.intern s!"#Regexp_{p.constants.length}"
    (name, { q with constants := p.constants ++ [⟨text, name, span⟩] })

def constant? (p : Program) (name : Symbol) : Option RegexConstant :=
  p.constants.find? (·.name == name)

def genericType (p : Program) (base : Symbol) (args : List TypeArg) : TypeId × Program :=
  let (id, types) := p.types.intern ⟨base, args⟩
  (id, { p with types })

/-- Puts the main file in flight, so that a require that leads back to it is a cycle. -/
def beginFile (p : Program) (file : Location) : Except RequireError Program :=
  (p.requires.start file.normal).map fun requires => { p with requires }

/-- The first file a request may mean that the loader knows. -/
def find? (p : Program) (requested : String) (requestedFrom : Option SourcePath) :
    Option (Location × Content) :=
  let files :=
    candidates requested (requestedFrom.map (·.location)) (p.searchPaths.map (·.location))
  files.findSome? fun file => (p.loader.content? file).map (file, ·)

/-- Answers a request: nothing if its file is loaded already, and otherwise the file's tree,
with the file put in flight. A file that cannot be loaded does not stay in flight. -/
def resolve (p : Program) (requested : String) (requestedFrom : Option SourcePath) :
    Except RequireError (Option RequiredFile) × Program :=
  match p.find? requested requestedFrom with
  | none => (.error (.notFound requested requestedFrom), p)
  | some (file, content) =>
    if p.requires.isLoaded file then (.ok none, p)
    else match p.requires.start file with
      | .error e => (.error e, p)
      | .ok requires =>
        match p.loader.load p.names content with
        | (.ok root, names) => (.ok (some ⟨file, root⟩), { p with names, requires })
        | (.error message, names) =>
          (.error (.load file message), { p with names, requires := requires.abort file })

def finish (p : Program) (file : Location) : Program :=
  { p with requires := p.requires.finish file.normal }

def isLoaded (p : Program) (file : Location) : Bool := p.requires.isLoaded file.normal

def print (p : Program) (n : Node) : Except PrintError String := p.types.print p.names n

end Program

end CoreTree

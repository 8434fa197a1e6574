/-! # Locations

What a file path says once it is read: a list of steps. Repeated and trailing separators
and a `.` after the first step say nothing, so paths that differ only there have one
location. `Location.normal` also resolves `..` against the name before it, without looking
at any disk, so that one file is found under one location.
-/
namespace CoreTree
set_option autoImplicit false

inductive Step where
  | root
  | here
  | up
  | name (text : String)
deriving DecidableEq

structure Location where
  steps : List Step
deriving DecidableEq

namespace Step

/-- The step that a part between separators stands for; an empty part and `.` stand for none. -/
def ofPart? : List Char → Option Step
  | [] | ['.'] => none
  | ['.', '.'] => some .up
  | part => some (.name (String.ofList part))

def text : Step → String
  | .root => ""
  | .here => "."
  | .up => ".."
  | .name s => s

/-- A file name has an extension if a dot follows its first character. -/
def hasExtension (name : String) : Bool := (name.toList.drop 1).contains '.'

end Step

namespace Location

/-- The current directory, which is also where a path of no steps leads. -/
def empty : Location := ⟨[]⟩

/-- Reads a path. A leading separator makes it absolute; a leading `.` is kept. -/
def parse (path : String) : Location :=
  let parts := path.toList.splitOn '/'
  let steps := parts.filterMap Step.ofPart?
  match path.toList, parts with
  | '/' :: _, _ => ⟨.root :: steps⟩
  | _, ['.'] :: _ => ⟨.here :: steps⟩
  | _, _ => ⟨steps⟩

def text (l : Location) : String :=
  match l.steps with
  | [.root] => "/"
  | steps => "/".intercalate (steps.map Step.text)

def isAbsolute (l : Location) : Bool := l.steps.head? == some .root

def join (base l : Location) : Location :=
  if l.isAbsolute || base.steps.isEmpty then l
  else ⟨base.steps ++ l.steps.filter (· != .here)⟩

/-- The directory a location lies in. The root, and the path of no steps, lie in none. -/
def parent? (l : Location) : Option Location :=
  match l.steps.getLast? with
  | none | some .root => none
  | some _ => some ⟨l.steps.dropLast⟩

/-- One step of resolving dots. `done` holds the steps kept so far, the last one first. -/
def resolve (done : List Step) : Step → List Step
  | .here => done
  | .up =>
    match done with
    | .name _ :: rest => rest
    | .root :: _ => done
    | _ => .up :: done
  | step => step :: done

/-- Drops every `.` and cancels every `..` against the name before it. There is nothing
above the root; a `..` with nothing before it is kept. -/
def normal (l : Location) : Location := ⟨(l.steps.foldl resolve []).reverse⟩

/-- Gives the file name an extension unless it has one. A location that does not end in a
name stays as it is. -/
def withExtension (l : Location) (extension : String) : Location :=
  match l.steps.getLast? with
  | some (.name s) =>
    if Step.hasExtension s then l else ⟨l.steps.dropLast ++ [.name (s ++ "." ++ extension)]⟩
  | _ => l

end Location

/-- A path as someone wrote it, with the location it leads to. -/
structure SourcePath where
  spelling : String
  location : Location
deriving DecidableEq

namespace SourcePath

def parse (spelling : String) : SourcePath := ⟨spelling, .parse spelling⟩

def ofLocation (l : Location) : SourcePath := ⟨l.text, l⟩

end SourcePath

end CoreTree

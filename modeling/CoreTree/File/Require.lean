import CoreTree.File.Location

/-! # Requires

Which files a `require` may mean, and which files a run has met. A request that starts with
`./` or `../` means one file, seen from the directory of the file that asks; any other is
tried in each search directory in turn. A file is in flight from the moment it is found until
it is finished, and to meet it again in between is a cycle.
-/
namespace CoreTree
set_option autoImplicit false

/-- The extension of a request that names none. -/
def sourceExtension : String := "gar"

inductive RequireError where
  | notFound (requested : String) (requestedFrom : Option SourcePath)
  | circular (chain : List Location)
  | load (file : Location) (message : String)
deriving DecidableEq

namespace RequireError

def message : RequireError → String
  | .notFound requested requestedFrom =>
    "can't find file '" ++ requested ++ "'" ++
      (requestedFrom.map fun p => " (required from '" ++ p.spelling ++ "')").getD ""
  | .circular chain =>
    "circular require detected: " ++ " -> ".intercalate (chain.map Location.text)
  | .load file message => "failed to load '" ++ file.text ++ "': " ++ message

end RequireError

/-- A request that is seen from the file that asks. -/
def isRelativeRequest (requested : String) : Bool :=
  match requested.toList with
  | '.' :: '/' :: _ | '.' :: '.' :: '/' :: _ => true
  | _ => false

def locate (directory : Location) (requested : String) : Location :=
  (directory.join (.parse requested)).normal.withExtension sourceExtension

/-- The files a request may mean, in the order in which they are tried. -/
def candidates (requested : String) (requestedFrom : Option Location)
    (searchPaths : List Location) : List Location :=
  if isRelativeRequest requested then
    [locate ((requestedFrom.bind Location.parent?).getD .empty) requested]
  else searchPaths.map (locate · requested)

/-- Files in flight, the outermost first, and files finished. -/
structure Tracker where
  inFlight : List Location
  loaded : List Location

namespace Tracker

def empty : Tracker := ⟨[], []⟩

def isLoaded (t : Tracker) (file : Location) : Bool := t.loaded.contains file

/-- Puts a file in flight, unless it is in flight already. -/
def start (t : Tracker) (file : Location) : Except RequireError Tracker :=
  if t.inFlight.contains file then .error (.circular (t.inFlight ++ [file]))
  else .ok { t with inFlight := t.inFlight ++ [file] }

/-- Takes a file out of flight, as if it had not been met. -/
def abort (t : Tracker) (file : Location) : Tracker :=
  { t with inFlight := t.inFlight.erase file }

def finish (t : Tracker) (file : Location) : Tracker :=
  { t.abort file with loaded := t.loaded.insert file }

theorem start_eq_ok_iff {t u : Tracker} {file : Location} :
    t.start file = .ok u ↔ file ∉ t.inFlight ∧ u = ⟨t.inFlight ++ [file], t.loaded⟩ := by
  unfold start
  split <;> simp_all [eq_comm]

theorem start_eq_error_iff {t : Tracker} {file : Location} {e : RequireError} :
    t.start file = .error e ↔ file ∈ t.inFlight ∧ e = .circular (t.inFlight ++ [file]) := by
  unfold start
  split <;> simp_all [eq_comm]

theorem isLoaded_finish (t : Tracker) (file other : Location) :
    (t.finish file).isLoaded other = true ↔ other = file ∨ t.isLoaded other = true := by
  simp [isLoaded, finish, List.mem_insert_iff]

end Tracker

end CoreTree

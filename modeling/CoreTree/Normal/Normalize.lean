import CoreTree.CoreForm
import CoreTree.Normal.OfNode

/-! # Normalization

To normalize a tree is to run its pending tree in an empty scope. A require becomes the
normalized tree of its file, which has a scope of its own, or nothing if the file is loaded
already. The result, and the types registered by then, are checked to be in core form.
-/
namespace CoreTree
set_option autoImplicit false

/-- Finds the file of a require that stands in `file`. -/
def resolveRequire (file : Option SourcePath) (path : Symbol) : Norm (Option RequiredFile) := do
  let (found, program) := (← get).program.resolve ((← get).program.names.text path) file
  modify fun s => { s with program }
  match found with
  | .ok found => return found
  | .error e => throw (.require e)

/-- Answers the requires of `file`. Each nested file is in flight and known to the loader, and
no file is in flight twice, so files nest no deeper than the loader has entries: a tree is
never found at depth 0. -/
def answerRequire : Nat → Option SourcePath → RequireHandler
  | 0, file, s, path => do
    let _ ← resolveRequire file path
    return .nop s
  | depth + 1, file, s, path => do
    match ← resolveRequire file path with
    | none => return .nop s
    | some found =>
      let inner := answerRequire depth (some (.ofLocation found.file))
      let node ← Norm.inScope .empty (found.root.pending inner).node
      Norm.onProgram fun p => ((), p.finish found.file)
      return node

/-- Why there is no normalized tree: the tree itself, or a result that is not in core form. -/
inductive NormalizeFailure where
  | error (e : NormalizeError)
  | fault (f : CoreFault)
deriving DecidableEq

namespace Program

/-- Normalizes a tree. Its relative requires are seen from `file`, if it stands in one. -/
def normalize (p : Program) (file : Option SourcePath) (root : Node) :
    Except NormalizeFailure Node × Program :=
  match (root.pending (answerRequire p.loader.files.length file)).node ⟨p, .empty⟩ with
  | .error e s => (.error (.error e), s.program)
  | .ok node s =>
    match node.coreFault? <|> s.program.types.coreFault? with
    | some f => (.error (.fault f), s.program)
    | none => (.ok node, s.program)

/-- Normalizes the tree of the main file, which is in flight meanwhile. -/
def normalizeFile (p : Program) (file : SourcePath) (root : Node) :
    Except NormalizeFailure Node × Program :=
  match p.beginFile file.location with
  | .error e => (.error (.error (.require e)), p)
  | .ok p =>
    match p.normalize (some file) root with
    | (.error (.fault f), p) => (.error (.fault f), p)
    | (result, p) => (result, p.finish file.location)

end Program

end CoreTree

import CoreTree.Normal.Normalize

/-! # Histories

How a program comes about: it starts empty, and trees are normalized in it, whether that succeeds or
not. Between two trees new strings may be interned and other files made known.
-/
namespace CoreTree
set_option autoImplicit false

/-- A program with the normalized trees that came of it, the last one first. Only trees that are
`admitted` are normalized, and files come from loaders that are. -/
inductive Program.History (admitted : Program → Node → Prop) (loads : Loader → Prop) :
    Program → List Node → Prop where
  | start {names : SymbolTable} {loader : Loader} {searchPaths : List SourcePath}
    (hLoader : loads loader) : History admitted loads (.init names loader searchPaths) []
  | intern {p : Program} {trees : List Node} (h : History admitted loads p trees)
    (name : String) : History admitted loads (p.intern name).2 trees
  | reload {p : Program} {trees : List Node} {loader : Loader} (h : History admitted loads p trees)
    (hLoader : loads loader) : History admitted loads { p with loader } trees
  | normalize {p : Program} {trees : List Node} {root : Node}
    (h : History admitted loads p trees) (hRoot : admitted p root) (file : Option SourcePath) :
    History admitted loads (p.normalize file root).2
      ((p.normalize file root).1.toOption.toList ++ trees)
  | normalizeFile {p : Program} {trees : List Node} {root : Node}
    (h : History admitted loads p trees) (hRoot : admitted p root) (file : SourcePath) :
    History admitted loads (p.normalizeFile file root).2
      ((p.normalizeFile file root).1.toOption.toList ++ trees)

end CoreTree

/-! # Options of normalization

Whether each normalized tree is shown as it comes out. An environment variable switches it on,
with the value `1` and no other.
-/
namespace CoreTree
set_option autoImplicit false

structure NormalizeOptions where
  dumpTree : Bool
deriving DecidableEq

namespace NormalizeOptions

def default : NormalizeOptions := ⟨false⟩

def dumpVariable : String := "GARNET_DUMP_SSA"

def ofEnvironment (value : Option String) : NormalizeOptions := ⟨value = some "1"⟩

end NormalizeOptions

end CoreTree

/-!
# Identities

What modules, objects and the other entities of a universe are known by.  Modules and objects are
numbered from one, in the order of their creation, by one counter of their universe; the core
classes and modules take the first numbers.
-/

namespace ObjectModel

/-- The number of a class or a module. -/
structure ModuleId where
  num : Nat
  deriving DecidableEq, Inhabited

/-- The number of a plain object. -/
structure ObjectId where
  num : Nat
  deriving DecidableEq, Inhabited

/-- The number of a pending autoload. -/
structure AutoloadId where
  num : Nat
  deriving DecidableEq, Inhabited

/-- The number of a version counter that guards no table of a module. -/
structure CounterId where
  num : Nat
  deriving DecidableEq, Inhabited

/-- The number of a thread. -/
structure ThreadId where
  num : Nat
  deriving DecidableEq, Inhabited

/-- The identity of a method or context: two with one stamp are the very same value. -/
structure Stamp where
  num : Nat
  deriving DecidableEq, Inhabited

/-! ### The core classes and modules -/

namespace Core

def basicObject : ModuleId := ⟨1⟩
def kernel : ModuleId := ⟨2⟩
def object : ModuleId := ⟨3⟩
def module : ModuleId := ⟨4⟩
def cls : ModuleId := ⟨5⟩
def nilClass : ModuleId := ⟨6⟩
def trueClass : ModuleId := ⟨7⟩
def falseClass : ModuleId := ⟨8⟩
def integer : ModuleId := ⟨9⟩
def symbol : ModuleId := ⟨10⟩
def string : ModuleId := ⟨11⟩

/-- The core classes and modules under their names, in the order of their constants. -/
def named : List (String × ModuleId) := [
  ("BasicObject", basicObject), ("Object", object), ("Module", module), ("Class", cls),
  ("Kernel", kernel), ("NilClass", nilClass), ("TrueClass", trueClass),
  ("FalseClass", falseClass), ("Integer", integer), ("Symbol", symbol), ("String", string)]

end Core

end ObjectModel

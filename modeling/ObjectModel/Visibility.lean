/-!
# Visibilities

Who may call a method: anyone, code of the same hierarchy, or code calling itself.
-/

namespace ObjectModel

/-- The visibility of a method, or the default one of the definitions in a body of code. -/
inductive Visibility
  /-- Callable from anywhere. -/
  | pub
  /-- Callable with an explicit receiver only from within the declaring module's hierarchy. -/
  | prot
  /-- Callable with an implicit receiver only. -/
  | priv
  /-- Private in the module, public in its singleton class. -/
  | moduleFunction
  deriving DecidableEq, Inhabited

namespace Visibility

/-- Whether explicit receivers are forbidden. -/
def isPrivate : Visibility → Bool
  | .priv | .moduleFunction => true
  | .pub | .prot => false

/-- Whether explicit receivers are restricted to the hierarchy. -/
def isProtected (v : Visibility) : Bool := v == .prot

/-- Whether any receiver will do. -/
def isPublic (v : Visibility) : Bool := v == .pub

/-- The word that selects a visibility in a module body. -/
def keyword : Visibility → String
  | .pub => "public"
  | .prot => "protected"
  | .priv => "private"
  | .moduleFunction => "module_function"

/-- The visibility that a keyword selects; `default` selects the one that bodies start with. -/
def ofKeyword? : String → Option Visibility
  | "public" => some .pub
  | "protected" => some .prot
  | "private" => some .priv
  | "module_function" => some .moduleFunction
  | "default" => some default
  | _ => none

@[simp] theorem ofKeyword?_keyword (v : Visibility) : ofKeyword? v.keyword = some v := by
  cases v <;> rfl

end Visibility

end ObjectModel
